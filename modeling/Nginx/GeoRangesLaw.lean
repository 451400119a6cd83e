import Nginx.GeoRangesMap

/-!
# The geo ranges law

The reference is a map from addresses to the entry that owns them. An added
range takes every address it covers; a deleted range that was added and is
still intact gives all of them back. The arrays follow the reference through
every run in which no added piece comes before all ranges of its array and
every deletion either finds an intact range that ends in its block behind
where it begins, or finds nothing.
-/

set_option autoImplicit false

namespace Nginx.GeoRangesLaw
open Nginx.CellMove Nginx.GeoRanges Nginx.GeoRangesMap

variable {α : Type*}

def blockStart (start h : ℕ) : ℕ := if h = start / 0x10000 then start % 0x10000 else 0

def blockEnd (stop h : ℕ) : ℕ := if h = stop / 0x10000 then stop % 0x10000 else 0xffff

variable (start n : ℕ)

theorem piece_start_eq (h : n = start ∨ (start / 0x10000 < n / 0x10000)) :
    pieceStart start n = blockStart start (n / 0x10000) := by
  rcases h with rfl | h
  · simp [pieceStart, blockStart]
  have hne : n ≠ start := by
    rintro rfl
    omega
  rw [pieceStart, blockStart, if_neg hne, if_neg (by omega)]

variable (stop : ℕ)

theorem piece_end_eq (n : ℕ) (h : n ≤ stop) : pieceEnd stop n = blockEnd stop (n / 0x10000) := by
  unfold pieceEnd blockEnd
  split_ifs <;> omega

variable (v : α) (fuel : ℕ) (low low' : Low α)

theorem add_loop_spec (n : ℕ) (hn : n = start ∨ (start / 0x10000 < n / 0x10000 ∧ n % 0x10000 = 0))
    (hlt : n < 2^32) (hle : n ≤ stop) (hstop : stop < 0xffff0000)
    (h : addLoop start stop v fuel low n = .done low') (k : ℕ) :
    if n / 0x10000 ≤ k ∧ k ≤ stop / 0x10000 then
      ∃ a, addPiece ((low k).getD []) (blockStart start k) (blockEnd stop k) v
        ((low k).getD []).length = some a ∧ low' k = some a
    else low' k = low k := by
  induction fuel generalizing low n with
  | zero => simp [addLoop] at h
  | succ fuel ih =>
    rw [addLoop, if_pos hle] at h
    simp only at h
    rw [piece_start_eq start n (by omega), piece_end_eq stop n hle] at h
    cases hp : addPiece ((low (n / 0x10000)).getD []) (blockStart start (n / 0x10000))
        (blockEnd stop (n / 0x10000)) v ((low (n / 0x10000)).getD []).length with
    | none =>
      rw [hp] at h
      cases h
    | some a =>
      rw [hp] at h
      simp only at h
      have hnext : (n+0x10000) % 2^32 / 0x10000 * 0x10000 = (n / 0x10000+1)*0x10000 := by
        omega
      rw [hnext] at h
      by_cases hmore : (n / 0x10000+1)*0x10000 ≤ stop
      · have hrec := ih (Function.update low (n / 0x10000) (some a)) ((n / 0x10000+1)*0x10000)
          (Or.inr (by omega)) (by omega) hmore h
        have hdiv : (n / 0x10000+1)*0x10000 / 0x10000 = n / 0x10000+1 := by omega
        rw [hdiv] at hrec
        by_cases hk : k = n / 0x10000
        · subst hk
          rw [if_neg (by omega), Function.update_self] at hrec
          rw [if_pos (by omega)]
          exact ⟨a,hp,hrec⟩
        rw [Function.update_of_ne hk] at hrec
        by_cases hin : n / 0x10000+1 ≤ k ∧ k ≤ stop / 0x10000
        · rw [if_pos hin] at hrec
          rw [if_pos (by omega)]
          exact hrec
        rw [if_neg hin] at hrec
        rw [if_neg (by omega)]
        exact hrec
      have hend : low' = Function.update low (n / 0x10000) (some a) := by
        cases fuel with
        | zero => simp [addLoop] at h
        | succ fuel =>
          rw [addLoop, if_neg hmore] at h
          cases h
          rfl
      by_cases hk : k = n / 0x10000
      · subst hk
        rw [if_pos (by omega), hend, Function.update_self]
        exact ⟨a,hp,rfl⟩
      · rw [if_neg (by omega), hend, Function.update_of_ne hk]

theorem add_loop_last_block (n : ℕ) (hlt : n < 2^32) (hle : n ≤ stop) (hstop : 0xffff0000 ≤ stop) :
    addLoop start stop v fuel low n ≠ .done low' := by
  induction fuel generalizing low n with
  | zero => simp [addLoop]
  | succ fuel ih =>
    rw [addLoop, if_pos hle]
    simp only
    split
    · simp
    · exact ih _ _ (by omega) (by omega)

theorem add_range_spec (hle : start ≤ stop) (hlt : stop < 2^32)
    (h : ngxHttpGeoAddRange low start stop v = .done low') (k : ℕ) :
    if start / 0x10000 ≤ k ∧ k ≤ stop / 0x10000 then
      ∃ a, addPiece ((low k).getD []) (blockStart start k) (blockEnd stop k) v
        ((low k).getD []).length = some a ∧ low' k = some a
    else low' k = low k := by
  by_cases hstop : stop < 0xffff0000
  · exact add_loop_spec start stop v _ low low' start (Or.inl rfl) (by omega) hle hstop h k
  · exact absurd h (add_loop_last_block start stop v _ low low' start (by omega) hle (by omega))

variable (a : List (Range α))

theorem delete_piece_spec (left rest : List (Range α)) (s e : ℕ) (warn : Bool) (ha : a = left++rest) :
    (deletePiece a s e rest left.length warn).1 = a ∧
        (∀ r ∈ rest, ¬(s = r.start ∧ e = r.stop)) ∨
    ∃ pre r post, a = pre++r::post ∧ s = r.start ∧ e = r.stop ∧
      (deletePiece a s e rest left.length warn).1 = pre++post := by
  induction rest generalizing left warn with
  | nil => exact Or.inl ⟨rfl,by simp⟩
  | cons r rest ih =>
    have ha' : a = (left++[r])++rest := by simp [ha]
    have hrec := fun w => ih (left++[r]) w ha'
    simp only [List.length_append, List.length_singleton] at hrec
    rw [deletePiece]
    by_cases hm : s = r.start ∧ e = r.stop
    · right
      refine ⟨left,r,rest,ha,hm.1,hm.2,?_⟩
      rw [if_pos hm]
      have hclose := memmove_close left rest r
      have hlen : a.length-1-left.length = rest.length := by
        rw [ha]
        simp only [List.length_append, List.length_cons]
        omega
      have hlen' : a.length-1 = left.length+rest.length := by
        rw [ha]
        simp only [List.length_append, List.length_cons]
        omega
      rw [hlen, hlen', ha]
      exact hclose
    rw [if_neg hm]
    have hcons : ∀ w, (deletePiece a s e rest (left.length+1) w).1 = a ∧
        (∀ x ∈ r::rest, ¬(s = x.start ∧ e = x.stop)) ∨
        ∃ pre x post, a = pre++x::post ∧ s = x.start ∧ e = x.stop ∧
          (deletePiece a s e rest (left.length+1) w).1 = pre++post := by
      intro w
      rcases hrec w with ⟨h1,h2⟩ | h1
      · left
        refine ⟨h1,?_⟩
        intro x hx
        rcases List.mem_cons.mp hx with rfl | hx
        · exact hm
        · exact h2 x hx
      · exact Or.inr h1
    split_ifs
    · exact hcons warn
    · exact hcons true

theorem delete_piece_warn (rest : List (Range α)) (s e i : ℕ) :
    (deletePiece a s e rest i true).2 = true := by
  induction rest generalizing i with
  | nil => rfl
  | cons r rest ih =>
    rw [deletePiece]
    split_ifs
    · rfl
    · exact ih (i+1)
    · exact ih (i+1)

theorem delete_loop_spec (warn : Bool) (n : ℕ) (hn : n % 0x10000 = start % 0x10000 ∧ start ≤ n)
    (hlt : n < 2^32) (hend : stop < 0xffff0000+start % 0x10000)
    (h : deleteLoop start stop fuel low warn n = .done (low', false)) (k : ℕ) :
    warn = false ∧
    if n / 0x10000 ≤ k ∧ k*0x10000+start % 0x10000 ≤ stop then
      ∃ a, low k = some a ∧
        low' k = some (deletePiece a (blockStart start k) (blockEnd stop k) a 0 false).1
    else low' k = low k := by
  induction fuel generalizing low warn n with
  | zero => simp [deleteLoop] at h
  | succ fuel ih =>
    rw [deleteLoop] at h
    by_cases hle : n ≤ stop
    · rw [if_pos hle] at h
      simp only at h
      have hnext : (n+0x10000) % 2^32 = n+0x10000 := by omega
      rw [hnext] at h
      cases ha : low (n / 0x10000) with
      | none =>
        rw [ha] at h
        simp only at h
        have hw := (ih low true (n+0x10000) (by omega) (by omega) h).1
        cases hw
      | some a =>
        rw [ha] at h
        simp only at h
        rw [piece_start_eq start n (by omega), piece_end_eq stop n hle] at h
        obtain ⟨hw,hrec⟩ := ih _ _ (n+0x10000) (by omega) (by omega) h
        have hwarn : warn = false := by
          by_contra hne
          have htrue : warn = true := by simpa using hne
          rw [htrue, delete_piece_warn] at hw
          cases hw
        refine ⟨hwarn,?_⟩
        have hdiv : (n+0x10000) / 0x10000 = n / 0x10000+1 := by omega
        rw [hdiv] at hrec
        by_cases hk : k = n / 0x10000
        · subst hk
          rw [if_neg (by omega), Function.update_self, hwarn] at hrec
          rw [if_pos (by omega)]
          exact ⟨a,ha,hrec⟩
        rw [Function.update_of_ne hk] at hrec
        by_cases hin : n / 0x10000+1 ≤ k ∧ k*0x10000+start % 0x10000 ≤ stop
        · rw [if_pos hin] at hrec
          rw [if_pos (by omega)]
          exact hrec
        rw [if_neg hin] at hrec
        rw [if_neg (by omega)]
        exact hrec
    rw [if_neg hle] at h
    cases h
    exact ⟨rfl,by rw [if_neg (by omega)]⟩

theorem delete_loop_endless (warn : Bool) (n : ℕ) (result : Low α × Bool)
    (hn : n % 0x10000 = start % 0x10000) (hlt : n < 2^32) (hend : 0xffff0000+start % 0x10000 ≤ stop) :
    deleteLoop start stop fuel low warn n ≠ .done result := by
  induction fuel generalizing low warn n with
  | zero => simp [deleteLoop]
  | succ fuel ih =>
    rw [deleteLoop, if_pos (by omega)]
    simp only
    split
    · exact ih _ _ _ (by omega) (by omega)
    · exact ih _ _ _ (by omega) (by omega)

theorem delete_range_spec (hle : start ≤ stop) (hlt : stop < 2^32)
    (h : ngxHttpGeoDeleteRange low start stop = .done (low', false)) (k : ℕ) :
    if start / 0x10000 ≤ k ∧ k*0x10000+start % 0x10000 ≤ stop then
      ∃ a, low k = some a ∧
        low' k = some (deletePiece a (blockStart start k) (blockEnd stop k) a 0 false).1
    else low' k = low k := by
  by_cases hend : stop < 0xffff0000+start % 0x10000
  · exact (delete_loop_spec start stop _ low low' false start ⟨rfl,Nat.le_refl _⟩ (by omega)
      hend h k).2
  · exact absurd h (delete_loop_endless start stop _ low false start _ rfl (by omega) (by omega))

structure Reference (α : Type*) where
  count : ℕ
  owner : ℕ → Option (Owner α)

def noEntries : Reference α := ⟨0,fun _ => none⟩

/-- The range was added with these bounds, and all of it is still its own. -/
def Intact (ref : Reference α) (start stop : ℕ) : Prop :=
  ∃ w, w.start = start ∧ w.stop = stop ∧ ∀ n, start ≤ n → n ≤ stop → ref.owner n = some w

inductive Entry (α : Type*) where
  | add (start stop : ℕ) (value : α)
  | delete (start stop : ℕ)

open Classical in
noncomputable def refStep (ref : Reference α) : Entry α → Reference α
  | .add start stop value =>
    ⟨ref.count+1,claimed ref.owner start stop (some ⟨ref.count,start,stop,value⟩)⟩
  | .delete start stop =>
    if Intact ref start stop then ⟨ref.count,claimed ref.owner start stop none⟩ else ref

def Succeeds (low low' : Low α) : Entry α → Prop
  | .add start stop value => start ≤ stop ∧ stop < 2^32 ∧
      ngxHttpGeoAddRange low start stop value = .done low'
  | .delete start stop => start ≤ stop ∧ stop < 2^32 ∧
      ngxHttpGeoDeleteRange low start stop = .done (low', false)

/-- An added piece may not come before all ranges of its array. A deletion
finds an intact range that ends in its block not before where it begins, or
finds no range at all. -/
def Careful (low : Low α) (ref : Reference α) : Entry α → Prop
  | .add start stop _ => ∀ k, start / 0x10000 ≤ k → k ≤ stop / 0x10000 → ∀ a, low k = some a →
      a = [] ∨ ∃ r ∈ a, r.start ≤ blockEnd stop k
  | .delete start stop => (Intact ref start stop ∧ start % 0x10000 ≤ stop % 0x10000) ∨
      (¬Intact ref start stop ∧ ∀ k, start / 0x10000 ≤ k → k ≤ stop / 0x10000 → ∀ a,
        low k = some a → ∀ r ∈ a, ¬(blockStart start k = r.start ∧ blockEnd stop k = r.stop))

inductive Reached (allowed : Low α → Reference α → Entry α → Prop) :
    Low α → Reference α → Prop
  | start : Reached allowed (fun _ => none) noEntries
  | step (low low' : Low α) (ref : Reference α) (entry : Entry α) (h : Reached allowed low ref)
      (hentry : allowed low ref entry) (hrun : Succeeds low low' entry) :
      Reached allowed low' (refStep ref entry)

structure Inv (low : Low α) (ref : Reference α) : Prop where
  sound : ∀ k, Sound ((low k).getD []) (fun n => ref.owner (k*0x10000+n))
  known : ∀ n w, ref.owner n = some w → w.serial < ref.count ∧ w.start ≤ n ∧ n ≤ w.stop

variable (owner : ℕ → Option (Owner α))

theorem claimed_block (start stop k n : ℕ) (w : Option (Owner α)) (hn : n ≤ 0xffff)
    (hk : start / 0x10000 ≤ k ∧ k ≤ stop / 0x10000) :
    claimed owner start stop w (k*0x10000+n) =
      claimed (fun n => owner (k*0x10000+n)) (blockStart start k) (blockEnd stop k) w n := by
  obtain ⟨h1,h2⟩ := hk
  have hiff : (start ≤ k*0x10000+n ∧ k*0x10000+n ≤ stop) ↔
      (blockStart start k ≤ n ∧ n ≤ blockEnd stop k) := by
    unfold blockStart blockEnd
    split_ifs <;> omega
  simp only [claimed, hiff]

theorem claimed_elsewhere (start stop k n : ℕ) (w : Option (Owner α)) (hn : n ≤ 0xffff)
    (h : ¬(start / 0x10000 ≤ k ∧ k ≤ stop / 0x10000)) :
    claimed owner start stop w (k*0x10000+n) = owner (k*0x10000+n) :=
  claimed_out _ _ _ _ _ (by omega)

variable (k : ℕ)

theorem block_bounds (hle : start ≤ stop) (hk : start / 0x10000 ≤ k ∧ k ≤ stop / 0x10000) :
    blockStart start k ≤ blockEnd stop k ∧ blockEnd stop k ≤ 0xffff := by
  obtain ⟨h1,h2⟩ := hk
  unfold blockStart blockEnd
  split_ifs <;> omega

theorem sound_add_piece (a' : List (Range α)) (owner : ℕ → Option (Owner α)) (s e : ℕ) (w : Owner α)
    (h : Sound a owner) (hse : s ≤ e) (he : e ≤ 0xffff) (hfresh : ∀ n, owner n ≠ some w)
    (hcareful : a = [] ∨ ∃ r ∈ a, r.start ≤ e) (hadd : addPiece a s e w.value a.length = some a') :
    Sound a' (claimed owner s e (some w)) := by
  rcases add_piece_spec a a' s e w.value a [] (by simp) (by simp) (fun r hr => (h.bounds r hr).1)
    hse hadd with ⟨left,r,right,rfl,hright,hre,hin,rfl⟩ | ⟨hall,rfl⟩
  · exact sound_carve left right r s e w owner h hse he hright hre hin hfresh
  rcases hcareful with rfl | ⟨r,hr,hrs⟩
  · exact sound_first s e w owner h hse he
  · have := hall r hr
    omega

theorem inv_add (ref : Reference α) (start stop : ℕ) (value : α) (h : Inv low ref)
    (hcareful : Careful low ref (.add start stop value))
    (hrun : Succeeds low low' (.add start stop value)) :
    Inv low' (refStep ref (.add start stop value)) := by
  obtain ⟨hle,hlt,hrun⟩ := hrun
  refine ⟨fun k => ?_,?_⟩
  · have hspec := add_range_spec start stop value low low' hle hlt hrun k
    by_cases hk : start / 0x10000 ≤ k ∧ k ≤ stop / 0x10000
    · rw [if_pos hk] at hspec
      obtain ⟨a,ha,hlow⟩ := hspec
      obtain ⟨hse,he⟩ := block_bounds start stop k hle hk
      have hbefore : (low k).getD [] = [] ∨
          ∃ r ∈ (low k).getD [], r.start ≤ blockEnd stop k := by
        cases hl : low k with
        | none => exact Or.inl rfl
        | some b => exact hcareful k hk.1 hk.2 b hl
      have hsound := sound_add_piece _ a _ _ _ ⟨ref.count,start,stop,value⟩ (h.sound k) hse he
        (fun n hn => by
          have := (h.known _ _ hn).1
          simp at this) hbefore ha
      rw [hlow]
      exact sound_congr _ _ _ hsound
        (fun n hn => claimed_block ref.owner start stop k n _ hn hk)
    rw [if_neg hk] at hspec
    rw [hspec]
    exact sound_congr _ _ _ (h.sound k)
      (fun n hn => claimed_elsewhere ref.owner start stop k n _ hn hk)
  · intro n w hn
    simp only [refStep] at hn ⊢
    by_cases hin : start ≤ n ∧ n ≤ stop
    · rw [claimed_in _ _ _ _ _ hin.1 hin.2, Option.some.injEq] at hn
      rw [← hn]
      exact ⟨Nat.lt_succ_self _,hin⟩
    rw [claimed_out _ _ _ _ _ (by omega)] at hn
    obtain ⟨h1,h2⟩ := h.known n w hn
    exact ⟨by omega,h2⟩

variable (s e : ℕ)

theorem sole_range (w : Owner α) (h : Sound a owner) (hse : s ≤ e) (he : e ≤ 0xffff)
    (hall : ∀ n, s ≤ n → n ≤ e → owner n = some w)
    (honly : ∀ n, n ≤ 0xffff → owner n = some w → s ≤ n ∧ n ≤ e) :
    ∃ r ∈ a, s = r.start ∧ e = r.stop := by
  have hs := hall s (Nat.le_refl _) hse
  have hcover : ∃ r ∈ a, r.start ≤ s ∧ s ≤ r.stop := by
    by_contra hno
    have hgap := h.gap s (by omega) (fun r hr hin => hno ⟨r,hr,hin⟩)
    rw [hs] at hgap
    cases hgap
  obtain ⟨r,hr,hin⟩ := hcover
  obtain ⟨hwf,hmax⟩ := h.bounds r hr
  obtain ⟨u,-,hu⟩ := h.owned r hr
  have huw : u = w := by
    have := hu s hin.1 hin.2
    rw [hs, Option.some.injEq] at this
    exact this.symm
  subst huw
  have hstart := honly r.start (by omega) (hu _ (Nat.le_refl _) hwf)
  have hstop := honly r.stop hmax (hu _ hwf (Nat.le_refl _))
  refine ⟨r,hr,by omega,?_⟩
  by_contra hne
  refine h.edge r hr (by omega) ?_
  rw [hall (r.stop+1) (by omega) (by omega), hu _ hwf (Nat.le_refl _)]

theorem inv_delete (ref : Reference α) (start stop : ℕ) (h : Inv low ref)
    (hcareful : Careful low ref (.delete start stop))
    (hrun : Succeeds low low' (.delete start stop)) :
    Inv low' (refStep ref (.delete start stop)) := by
  obtain ⟨hle,hlt,hrun⟩ := hrun
  have hspec := delete_range_spec start stop low low' hle hlt hrun
  rcases hcareful with ⟨hintact,hlow16⟩ | ⟨hintact,hmiss⟩
  · rw [refStep, if_pos hintact]
    obtain ⟨w,hws,hwe,hw⟩ := hintact
    refine ⟨fun k => ?_,?_⟩
    · have hk := hspec k
      by_cases hin : start / 0x10000 ≤ k ∧ k ≤ stop / 0x10000
      · rw [if_pos (by omega)] at hk
        obtain ⟨a,ha,hlow⟩ := hk
        have hsound := h.sound k
        rw [ha, Option.getD_some] at hsound
        obtain ⟨hse,he⟩ := block_bounds start stop k hle hin
        have hblock : ∀ n, n ≤ 0xffff → ((start ≤ k*0x10000+n ∧ k*0x10000+n ≤ stop) ↔
            (blockStart start k ≤ n ∧ n ≤ blockEnd stop k)) := by
          intro n hn
          unfold blockStart blockEnd
          split_ifs <;> omega
        obtain ⟨r,hr,hrs,hre⟩ := sole_range a _ (blockStart start k) (blockEnd stop k) w hsound
          hse he (fun n h1 h2 => by
            have := (hblock n (by omega)).mpr ⟨h1,h2⟩
            exact hw _ this.1 this.2) (fun n hn hown => by
            have := (h.known _ _ hown).2
            rw [hws, hwe] at this
            exact (hblock n hn).mp this)
        rcases delete_piece_spec a [] a (blockStart start k) (blockEnd stop k) false rfl with
          ⟨-,hno⟩ | ⟨pre,x,post,hsplit,hxs,hxe,hgone⟩
        · exact absurd ⟨hrs,hre⟩ (hno r hr)
        simp only [List.length_nil] at hgone
        rw [hlow, hgone, Option.getD_some]
        rw [hsplit] at hsound
        have hremoved := sound_remove pre post x _ hsound
        rw [← hxs, ← hxe] at hremoved
        exact sound_congr _ _ _ hremoved
          (fun n hn => claimed_block ref.owner start stop k n _ hn hin)
      rw [if_neg (by omega)] at hk
      rw [hk]
      exact sound_congr _ _ _ (h.sound k)
        (fun n hn => claimed_elsewhere ref.owner start stop k n _ hn hin)
    · intro n u hn
      simp only at hn ⊢
      by_cases hin : start ≤ n ∧ n ≤ stop
      · rw [claimed_in _ _ _ _ _ hin.1 hin.2] at hn
        cases hn
      · rw [claimed_out _ _ _ _ _ (by omega)] at hn
        exact h.known n u hn
  rw [refStep, if_neg hintact]
  have hsame : low' = low := by
    funext k
    have hk := hspec k
    by_cases hin : start / 0x10000 ≤ k ∧ k*0x10000+start % 0x10000 ≤ stop
    · rw [if_pos hin] at hk
      obtain ⟨a,ha,hlow⟩ := hk
      rcases delete_piece_spec a [] a (blockStart start k) (blockEnd stop k) false rfl with
        ⟨hkept,-⟩ | ⟨pre,x,post,hsplit,hxs,hxe,-⟩
      · simp only [List.length_nil] at hkept
        rw [hlow, hkept, ha]
      · exact absurd ⟨hxs,hxe⟩ (hmiss k hin.1 (by omega) a ha x (by rw [hsplit]; simp))
    · rw [if_neg hin] at hk
      exact hk
  rw [hsame]
  exact h

theorem reached_inv (ref : Reference α) (h : Reached Careful low ref) : Inv low ref := by
  induction h with
  | start =>
    refine ⟨fun k => ⟨List.Pairwise.nil,by simp,by simp,fun n _ _ => rfl,by simp⟩,?_⟩
    intro n w hn
    cases hn
  | step low low' ref entry _ hentry hrun ih =>
    cases entry with
    | add start stop value => exact inv_add low low' ref start stop value ih hentry hrun
    | delete start stop => exact inv_delete low low' ref start stop ih hentry hrun

def Ordered (low : Low α) : Prop :=
  ∀ k a, low k = some a → a.Pairwise (fun r x => r.stop < x.start) ∧ ∀ r ∈ a, r.start ≤ r.stop

def Looked (low : Low α) (ref : Reference α) (default : α) (addr : ℕ) : Prop :=
  ngxHttpGeoRangeVariable (fun k => pack (low k)) default addr =
    some (((ref.owner addr).map Owner.value).getD default)

/-- Every run of careful entries keeps the arrays sorted and disjoint, and the
lookup of an address is the one of the reference exactly when the array of its
block has not been emptied. -/
theorem geo_ranges_law (low : Low α) (ref : Reference α) (h : Reached Careful low ref) :
    Ordered low ∧ ∀ default addr, Looked low ref default addr ↔ low (addr / 0x10000) ≠ some [] := by
  have hinv := reached_inv low ref h
  refine ⟨?_,?_⟩
  · intro k a ha
    have hs := hinv.sound k
    rw [ha, Option.getD_some] at hs
    exact ⟨hs.sorted,fun r hr => (hs.bounds r hr).1⟩
  · intro default addr
    have hs := hinv.sound (addr / 0x10000)
    have hwalk := walk_ranges_owner _ _ hs (addr % 0x10000) (by omega)
    have haddr : addr / 0x10000 * 0x10000+addr % 0x10000 = addr := by omega
    rw [haddr] at hwalk
    unfold Looked ngxHttpGeoRangeVariable
    cases hl : low (addr / 0x10000) with
    | none =>
      rw [hl] at hwalk
      simp only [Option.getD_none, walkRanges] at hwalk
      simp only [hl, pack, ← hwalk]
      simp
    | some a =>
      rw [hl, Option.getD_some] at hwalk
      cases a with
      | nil => simp [hl, pack]
      | cons r a =>
        simp only [hl, pack, hwalk]
        simp

/-- Two growing ranges, of which the second goes on in the next block and the first is deleted. -/
theorem geo_ranges_law_growing : ∃ (low : Low ℕ) (ref : Reference ℕ),
    (low 0 = some [⟨8,65535,9⟩] ∧ low 1 = some [⟨0,3,9⟩]) ∧ Ordered low ∧
      ∀ default addr, Looked low ref default addr ↔ low (addr / 0x10000) ≠ some [] := by
  have hfirst : Reached Careful (Function.update (fun _ => none) 0 (some [⟨1,2,7⟩]) : Low ℕ)
      (refStep noEntries (.add 1 2 7)) :=
    .step _ _ _ (.add 1 2 7) .start (fun _ _ _ _ ha => by cases ha) ⟨by decide,by decide,rfl⟩
  have hsecond : Reached Careful (Function.update (Function.update (Function.update (fun _ => none)
      0 (some [⟨1,2,7⟩])) 0 (some [⟨1,2,7⟩, ⟨8,65535,9⟩])) 1 (some [⟨0,3,9⟩]) : Low ℕ)
      (refStep (refStep noEntries (.add 1 2 7)) (.add 8 0x10003 9)) := by
    refine .step _ _ _ (.add 8 0x10003 9) hfirst (fun k _ _ a ha => ?_) ⟨by decide,by decide,rfl⟩
    obtain rfl | hk := Nat.eq_zero_or_pos k
    · cases ha
      exact Or.inr ⟨_,List.mem_singleton_self _,by decide⟩
    · rw [Function.update_of_ne (by omega)] at ha
      cases ha
  have hintact : Intact (refStep (refStep noEntries (.add 1 2 7)) (.add 8 0x10003 9)) 1 2 := by
    refine ⟨⟨0,1,2,7⟩,rfl,rfl,fun n h1 h2 => ?_⟩
    show claimed (claimed _ _ _ _) _ _ _ n = _
    rw [claimed_out _ _ _ _ _ (by omega), claimed, if_pos ⟨h1,h2⟩]
    rfl
  exact ⟨_,_,⟨rfl,rfl⟩,geo_ranges_law _ _ (.step _ _ _ (.delete 1 2) hsecond
    (Or.inl ⟨hintact,by decide⟩) ⟨by decide,by decide,rfl⟩)⟩

/-- A range that comes before all others of its block is put behind them. -/
theorem smaller_range_appended : ¬∀ (low : Low ℕ) (ref : Reference ℕ),
    Reached (fun _ _ _ => True) low ref →
    Ordered low ∧ ∀ default addr, Looked low ref default addr := by
  intro h
  have hfirst : Reached (fun _ _ _ => True)
      (Function.update (fun _ => none) 0 (some [⟨16,31,1⟩]) : Low ℕ)
      (refStep noEntries (.add 16 31 1)) :=
    .step _ _ _ (.add 16 31 1) .start trivial ⟨by decide,by decide,rfl⟩
  have hsecond : Reached (fun _ _ _ => True)
      (Function.update (Function.update (fun _ => none) 0 (some [⟨16,31,1⟩])) 0
        (some [⟨16,31,1⟩, ⟨0,15,2⟩]) : Low ℕ)
      (refStep (refStep noEntries (.add 16 31 1)) (.add 0 15 2)) :=
    .step _ _ _ (.add 0 15 2) hfirst trivial ⟨by decide,by decide,rfl⟩
  have hsorted := ((h _ _ hsecond).1 0 _ (Function.update_self _ _ _)).1
  simp at hsorted

end Nginx.GeoRangesLaw
