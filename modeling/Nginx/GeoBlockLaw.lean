import Nginx.GeoBlock

/-!
# What a geo block answers

After every line the tree holds the networks of the lines, and the arrays hold their ranges with
pointers to values. The end of the directive adds a value for the addresses in no entry; where it
does not, some lookup follows a pointer that leads nowhere.
-/

set_option autoImplicit false

namespace Nginx.GeoBlockLaw
open Nginx.PrefixMap Nginx.CellMove Nginx.RadixTree Nginx.RadixTreeMap Nginx.RadixTreeLaw
open Nginx.GeoRanges Nginx.GeoRangesMap Nginx.GeoRangesLaw Nginx.GeoBlock

/-! ## Ranges in arrays -/

theorem enter_behind (x : Span) (spans : List Span) (h : ∀ r ∈ spans, x.stop < r.start) :
    enter x spans = none := by
  induction spans with
  | nil => rfl
  | cons r rest ih =>
    rw [enter, ih fun y hy => h y (by simp [hy])]
    exact if_pos (h r (by simp))

theorem enter_at (x r : Span) (left right : List Span) (hright : ∀ y ∈ right, x.stop < y.start)
    (hr : r.start ≤ x.stop) : enter x (left++r::right) = some (left++r.around x++right) := by
  induction left with
  | nil =>
    rw [List.nil_append, enter, enter_behind x right hright]
    exact if_neg (not_lt.mpr hr)
  | cons y left ih =>
    rw [List.cons_append, enter, ih]
    rfl

section
variable {α : Type*} {P : α → Prop}

def spanOf (r : Range α) : Span := ⟨r.start,r.stop⟩

def Valued (P : α → Prop) (a : List (Range α)) : Prop := ∀ r ∈ a, r.start ≤ r.stop ∧ P r.value

theorem carve_spans (r : Range α) (s e : ℕ) (v : α) :
    (carve r s e v).map spanOf = (spanOf r).around ⟨s,e⟩ := by
  unfold carve Span.around
  by_cases h1 : r.start < s <;> by_cases h2 : e < r.stop <;> simp [spanOf, h1, h2]

theorem add_piece_held (a a' : List (Range α)) (s e : ℕ) (v : α) (h : Valued P a) (hse : s ≤ e)
    (hv : P v) (hrun : addPiece a s e v a.length = some a') :
    Valued P a' ∧
      a'.map spanOf = (enter ⟨s,e⟩ (a.map spanOf)).getD (a.map spanOf++[⟨s,e⟩]) := by
  rcases add_piece_spec a a' s e v a [] (by simp) (by simp) (fun r hr => (h r hr).1) hse hrun with
    ⟨left,r,right,rfl,hright,hre,-,rfl⟩ | ⟨hall,rfl⟩
  · have hr := h r (by simp)
    refine ⟨fun x hx => ?_,?_⟩
    · rcases (mem_carve left right r x s e v).mp hx with hx | hx | rfl | ⟨h1,rfl⟩ | ⟨h1,rfl⟩
      · exact h x (by simp [hx])
      · exact h x (by simp [hx])
      · exact ⟨hse,hv⟩
      · exact ⟨by simp only; omega,hr.2⟩
      · exact ⟨by simp only; omega,hr.2⟩
    · have hskip : ∀ y ∈ right.map spanOf, e < y.start := fun y hy => by
        obtain ⟨x,hx,rfl⟩ := List.mem_map.mp hy
        exact hright x hx
      have hold : (left++r::right).map spanOf = left.map spanOf++spanOf r::right.map spanOf := by
        rw [List.map_append, List.map_cons]
      rw [hold, enter_at ⟨s,e⟩ (spanOf r) _ _ hskip hre, Option.getD_some, List.map_append,
        List.map_append, carve_spans]
  · refine ⟨fun x hx => ?_,?_⟩
    · rcases List.mem_append.mp hx with hx | hx
      · exact h x hx
      · rw [List.mem_singleton.mp hx]
        exact ⟨hse,hv⟩
    · rw [enter_behind ⟨s,e⟩ (a.map spanOf) fun y hy => ?_, Option.getD_none, List.map_append]
      · rfl
      · obtain ⟨x,hx,rfl⟩ := List.mem_map.mp hy
        exact hall x hx

theorem delete_piece_held (a left rest : List (Range α)) (s e : ℕ) (warn : Bool)
    (ha : a = left++rest) :
    ∃ kept, (deletePiece a s e rest left.length warn).1 = left++kept ∧ kept.Sublist rest ∧
      kept.map spanOf = (rest.map spanOf).erase ⟨s,e⟩ := by
  induction rest generalizing left warn with
  | nil => exact ⟨[],ha,List.Sublist.refl _,rfl⟩
  | cons r rest ih =>
    rw [deletePiece]
    by_cases hm : s = r.start ∧ e = r.stop
    · rw [if_pos hm]
      have hlen : a.length-1-left.length = rest.length := by
        rw [ha, List.length_append, List.length_cons]
        omega
      have hlen' : a.length-1 = left.length+rest.length := by
        rw [ha, List.length_append, List.length_cons]
        omega
      refine ⟨rest,?_,List.sublist_cons_self r rest,?_⟩
      · rw [hlen, hlen', ha]
        exact memmove_close left rest r
      · rw [List.map_cons, show spanOf r = ⟨s,e⟩ by rw [spanOf, hm.1, hm.2], List.erase_cons_head]
    rw [if_neg hm]
    have hnext (w : Bool) : ∃ kept, (deletePiece a s e rest (left.length+1) w).1 = left++kept ∧
        kept.Sublist (r::rest) ∧ kept.map spanOf = ((r::rest).map spanOf).erase ⟨s,e⟩ := by
      obtain ⟨kept,hrun,hsub,hspans⟩ := ih (left++[r]) w (by rw [ha, List.append_assoc]; rfl)
      rw [List.length_append, List.length_singleton] at hrun
      refine ⟨r::kept,by rw [hrun, List.append_assoc]; rfl,hsub.cons_cons r,?_⟩
      have hne : ¬(spanOf r == ⟨s,e⟩) = true := fun he => by
        rw [beq_iff_eq, spanOf, Span.mk.injEq] at he
        exact hm ⟨he.1.symm,he.2.symm⟩
      rw [List.map_cons, List.map_cons, hspans, List.erase_cons_tail hne]
    split_ifs
    · exact hnext warn
    · exact hnext true

/-- The arrays of the blocks, by their ranges -/
def Blocks (P : α → Prop) (low : Low α) (spans : ℕ → Option (List Span)) : Prop :=
  ∀ h, (low h).map (·.map spanOf) = spans h ∧ ∀ a ∈ low h, Valued P a

variable {low low' : Low α} {spans : ℕ → Option (List Span)}

theorem add_range_held (start stop : ℕ) (value : α) (hle : start ≤ stop) (hlt : stop < 2^32)
    (hv : P value) (hl : Blocks P low spans)
    (hrun : ngxHttpGeoAddRange low start stop value = .done low') :
    Blocks P low' fun h => if start / 0x10000 ≤ h ∧ h ≤ stop / 0x10000 then
      some ((enter ⟨blockStart start h,blockEnd stop h⟩ ((spans h).getD [])).getD
        ((spans h).getD []++[⟨blockStart start h,blockEnd stop h⟩])) else spans h := by
  intro h
  have hspec := add_range_spec start stop value low low' hle hlt hrun h
  obtain ⟨hspans,hvalued⟩ := hl h
  dsimp only
  by_cases hin : start / 0x10000 ≤ h ∧ h ≤ stop / 0x10000
  · rw [if_pos hin] at hspec ⊢
    obtain ⟨a,hadd,hlow⟩ := hspec
    have hold : Valued P ((low h).getD []) := by
      cases ha : low h with
      | none => exact nofun
      | some b => exact hvalued b ha
    obtain ⟨hnew,heq⟩ := add_piece_held _ a _ _ value hold (block_bounds start stop h hle hin).1 hv
      hadd
    have hgetD : ((low h).getD []).map spanOf = (spans h).getD [] := by
      rw [← hspans]
      cases low h <;> rfl
    rw [hgetD] at heq
    rw [hlow]
    exact ⟨congrArg some heq,fun b hb => by cases hb; exact hnew⟩
  · rw [if_neg hin] at hspec ⊢
    rw [hspec]
    exact hl h

theorem blocks_put (n : ℕ) (a : List (Range α)) (hl : Blocks P low spans) (ha : Valued P a) :
    Blocks P (Function.update low n (some a)) (Function.update spans n (some (a.map spanOf))) := by
  intro h
  by_cases hk : h = n
  · subst hk
    rw [Function.update_self, Function.update_self]
    exact ⟨rfl,fun b hb => by cases hb; exact ha⟩
  · rw [Function.update_of_ne hk, Function.update_of_ne hk]
    exact hl h

/-- Behind a block, the rest of the loop -/
theorem erased_rest (start stop n : ℕ) (spans1 : Option (List Span))
    (hn : n % 0x10000 = start % 0x10000) (hle : n ≤ stop) (hspans1 : spans1 =
      (spans (n / 0x10000)).map (·.erase ⟨blockStart start (n / 0x10000),blockEnd stop (n / 0x10000)⟩))
    (hl : Blocks P low fun h =>
      if (n+0x10000) / 0x10000 ≤ h ∧ h*0x10000+start % 0x10000 ≤ stop then
        (Function.update spans (n / 0x10000) spans1 h).map
          (·.erase ⟨blockStart start h,blockEnd stop h⟩)
      else Function.update spans (n / 0x10000) spans1 h) :
    Blocks P low fun h => if n / 0x10000 ≤ h ∧ h*0x10000+start % 0x10000 ≤ stop then
      (spans h).map (·.erase ⟨blockStart start h,blockEnd stop h⟩) else spans h := by
  intro h
  have hrest := hl h
  dsimp only at hrest ⊢
  by_cases hk : h = n / 0x10000
  · subst hk
    rw [if_neg (by omega), Function.update_self, hspans1] at hrest
    rw [if_pos (by omega)]
    exact hrest
  · rw [Function.update_of_ne hk] at hrest
    by_cases hin : n / 0x10000 ≤ h ∧ h*0x10000+start % 0x10000 ≤ stop
    · rw [if_pos (by omega)] at hrest
      rw [if_pos hin]
      exact hrest
    · rw [if_neg (by omega)] at hrest
      rw [if_neg hin]
      exact hrest

theorem delete_loop_held (start stop fuel : ℕ) (warn warn' : Bool) (n : ℕ)
    (hn : n % 0x10000 = start % 0x10000 ∧ start ≤ n) (hlt : n < 2^32)
    (hend : stop < 0xffff0000+start % 0x10000) (hl : Blocks P low spans)
    (hrun : deleteLoop start stop fuel low warn n = .done (low', warn')) :
    Blocks P low' fun h => if n / 0x10000 ≤ h ∧ h*0x10000+start % 0x10000 ≤ stop then
      (spans h).map (·.erase ⟨blockStart start h,blockEnd stop h⟩) else spans h := by
  induction fuel generalizing low spans warn n with
  | zero => cases hrun
  | succ fuel ih =>
    rw [deleteLoop] at hrun
    by_cases hle : n ≤ stop
    · rw [if_pos hle] at hrun
      dsimp only at hrun
      rw [show (n+0x10000) % 2^32 = n+0x10000 by omega] at hrun
      obtain ⟨hspans,hvalued⟩ := hl (n / 0x10000)
      cases ha : low (n / 0x10000) with
      | none =>
        rw [ha] at hrun hspans
        have hnone : spans (n / 0x10000) = none := hspans.symm
        refine erased_rest start stop n none hn.1 hle (by rw [hnone]; rfl)
          (ih true (n+0x10000) (by omega) (by omega) ?_ hrun)
        rw [← hnone, Function.update_eq_self]
        exact hl
      | some a =>
        rw [ha] at hrun hspans
        dsimp only at hrun
        rw [piece_start_eq start n (by omega), piece_end_eq stop n hle] at hrun
        obtain ⟨kept,hkept,hsub,herase⟩ := delete_piece_held a [] a
          (blockStart start (n / 0x10000)) (blockEnd stop (n / 0x10000)) warn rfl
        rw [List.nil_append, List.length_nil] at hkept
        rw [hkept] at hrun
        have hput := blocks_put (n / 0x10000) kept hl
          (fun r hr => hvalued a ha r (hsub.subset hr))
        exact erased_rest start stop n _ hn.1 hle (by rw [← hspans, herase]; rfl)
          (ih _ (n+0x10000) (by omega) (by omega) hput hrun)
    · rw [if_neg hle] at hrun
      cases hrun
      intro h
      dsimp only
      rw [if_neg (by omega)]
      exact hl h

theorem delete_range_held (start stop : ℕ) (warn : Bool) (hle : start ≤ stop) (hlt : stop < 2^32)
    (hl : Blocks P low spans) (hrun : ngxHttpGeoDeleteRange low start stop = .done (low', warn)) :
    Blocks P low' fun h => if start / 0x10000 ≤ h ∧ h*0x10000+start % 0x10000 ≤ stop then
      (spans h).map (·.erase ⟨blockStart start h,blockEnd stop h⟩) else spans h := by
  by_cases hend : stop < 0xffff0000+start % 0x10000
  · exact delete_loop_held start stop _ false warn start ⟨rfl,Nat.le_refl _⟩ (by omega) hend hl hrun
  · exact absurd hrun
      (delete_loop_endless start stop _ low false start _ rfl (by omega) (by omega))

theorem walk_found (n : ℕ) (a : List (Range α)) (v : α) (h : walkRanges n a = some v) :
    ∃ range ∈ a, range.start ≤ n ∧ n ≤ range.stop ∧ range.value = v := by
  induction a with
  | nil => cases h
  | cons range a ih =>
    rw [walkRanges] at h
    split at h
    · rename_i hr
      cases h
      exact ⟨range,by simp,hr.1,hr.2,rfl⟩
    · obtain ⟨r,hr,hrest⟩ := ih h
      exact ⟨r,by simp [hr],hrest⟩

end

/-! ## The networks -/

theorem longest_unmatched {α : Type*} (m : Entries Bool α) (addr : Key) (k : ℕ)
    (h : ∀ n, 0 < n → n ≤ k → m (keyPath addr n) = none) :
    longest m (keyPath addr k) = m [] := by
  induction k with
  | zero => rfl
  | succ k ih =>
    rw [keyPath, longest_none _ _ _ (h (k+1) (Nat.succ_pos k) le_rfl)]
    exact ih fun n h0 hn => h n h0 (Nat.le_succ_of_le hn)

theorem delete_any (t t' : Tree) (places : Places) (recycled : List ℕ) (key : Key) (n : ℕ)
    (code : Code) (h : Rep t places recycled) (hn : n ≤ 32)
    (hrun : ngxRadix32treeDelete t key (maskOf n) = .ok (t', code)) :
    ∃ places' recycled', Rep t' places' recycled' ∧
      stored t' places' = put (stored t places) (keyPath key n) none := by
  have hsame : stored t places (keyPath key n) = none →
      stored t places = put (stored t places) (keyPath key n) none := fun hnone => by
    rw [put, ← hnone, Function.update_eq_self]
  by_cases hp : places (keyPath key n) = 0
  · rw [delete_absent t places recycled key n h hn hp] at hrun
    cases hrun
    exact ⟨places,recycled,h,hsame (by simp [stored, hp])⟩
  by_cases hc : ∃ b, places (b::keyPath key n) ≠ 0
  · rcases delete_inner t places recycled key n h hn hp hc with ⟨hnone,hr⟩ | ⟨-,t1,hr,hs,h1⟩
    · rw [hr] at hrun
      cases hrun
      exact ⟨places,recycled,h,hsame hnone⟩
    rw [h1] at hrun
    cases hrun
    exact ⟨places,recycled,hr,hs⟩
  have hc' : ∀ b, places (b::keyPath key n) = 0 := fun b => by
    by_contra hb
    exact hc ⟨b,hb⟩
  cases n with
  | zero =>
    rw [delete_bare_root t places recycled key h hc'] at hrun
    cases hrun
  | succ n =>
    obtain ⟨t1,places',recycled',hr,hs,h1⟩ :=
      delete_leaf t places recycled key n h hn hp hc'
    rw [h1] at hrun
    cases hrun
    exact ⟨places',recycled',hr,hs⟩

/-- The tree of the context holds the places of the values of the networks. -/
def Holds (m : Entries Bool UInt64) (t : Tree) : Prop :=
  ∃ places recycled, Rep t places recycled ∧ stored t places = m

theorem insert_loop_holds (m : Entries Bool UInt64) (key : Key) (n : ℕ) (val : UInt64)
    (hval : val ≠ noValue) (hn : n ≤ 32) (i : ℕ) (t t' : Tree) (h : Holds m t)
    (hrun : insertLoop key (maskOf n) val i t = some t') :
    Holds (put m (keyPath key n) (some val)) t' := by
  induction i generalizing t m with
  | zero => cases hrun
  | succ i ih =>
    obtain ⟨places,recycled,hrep,rfl⟩ := h
    rw [insertLoop] at hrun
    rcases insert_spec t places recycled key n val hrep hn with
      ⟨-,h1⟩ | ⟨-,t1,places',recycled',hrep',hs,h1⟩
    · rw [h1] at hrun
      dsimp only at hrun
      cases hd : ngxRadix32treeDelete t key (maskOf n) with
      | error f =>
        rw [hd] at hrun
        cases hrun
      | ok r =>
        obtain ⟨t2,code⟩ := r
        have hrest : insertLoop key (maskOf n) val i t2 = some t' := by
          rw [hd] at hrun
          cases code with
          | error => cases hrun
          | ok => exact hrun
          | busy => exact hrun
        obtain ⟨places2,recycled2,hrep2,hs2⟩ :=
          delete_any t t2 places recycled key n code hrep hn hd
        have := ih _ t2 ⟨places2,recycled2,hrep2,hs2⟩ hrest
        rwa [put_put] at this
    rw [h1] at hrun
    cases hrun
    rw [if_neg hval] at hs
    exact ⟨places',recycled',hrep',hs⟩

theorem tree_created (headersInPage : ℕ) :
    ∃ t, treeOf headersInPage none = some t ∧ Holds PrefixMap.empty t := by
  obtain ⟨t,places,recycled,hrep,hs,hrun⟩ := create_spec headersInPage (-1)
  exact ⟨t,by rw [treeOf, hrun],places,recycled,hrep,hs⟩

variable (memory : Memory) (headersInPage : ℕ)

def kept (m : Entries Bool (List UInt8)) : Entries Bool UInt64 := fun p => (m p).map memory.place

theorem kept_put (m : Entries Bool (List UInt8)) (path : List Bool) (v : Option (List UInt8)) :
    kept memory (put m path v) = put (kept memory m) path (v.map memory.place) :=
  put_map m memory.place path v

theorem cidr_tree_holds (m : Entries Bool (List UInt8)) (t t' : Tree) (line : Line)
    (hplace : ∀ value ∈ line.value, memory.place value ≠ noValue)
    (h : Holds (kept memory m) t) (hrun : cidrTree memory t line = some t') :
    Holds (kept memory (netStep m line)) t' := by
  cases line with
  | default value =>
    have := insert_loop_holds (kept memory m) 0 0 _ (hplace value rfl) (Nat.zero_le _) 2 t t' h hrun
    rw [netStep, kept_put]
    exact this
  | net key length value =>
    have := insert_loop_holds (kept memory m) key length _ (hplace value rfl) (by omega) 2 t t' h
      hrun
    rw [netStep, kept_put]
    exact this
  | deleteNet key length =>
    rw [cidrTree] at hrun
    split at hrun
    · rename_i t1 code hd
      cases hrun
      obtain ⟨places,recycled,hrep,hs⟩ := h
      obtain ⟨places',recycled',hrep',hs'⟩ :=
        delete_any t t' places recycled key length code hrep (by omega) hd
      refine ⟨places',recycled',hrep',?_⟩
      rw [hs', hs, netStep, kept_put]
      rfl
    · cases hrun
  | ranges => cases hrun
  | range start stop value => cases hrun
  | deleteRange start stop => cases hrun

/-! ## Lines -/

structure Built (lines : List Line) (ctx : Ctx) : Prop where
  valid : ∀ p, ∀ value ∈ nets lines p, memory.text (memory.place value) = some value
  cidr : ctx.ranges = false → ctx.low = none ∧ ctx.default = 0 ∧
    (ctx.tree = none → nets lines = PrefixMap.empty) ∧
    (∀ t ∈ ctx.tree, Holds (kept memory (nets lines)) t) ∧ .ranges ∉ lines
  ranges : ctx.ranges = true → ctx.tree = none ∧ (∀ p, p ≠ [] → nets lines p = none) ∧
    ctx.default = ((defaultOf lines).map memory.place).getD 0 ∧ .ranges ∈ lines
  low : ctx.low.isSome = lines.any Line.isRange
  blocks : Blocks (fun place => (memory.text place).isSome) (ctx.low.getD fun _ => none)
    (held lines)

theorem built_start : Built memory [] zeroCtx where
  valid := fun p value h => by cases h
  cidr := fun _ => ⟨rfl,rfl,fun _ => rfl,fun t ht => (by cases ht),List.not_mem_nil⟩
  ranges := fun h => by cases h
  low := rfl
  blocks := fun h => ⟨rfl,fun a ha => by cases ha⟩

theorem nets_append (lines : List Line) (line : Line) :
    nets (lines++[line]) = netStep (nets lines) line := by
  rw [nets, List.foldl_append]
  rfl

theorem held_append (lines : List Line) (line : Line) :
    held (lines++[line]) = fun h => holdStep h (held lines h) line := by
  funext h
  rw [held, List.foldl_append]
  rfl

theorem held_kept (lines : List Line) (line : Line) (hline : line.isRange = false) :
    (lines++[line]).any Line.isRange = lines.any Line.isRange ∧
      held (lines++[line]) = held lines := by
  rw [List.any_append, held_append]
  cases line with
  | range | deleteRange => cases hline
  | ranges | default | net | deleteNet => exact ⟨by simp [Line.isRange],rfl⟩

theorem valid_step (m : Entries Bool (List UInt8)) (line : Line)
    (hv : ∀ value ∈ line.value, memory.text (memory.place value) = some value)
    (h : ∀ p, ∀ value ∈ m p, memory.text (memory.place value) = some value) :
    ∀ p, ∀ value ∈ netStep m line p, memory.text (memory.place value) = some value := by
  have hput : ∀ path v, (∀ value ∈ v, memory.text (memory.place value) = some value) →
      ∀ p, ∀ value ∈ put m path v p, memory.text (memory.place value) = some value := by
    intro path v hvalid p value hm
    by_cases hp : p = path
    · subst hp
      rw [put, Function.update_self] at hm
      exact hvalid value hm
    · rw [put, Function.update_of_ne hp] at hm
      exact h p value hm
  cases line with
  | default value => exact hput _ _ hv
  | net key length value => exact hput _ _ hv
  | deleteNet key length => exact hput _ _ fun value hm => by cases hm
  | ranges => exact h
  | range start stop value => exact h
  | deleteRange start stop => exact h

theorem range_step (lines : List Line) (ctx ctx' : Ctx) (line : Line)
    (hr : ctx.ranges = true) (hline : line ≠ .ranges)
    (hv : ∀ value ∈ line.value, memory.text (memory.place value) = some value)
    (h : Built memory lines ctx) (hrun : ngxHttpGeoRange memory ctx line = some ctx') :
    Built memory (lines++[line]) ctx' := by
  obtain ⟨htree,hnets,hdefault,hmem⟩ := h.ranges hr
  have hvalid := valid_step memory (nets lines) line hv h.valid
  rw [← nets_append] at hvalid
  have hcidr : ctx.ranges ≠ false := fun hf => by
    rw [hr] at hf
    cases hf
  have hmem' : .ranges ∈ lines++[line] := List.mem_append_left _ hmem
  cases line with
  | default value =>
    cases hrun
    obtain ⟨hany,hheld⟩ := held_kept lines (.default value) rfl
    refine ⟨hvalid,fun hf => absurd hf hcidr,fun _ => ⟨htree,fun p hp => ?_,?_,hmem'⟩,
      h.low.trans hany.symm,by rw [hheld]; exact h.blocks⟩
    · rw [nets_append, netStep, put, Function.update_of_ne hp]
      exact hnets p hp
    · rw [defaultOf, nets_append, netStep, put, Function.update_self]
      rfl
  | range start stop value =>
    rw [ngxHttpGeoRange] at hrun
    split at hrun
    · rename_i hrange
      split at hrun
      · rename_i low hadd
        cases hrun
        have hplace : (memory.text (memory.place value)).isSome := by
          rw [hv value rfl]
          rfl
        refine ⟨hvalid,fun hf => absurd hf hcidr,fun _ => ?_,by simp [Line.isRange],?_⟩
        · rw [defaultOf, nets_append]
          exact ⟨htree,hnets,hdefault,hmem'⟩
        · rw [held_append]
          exact add_range_held start.toNat stop.toNat _ hrange.2.2 stop.isLt hplace h.blocks hadd
      · cases hrun
    · cases hrun
  | deleteRange start stop =>
    rw [ngxHttpGeoRange] at hrun
    split at hrun
    · rename_i hrange
      split at hrun
      · rename_i low warn hdel
        cases hrun
        refine ⟨hvalid,fun hf => absurd hf hcidr,fun _ => ?_,by simp [Line.isRange],?_⟩
        · rw [defaultOf, nets_append]
          exact ⟨htree,hnets,hdefault,hmem'⟩
        · rw [held_append]
          exact delete_range_held start.toNat stop.toNat warn hrange.2.2 stop.isLt h.blocks hdel
      · cases hrun
    · cases hrun
  | ranges => exact absurd rfl hline
  | net key length value => cases hrun
  | deleteNet key length => cases hrun

theorem tree_of (lines : List Line) (ctx : Ctx) (hr : ctx.ranges = false)
    (h : Built memory lines ctx) :
    ∃ t, treeOf headersInPage ctx.tree = some t ∧ Holds (kept memory (nets lines)) t := by
  obtain ⟨-,-,hnone,hsome,-⟩ := h.cidr hr
  cases ht : ctx.tree with
  | none =>
    rw [hnone ht]
    exact tree_created headersInPage
  | some t => exact ⟨t,rfl,hsome t ht⟩

theorem valid_ne_no_value {place : UInt64} {value : List UInt8}
    (hno : memory.text noValue = none) (h : memory.text place = some value) : place ≠ noValue := by
  rintro rfl
  rw [hno] at h
  cases h

theorem line_step (lines : List Line) (ctx ctx' : Ctx) (line : Line)
    (hv : ∀ value ∈ line.value, memory.text (memory.place value) = some value)
    (hno : memory.text noValue = none) (h : Built memory lines ctx)
    (hrun : ngxHttpGeo memory headersInPage ctx line = some ctx') :
    Built memory (lines++[line]) ctx' := by
  have hvalid := valid_step memory (nets lines) line hv h.valid
  rw [← nets_append] at hvalid
  rw [ngxHttpGeo] at hrun
  split at hrun
  · rename_i hline
    subst hline
    split at hrun
    · cases hrun
    rename_i htree
    cases hrun
    rw [Option.not_isSome_iff_eq_none] at htree
    obtain ⟨hany,hheld⟩ := held_kept lines .ranges rfl
    refine ⟨hvalid,fun hf => ?_,fun _ => ?_,h.low.trans hany.symm,by rw [hheld]; exact h.blocks⟩
    · cases hf
    rw [defaultOf, nets_append]
    have hmem : Line.ranges ∈ lines++[.ranges] := by simp
    cases hr : ctx.ranges with
    | true =>
      obtain ⟨-,hnets,hdefault,-⟩ := h.ranges hr
      exact ⟨htree,hnets,hdefault,hmem⟩
    | false =>
      obtain ⟨-,hdefault,hnone,-⟩ := h.cidr hr
      have hsame : netStep (nets lines) .ranges = PrefixMap.empty := hnone htree
      rw [hsame]
      exact ⟨htree,fun _ _ => rfl,hdefault,hmem⟩
  rename_i hline
  split at hrun
  · rename_i hr
    exact range_step memory lines ctx ctx' line hr hline hv h hrun
  · rename_i hr
    rw [Bool.not_eq_true] at hr
    obtain ⟨t,ht,hholds⟩ := tree_of memory headersInPage lines ctx hr h
    rw [ngxHttpGeoCidr, ht, Option.bind_some] at hrun
    obtain ⟨t',hcidr,rfl⟩ := Option.map_eq_some_iff.mp hrun
    have hplace : ∀ value ∈ line.value, memory.place value ≠ noValue :=
      fun value hm => valid_ne_no_value memory hno (hv value hm)
    have hrange : line.isRange = false := by
      cases line with
      | range | deleteRange => cases hcidr
      | ranges | default | net | deleteNet => rfl
    have hnext := cidr_tree_holds memory (nets lines) t t' line hplace hholds hcidr
    obtain ⟨hany,hheld⟩ := held_kept lines line hrange
    obtain ⟨hlow,hdefault,-,-,hmem⟩ := h.cidr hr
    refine ⟨hvalid,fun _ => ⟨hlow,hdefault,fun hn => ?_,fun t1 h1 => ?_,?_⟩,fun hf => ?_,
      h.low.trans hany.symm,by rw [hheld]; exact h.blocks⟩
    · cases hn
    · cases h1
      rw [nets_append]
      exact hnext
    · rw [List.mem_append, List.mem_singleton]
      exact fun hin => hin.elim hmem (fun he => hline he.symm)
    · have hf : ctx.ranges = true := hf
      rw [hr] at hf
      cases hf

theorem parse_built (rest lines : List Line) (ctx ctx' : Ctx)
    (hv : ∀ line ∈ rest, ∀ value ∈ line.value, memory.text (memory.place value) = some value)
    (hno : memory.text noValue = none) (h : Built memory lines ctx)
    (hrun : ngxConfParse memory headersInPage rest ctx = some ctx') :
    Built memory (lines++rest) ctx' := by
  induction rest generalizing lines ctx with
  | nil =>
    cases hrun
    rw [List.append_nil]
    exact h
  | cons line rest ih =>
    rw [ngxConfParse] at hrun
    obtain ⟨ctx1,hline,hrest⟩ := Option.bind_eq_some_iff.mp hrun
    have h1 := line_step memory headersInPage lines ctx ctx1 line (hv line (by simp)) hno h hline
    have := ih (lines++[line]) ctx1 (fun l hl => hv l (by simp [hl])) h1 hrest
    rwa [List.append_assoc] at this

/-! ## Lookups -/

variable {memory headersInPage} {lines : List Line} {ctx : Ctx}

theorem find_holds (m : Entries Bool UInt64) (t : Tree) (key : Key) (h : Holds m t) :
    ngxRadix32treeFind t key = .ok ((longest m (keyPath key 32)).getD noValue) := by
  obtain ⟨places,recycled,hrep,rfl⟩ := h
  exact find_spec t places recycled key hrep

theorem unmatched_default (addr : Key) (value : List UInt8)
    (hvalue : longest (nets lines) (keyPath addr 32) = some value)
    (hm : ¬Matched lines addr) : value = (defaultOf lines).getD [] := by
  have hun := longest_unmatched (nets lines) addr 32 fun n h0 hn => by
    by_contra hne
    exact hm (.inl ⟨n,h0,hn,hne⟩)
  rw [hvalue] at hun
  rw [defaultOf, ← hun]
  rfl

theorem longest_valid (h : Built memory lines ctx) (path : List Bool) (value : List UInt8)
    (hvalue : longest (nets lines) path = some value) :
    memory.text (memory.place value) = some value := by
  obtain ⟨q,-,hq,-⟩ := (longest_eq_some_iff _ _ _).mp hvalue
  exact h.valid q value hq

theorem tree_answers (t : Tree) (hk : memory.text noValue = none) (h : Built memory lines ctx)
    (ht : Holds (kept memory (nets lines)) t) (addr : Key) :
    Answers memory lines (.tree t) addr ↔ Covered lines addr := by
  have hfind := find_holds _ t addr ht
  rw [show longest (kept memory (nets lines)) _ = _ from longest_map _ _ _] at hfind
  rw [Answers, ngxHttpGeoVariable, hfind, Covered]
  cases hl : longest (nets lines) (keyPath addr 32) with
  | none => simp [hk]
  | some value =>
    have hvalid := longest_valid h _ value hl
    refine iff_of_true ⟨value,hvalid,fun hm => ?_⟩ (by simp)
    exact unmatched_default addr value hl hm

theorem null_answers (t : Tree) (hk : memory.text memory.nullValue = some [])
    (h : Built memory lines ctx) (hroot : nets lines [] = none)
    (ht : Holds (put (kept memory (nets lines)) [] (some memory.nullValue)) t) (addr : Key) :
    Answers memory lines (.tree t) addr := by
  have hfind := find_holds _ t addr ht
  have hkept : kept memory (nets lines) [] = none := by
    rw [kept, hroot]
    rfl
  rw [longest_put_root _ _ hkept, Option.getD_some,
    show longest (kept memory (nets lines)) _ = _ from longest_map _ _ _] at hfind
  rw [Answers, ngxHttpGeoVariable, hfind]
  cases hl : longest (nets lines) (keyPath addr 32) with
  | none =>
    refine ⟨[],hk,fun _ => ?_⟩
    rw [defaultOf, hroot]
    rfl
  | some value =>
    exact ⟨value,longest_valid h _ value hl,fun hm => unmatched_default addr value hl hm⟩

theorem stale_block (low : Low UInt64) (default : UInt64) (k : ℕ) (hk : k < 0x10000)
    (hempty : low k = some []) :
    ngxHttpGeoVariable memory (BitVec.ofNat 32 (k*0x10000))
      (.high (fun h => pack (low h)) default) = none := by
  have haddr : (BitVec.ofNat 32 (k*0x10000)).toNat / 0x10000 = k := by
    rw [BitVec.toNat_ofNat]
    omega
  rw [ngxHttpGeoVariable, ngxHttpGeoRangeVariable]
  simp only [haddr, hempty, pack, Option.bind_none]
  cases memory.text default <;> rfl

theorem block_empty (low : Low UInt64) (h : Built memory lines ctx) (hlow : ctx.low = some low)
    (k : ℕ) : low k = some [] ↔ held lines k = some [] := by
  have hspans := (h.blocks k).1
  rw [hlow, Option.getD_some] at hspans
  rw [← hspans]
  cases low k with
  | none => simp
  | some a => simp

theorem ranges_answer (low : Low UInt64) (h : Built memory lines ctx) (hlow : ctx.low = some low)
    (value : List UInt8) (hd : defaultOf lines = some value)
    (hfull : ∀ k < 0x10000, held lines k ≠ some []) (addr : Key) :
    Answers memory lines (.high (fun h => pack (low h)) (memory.place value)) addr := by
  have hvalid := h.valid [] value hd
  rw [Answers, ngxHttpGeoVariable, hvalid, Option.bind_some, ngxHttpGeoRangeVariable, hd,
    Option.getD_some]
  have hblock : addr.toNat / 0x10000 < 0x10000 := by
    have := addr.isLt
    omega
  obtain ⟨hspans,htexts⟩ := h.blocks (addr.toNat / 0x10000)
  rw [hlow, Option.getD_some] at hspans htexts
  rcases ha : low (addr.toNat / 0x10000) with _ | a
  · exact ⟨value,hvalid,fun _ => rfl⟩
  rcases a with _ | ⟨range,a⟩
  · exact absurd ((block_empty low h hlow _).mp ha) (hfull _ hblock)
  dsimp only [pack]
  cases hw : walkRanges (addr.toNat % 0x10000) (range::a) with
  | none => exact ⟨value,hvalid,fun _ => rfl⟩
  | some place =>
    obtain ⟨r,hr,h1,h2,hplace⟩ := walk_found _ _ _ hw
    have htext := (htexts _ ha r hr).2
    rw [hplace] at htext
    obtain ⟨text,ht⟩ := Option.isSome_iff_exists.mp htext
    refine ⟨text,ht,fun hm => absurd (.inr ⟨spanOf r,?_,h1,h2⟩) hm⟩
    rw [← hspans, ha]
    exact List.mem_map_of_mem hr

theorem tree_installed (t : Tree) (m : Entries Bool UInt64) (null : UInt64)
    (hnull : null ≠ noValue) (h : Holds m t) (hm : m [] = none) :
    ∃ t', ngxRadix32treeInsert t 0 0 null = .ok (t', .ok) ∧ Holds (put m [] (some null)) t' := by
  obtain ⟨places,recycled,hrep,rfl⟩ := h
  rcases insert_spec t places recycled 0 0 null hrep (Nat.zero_le _) with
    ⟨hsome,-⟩ | ⟨-,t',places',recycled',hrep',hs,hrun⟩
  · exact absurd hm hsome
  · rw [if_neg hnull] at hs
    exact ⟨t',hrun,places',recycled',hrep',hs⟩

theorem high_installed (hkept : Kept memory lines) (low : Low UInt64) (hlow : ctx.low = some low)
    (h : Built memory lines ctx) :
    (∀ addr, Answers memory lines (.high (fun k => pack (low k)) ctx.default) addr) ↔
      Installed lines := by
  have hr : ctx.ranges = true := by
    by_contra hf
    rw [Bool.not_eq_true] at hf
    rw [(h.cidr hf).1] at hlow
    cases hlow
  obtain ⟨-,-,hdefault,-⟩ := h.ranges hr
  have hany : lines.any Line.isRange = true := by
    rw [← h.low, hlow]
    rfl
  rw [Installed, if_pos hany]
  constructor
  · intro hall
    constructor
    · intro hd
      obtain ⟨value,hv,-⟩ := hall 0
      rw [hd] at hdefault
      rw [ngxHttpGeoVariable, hdefault] at hv
      change (memory.text 0).bind _ = _ at hv
      rw [hkept.null] at hv
      cases hv
    · intro k hk hempty
      obtain ⟨value,hv,-⟩ := hall (BitVec.ofNat 32 (k*0x10000))
      rw [stale_block low ctx.default k hk ((block_empty low h hlow k).mpr hempty)] at hv
      cases hv
  · rintro ⟨hd,hfull⟩ addr
    obtain ⟨value,hvalue⟩ := Option.ne_none_iff_exists'.mp hd
    rw [hvalue] at hdefault
    rw [hdefault]
    exact ranges_answer low h hlow value hvalue hfull addr

theorem held_none (h : Built memory lines ctx) (hlow : ctx.low = none) (k : ℕ) :
    held lines k = none := by
  have hspans := (h.blocks k).1
  rw [hlow] at hspans
  exact hspans.symm

theorem key_path_nonempty (addr : Key) {n : ℕ} (h : 0 < n) : keyPath addr n ≠ [] := by
  rw [← List.length_pos_iff, key_path_length]
  exact h

theorem bare_answers (t : Tree) (hk : memory.text memory.nullValue = some [])
    (h : Built memory lines ctx) (hr : ctx.ranges = true) (hlow : ctx.low = none)
    (ht : Holds (put PrefixMap.empty [] (some memory.nullValue)) t) (addr : Key) :
    Answers memory lines (.tree t) addr ↔ (defaultOf lines).getD [] = [] := by
  obtain ⟨-,hnets,-,-⟩ := h.ranges hr
  have hfind := find_holds _ t addr ht
  rw [longest_put_root _ _ rfl, longest_empty, Option.getD_none, Option.getD_some] at hfind
  have hmatched : ¬Matched lines addr := by
    rintro (⟨n,h0,-,hne⟩ | ⟨x,hx,-⟩)
    · exact hne (hnets _ (key_path_nonempty addr h0))
    · rw [held_none h hlow] at hx
      cases hx
  rw [Answers, ngxHttpGeoVariable, hfind]
  constructor
  · rintro ⟨value,hv,hd⟩
    rw [← hd hmatched]
    exact Option.some.inj (hv.symm.trans hk)
  · intro hd
    exact ⟨[],hk,fun _ => hd.symm⟩

/-- A memory with the texts `a` and `b` and the null value -/
def twoTexts : Memory where
  place value := if value = [97] then 8 else 16
  nullValue := 24
  text place := if place = 8 then some [97] else if place = 16 then some [98]
    else if place = 24 then some [] else none

theorem two_texts_kept (lines : List Line)
    (h : ∀ line ∈ lines, ∀ value ∈ line.value, value = [97] ∨ value = [98]) :
    Kept twoTexts lines where
  place := fun line hl value hv => by
    rcases h line hl value hv with rfl | rfl <;> decide
  null_value := by decide
  null := by decide
  no_value := by decide

/-- A range within another one, its deletion, and a range of several blocks -/
def someRanges : List Line :=
  [.ranges, .range 1 0x40 [97], .range 5 9 [98], .deleteRange 5 9, .range 0x50 0x10002 [98],
    .default [98]]

theorem some_ranges_installed : Installed someRanges := by
  rw [Installed, if_pos (by decide)]
  refine ⟨by decide,fun h hh => ?_⟩
  rcases h with _ | _ | h
  · decide
  · decide
  · have hnone : held someRanges (h+2) = none := by simp [held, someRanges, holdStep]
    rw [hnone]
    exact nofun

end Nginx.GeoBlockLaw
