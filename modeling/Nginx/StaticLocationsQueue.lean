import Mathlib.Data.List.Pairwise
import Mathlib.Data.List.TakeWhile
import Nginx.PartingLists
import Nginx.StaticLocations

/-!
# The queue of a level

What the string comparisons of the source say of names, and what sorting a level and
joining its exact and inclusive locations leaves: an entry for each name, in order, with
the locations of that name.
-/

set_option autoImplicit false

namespace Nginx.StaticLocationsQueue
open PartingLists StaticLocations

/-! The comparisons -/

variable (a b : List UInt8)

theorem strcmp_neg : ngxStrcmp b a = -ngxStrcmp a b := by
  induction a generalizing b with
  | nil =>
    cases b with
    | nil => rfl
    | cons y b => simp [ngxStrcmp]
  | cons x a ih =>
    cases b with
    | nil => simp [ngxStrcmp]
    | cons y b =>
      by_cases hxy : x = y
      · subst hxy
        by_cases hx : x = 0
        · simp [ngxStrcmp, hx]
        · simp [ngxStrcmp, hx, ih]
      · simp [ngxStrcmp, hxy, Ne.symm hxy]

theorem toNat_ne {x y : UInt8} (h : x ≠ y) : x.toNat ≠ y.toNat :=
  fun he => h (UInt8.toNat_inj.mp he)

theorem precedes_of_strcmp (h : ngxStrcmp a b < 0) : Precedes a b := by
  induction a generalizing b with
  | nil =>
    cases b with
    | nil => exact absurd h (by decide)
    | cons y b => exact Or.inr ⟨List.nil_prefix,by simp⟩
  | cons x a ih =>
    cases b with
    | nil =>
      simp only [ngxStrcmp] at h
      omega
    | cons y b =>
      rw [ngxStrcmp] at h
      by_cases hxy : x = y
      · rw [if_pos hxy] at h
        by_cases hx : x = 0
        · rw [if_pos hx] at h
          omega
        rw [if_neg hx] at h
        rw [hxy]
        exact precedes_cons _ (ih b h)
      rw [if_neg hxy] at h
      have hlt : x<y := by
        rw [UInt8.lt_iff_toNat_lt]
        omega
      exact Or.inl (Parts.head _ _ hlt)

theorem strcmp_trans (c : List UInt8) (hab : ngxStrcmp a b ≤ 0) (hbc : ngxStrcmp b c ≤ 0) :
    ngxStrcmp a c ≤ 0 ∧ (ngxStrcmp a c = 0 → ngxStrcmp a b = 0 ∧ ngxStrcmp b c = 0) := by
  fun_induction ngxStrcmp a b generalizing c with
  | case1 => exact ⟨hbc,fun h => ⟨rfl,h⟩⟩
  | case2 y b =>
    cases c with
    | nil =>
      have hy : y.toNat = 0 := by
        simp only [ngxStrcmp] at hbc
        omega
      simp [ngxStrcmp, hy]
    | cons z c =>
      by_cases hyz : y = z
      · subst hyz
        simp only [ngxStrcmp, if_true] at hbc ⊢
        refine ⟨by omega,fun h => ⟨h,?_⟩⟩
        have hy : y = 0 := UInt8.toNat_inj.mp (by simpa using h)
        simp [hy]
      have hne := toNat_ne hyz
      simp only [ngxStrcmp, if_neg hyz] at hbc ⊢
      omega
  | case3 x a =>
    have hx : x = 0 := UInt8.toNat_inj.mp (by simpa using hab)
    subst hx
    cases c with
    | nil => simp [ngxStrcmp]
    | cons z c =>
      by_cases hz : 0 = z
      · subst hz
        simp [ngxStrcmp]
      · simp only [ngxStrcmp, if_neg hz] at hbc ⊢
        simp
  | case4 a b =>
    cases c with
    | nil => simp [ngxStrcmp]
    | cons z c =>
      by_cases hz : 0 = z
      · subst hz
        simp [ngxStrcmp]
      · simp only [ngxStrcmp, if_neg hz] at hbc ⊢
        simp
  | case5 a x b hx ih =>
    cases c with
    | nil =>
      simp only [ngxStrcmp] at hbc
      exact absurd (UInt8.toNat_inj.mp (by simpa using hbc)) hx
    | cons z c =>
      by_cases hz : x = z
      · subst hz
        simp only [ngxStrcmp, if_true, if_neg hx] at hbc ⊢
        exact ih c hab hbc
      have hne := toNat_ne hz
      simp only [ngxStrcmp, if_neg hz] at hbc ⊢
      omega
  | case6 x a y b hxy =>
    have hne := toNat_ne hxy
    cases c with
    | nil =>
      simp only [ngxStrcmp] at hbc
      omega
    | cons z c =>
      by_cases hz : y = z
      · subst hz
        simp only [ngxStrcmp, if_neg hxy]
        omega
      have hne' := toNat_ne hz
      simp only [ngxStrcmp, if_neg hz] at hbc
      have hxz : x ≠ z := by
        rintro rfl
        omega
      simp only [ngxStrcmp, if_neg hxz]
      omega

theorem strncmp_front (hne : ngxStrcmp a b ≠ 0) (hl : a.length ≤ b.length) :
    ngxStrncmp a b a.length = 0 ↔ a <+: b := by
  fun_induction ngxStrcmp a b with
  | case1 => exact absurd rfl hne
  | case2 y b => simp [ngxStrncmp]
  | case3 x a => simp at hl
  | case4 a b => exact absurd rfl hne
  | case5 a x b hx ih =>
    simp only [List.length_cons, ngxStrncmp, if_true, if_neg hx, List.cons_prefix_cons,
      true_and]
    exact ih hne (by simpa using hl)
  | case6 x a y b hxy =>
    have h := toNat_ne hxy
    simp only [List.length_cons, ngxStrncmp, if_neg hxy, List.cons_prefix_cons]
    constructor
    · intro h'
      omega
    · exact fun h' => absurd h'.1 hxy

theorem filenameCmp_spec (u s : List UInt8) (n : ℕ) (hn : n = min u.length s.length) :
    (ngxFilenameCmp u s n < 0 → Parts u s) ∧ (0 < ngxFilenameCmp u s n → Parts s u) ∧
      (ngxFilenameCmp u s n = 0 → u <+: s ∨ s <+: u) := by
  fun_induction ngxFilenameCmp u s n with
  | case1 a x b n ih =>
    obtain ⟨h1,h2,h3⟩ := ih (by simp only [List.length_cons] at hn; omega)
    refine ⟨fun h => Parts.tail x (h1 h),fun h => Parts.tail x (h2 h),fun h => ?_⟩
    rcases h3 h with h' | h'
    · exact Or.inl (List.cons_prefix_cons.mpr ⟨rfl,h'⟩)
    · exact Or.inr (List.cons_prefix_cons.mpr ⟨rfl,h'⟩)
  | case2 x a y b n hxy =>
    have hne := toNat_ne hxy
    refine ⟨fun h => Parts.head _ _ ?_,fun h => Parts.head _ _ ?_,fun h => ?_⟩
    · rw [UInt8.lt_iff_toNat_lt]
      omega
    · rw [UInt8.lt_iff_toNat_lt]
      omega
    · omega
  | case3 u s n hc =>
    refine ⟨fun h => absurd h (by omega),fun h => absurd h (by omega),fun _ => ?_⟩
    cases u with
    | nil => exact Or.inl List.nil_prefix
    | cons x u =>
      cases s with
      | nil => exact Or.inr List.nil_prefix
      | cons y s =>
        simp only [List.length_cons] at hn
        exact (hc x u y s (min u.length s.length) rfl rfl (by omega)).elim

/-! Sorting and joining -/

theorem queueSort_sorted {α : Type} (cmp : α → α → ℤ)
    (htot : ∀ a b, cmp a b ≤ 0 ∨ cmp b a ≤ 0)
    (htrans : ∀ a b c, cmp a b ≤ 0 → cmp b c ≤ 0 → cmp a c ≤ 0) (queue : List α) :
    (ngxQueueSort cmp queue).Pairwise (fun a b => cmp a b ≤ 0) ∧
      (ngxQueueSort cmp queue).Perm queue := by
  have hsort : ngxQueueSort cmp queue =
      (queue.reverse.insertionSort fun q prev => cmp prev q ≤ 0).reverse := by
    rw [ngxQueueSort, List.insertionSort, List.foldr_reverse]
  have : Std.Total (fun q prev => cmp prev q ≤ 0) := ⟨fun a b => htot b a⟩
  have : IsTrans α (fun q prev => cmp prev q ≤ 0) :=
    ⟨fun a b c hab hbc => htrans c b a hbc hab⟩
  rw [hsort]
  constructor
  · rw [List.pairwise_reverse]
    exact List.pairwise_insertionSort _ _
  · exact (List.reverse_perm _).trans ((List.perm_insertionSort _ _).trans (List.reverse_perm _))

theorem cmpLocations_nonpos (one two : LocationQueue) :
    ngxHttpCmpLocations one two ≤ 0 ↔ ngxStrcmp one.name two.name ≤ 0 ∧
      (ngxStrcmp one.name two.name = 0 → exactMatch two.conf = true →
        exactMatch one.conf = true) := by
  unfold ngxHttpCmpLocations
  cases exactMatch one.conf <;> cases exactMatch two.conf <;> simp
  split <;> omega

theorem cmpLocations_total (a b : LocationQueue) :
    ngxHttpCmpLocations a b ≤ 0 ∨ ngxHttpCmpLocations b a ≤ 0 := by
  have hneg := strcmp_neg a.name b.name
  simp only [cmpLocations_nonpos, hneg]
  cases exactMatch a.conf <;> cases exactMatch b.conf <;> simp <;> omega

theorem cmpLocations_trans (a b c : LocationQueue) (hab : ngxHttpCmpLocations a b ≤ 0)
    (hbc : ngxHttpCmpLocations b c ≤ 0) : ngxHttpCmpLocations a c ≤ 0 := by
  rw [cmpLocations_nonpos] at hab hbc ⊢
  obtain ⟨h1,h2⟩ := strcmp_trans a.name b.name c.name hab.1 hbc.1
  exact ⟨h1,fun h0 hx => hab.2 (h2 h0).1 (hbc.2 (h2 h0).2 hx)⟩

/-- What an entry of the queue holds of the locations it comes from. -/
structure Queued (locs : List LocConf) (e : LocationQueue) : Prop where
  exact : ∀ c, e.exact = some c → c ∈ locs ∧ c.exactMatch = true ∧ c.name = e.name
  inclusive : ∀ c, e.inclusive = some c → c ∈ locs ∧ c.exactMatch = false ∧ c.name = e.name
  some : e.exact ≠ none ∨ e.inclusive ≠ none

variable {locs : List LocConf}

theorem Queued.exactMatch_conf {e : LocationQueue} (h : Queued locs e) :
    exactMatch e.conf = e.exact.isSome := by
  unfold exactMatch LocationQueue.conf
  cases hx : e.exact with
  | some c => simp [(h.exact c hx).2.1]
  | none =>
    cases hi : e.inclusive with
    | none => simp
    | some c => simp [(h.inclusive c hi).2.1]

theorem Queued.mem_name {e : LocationQueue} (h : Queued locs e) : ∃ c ∈ locs, c.name = e.name := by
  rcases h.some with hx | hi
  · obtain ⟨c,hc⟩ := Option.ne_none_iff_exists'.mp hx
    obtain ⟨h1,_,h3⟩ := h.exact c hc
    exact ⟨c,h1,h3⟩
  obtain ⟨c,hc⟩ := Option.ne_none_iff_exists'.mp hi
  obtain ⟨h1,_,h3⟩ := h.inclusive c hc
  exact ⟨c,h1,h3⟩

def Told (locs : List LocConf) : Prop :=
  ∀ a ∈ locs, ∀ b ∈ locs, ngxStrcmp a.name b.name = 0 → a.name = b.name

theorem addLocation_queued {c : LocConf} (hc : c ∈ locs) : Queued locs (ngxHttpAddLocation c) := by
  unfold ngxHttpAddLocation
  cases hx : c.exactMatch
  · constructor <;> simp +contextual [hc, hx]
  · constructor <;> simp +contextual [hc, hx]

structure Joined (queue es : List LocationQueue) : Prop where
  sorted : es.Pairwise fun a b => ngxStrcmp a.name b.name < 0
  names : ∀ f ∈ es, ∃ e ∈ queue, f.name = e.name
  exact : ∀ e ∈ queue, ∀ c, e.exact = some c → ∃ f ∈ es, f.exact = some c
  inclusive : ∀ e ∈ queue, ∀ c, e.inclusive = some c → ∃ f ∈ es, f.inclusive = some c

theorem join_spec (locs : List LocConf) (ht : Told locs) (lq : LocationQueue)
    (rest es : List LocationQueue) (h : joinFrom lq rest = some es)
    (hs : (lq::rest).Pairwise fun a b => ngxHttpCmpLocations a b ≤ 0)
    (hq : ∀ e ∈ lq::rest, Queued locs e) :
    Joined (lq::rest) es ∧ ∀ e ∈ es, Queued locs e := by
  induction rest generalizing lq es with
  | nil =>
    obtain rfl := Option.some.inj h
    exact ⟨⟨List.pairwise_singleton _ _,fun f hf => ⟨f,hf,rfl⟩,fun e he c hc => ⟨e,he,hc⟩,
      fun e he c hc => ⟨e,he,hc⟩⟩,hq⟩
  | cons lx rest ih =>
    obtain ⟨hlq,hrest⟩ := List.pairwise_cons.mp hs
    have hqq := hq lq List.mem_cons_self
    have hqx := hq lx (by simp)
    have hcmp := (cmpLocations_nonpos lq lx).mp (hlq lx List.mem_cons_self)
    rw [joinFrom] at h
    by_cases h0 : ngxStrcmp lq.name lx.name = 0
    · rw [if_pos h0] at h
      by_cases hdup : (lq.exact.isSome ∧ lx.exact.isSome) ∨
          (lq.inclusive.isSome ∧ lx.inclusive.isSome)
      · rw [if_pos hdup] at h
        cases h
      rw [if_neg hdup] at h
      have hname : lq.name = lx.name := by
        obtain ⟨c,hc,hcn⟩ := hqq.mem_name
        obtain ⟨d,hd,hdn⟩ := hqx.mem_name
        rw [← hcn, ← hdn] at h0 ⊢
        exact ht c hc d hd h0
      have hord := hcmp.2 h0
      rw [hqq.exactMatch_conf, hqx.exactMatch_conf] at hord
      -- the first is the exact one and has nothing inclusive yet
      obtain ⟨hx,hi⟩ : lx.exact = none ∧ lq.inclusive = none := by
        have h1 := hqq.some
        have h2 := hqx.some
        cases hle : lq.exact <;> cases hli : lq.inclusive <;> cases hxe : lx.exact <;>
          cases hxi : lx.inclusive <;> simp_all
      have hlqx : lq.exact ≠ none := hqq.some.resolve_right (not_not.mpr hi)
      have hq' : Queued locs { lq with inclusive := lx.inclusive } := by
        refine ⟨hqq.exact,fun c hc => ?_,Or.inl hlqx⟩
        obtain ⟨h1,h2,h3⟩ := hqx.inclusive c hc
        exact ⟨h1,h2,h3.trans hname.symm⟩
      have hconf : ({ lq with inclusive := lx.inclusive } : LocationQueue).conf =
          lq.conf := by
        obtain ⟨c,hc⟩ := Option.ne_none_iff_exists'.mp hlqx
        simp [LocationQueue.conf, hc]
      have hs' : ({ lq with inclusive := lx.inclusive }::rest).Pairwise
          fun a b => ngxHttpCmpLocations a b ≤ 0 := by
        refine List.pairwise_cons.mpr ⟨fun b hb => ?_,(List.pairwise_cons.mp hrest).2⟩
        have hb' := hlq b (List.mem_cons_of_mem _ hb)
        rw [cmpLocations_nonpos] at hb' ⊢
        rw [hconf]
        exact hb'
      obtain ⟨hj,hes⟩ := ih _ _ h hs' fun e he => by
        rcases List.mem_cons.mp he with rfl | he
        · exact hq'
        · exact hq e (by simp [he])
      refine ⟨⟨hj.sorted,fun f hf => ?_,fun e he c hc => ?_,fun e he c hc => ?_⟩,hes⟩
      · obtain ⟨e,he,hn⟩ := hj.names f hf
        rcases List.mem_cons.mp he with rfl | he
        · exact ⟨lq,List.mem_cons_self,hn⟩
        · exact ⟨e,by simp [he],hn⟩
      · simp only [List.mem_cons] at he
        rcases he with rfl | rfl | he
        · exact hj.exact _ List.mem_cons_self c hc
        · simp [hx] at hc
        · exact hj.exact e (List.mem_cons_of_mem _ he) c hc
      · simp only [List.mem_cons] at he
        rcases he with rfl | rfl | he
        · simp [hi] at hc
        · exact hj.inclusive _ List.mem_cons_self c hc
        · exact hj.inclusive e (List.mem_cons_of_mem _ he) c hc
    rw [if_neg h0] at h
    obtain ⟨es',hj',rfl⟩ := Option.map_eq_some_iff.mp h
    obtain ⟨hj,hes⟩ := ih _ _ hj' hrest fun e he => hq e (List.mem_cons_of_mem _ he)
    have hlt : ∀ e ∈ lx::rest, ngxStrcmp lq.name e.name < 0 := by
      intro e he
      rcases List.mem_cons.mp he with rfl | he
      · have := hcmp.1
        omega
      have h2 := (cmpLocations_nonpos lx e).mp ((List.pairwise_cons.mp hrest).1 e he)
      obtain ⟨h3,h4⟩ := strcmp_trans lq.name lx.name e.name hcmp.1 h2.1
      have : ngxStrcmp lq.name e.name ≠ 0 := fun h => h0 (h4 h).1
      omega
    refine ⟨⟨List.pairwise_cons.mpr ⟨fun f hf => ?_,hj.sorted⟩,fun f hf => ?_,
      fun e he c hc => ?_,fun e he c hc => ?_⟩,fun f hf => ?_⟩
    · obtain ⟨e,he,hn⟩ := hj.names f hf
      rw [hn]
      exact hlt e he
    · rcases List.mem_cons.mp hf with rfl | hf
      · exact ⟨f,List.mem_cons_self,rfl⟩
      · obtain ⟨e,he,hn⟩ := hj.names f hf
        exact ⟨e,List.mem_cons_of_mem _ he,hn⟩
    · rcases List.mem_cons.mp he with rfl | he
      · exact ⟨e,List.mem_cons_self,hc⟩
      · obtain ⟨f,hf,hfc⟩ := hj.exact e he c hc
        exact ⟨f,List.mem_cons_of_mem _ hf,hfc⟩
    · rcases List.mem_cons.mp he with rfl | he
      · exact ⟨e,List.mem_cons_self,hc⟩
      · obtain ⟨f,hf,hfc⟩ := hj.inclusive e he c hc
        exact ⟨f,List.mem_cons_of_mem _ hf,hfc⟩
    · rcases List.mem_cons.mp hf with rfl | hf
      · exact hqq
      · exact hes f hf

structure Level (locs : List LocConf) (es : List LocationQueue) : Prop where
  sorted : es.Pairwise fun a b => ngxStrcmp a.name b.name < 0
  queued : ∀ e ∈ es, Queued locs e
  exact : ∀ c ∈ locs, c.exactMatch = true → ∃ e ∈ es, e.exact = some c
  inclusive : ∀ c ∈ locs, c.exactMatch = false → ∃ e ∈ es, e.inclusive = some c

theorem level_of_join {es : List LocationQueue} (ht : Told locs)
    (h : ngxHttpJoinExactLocations (ngxQueueSort ngxHttpCmpLocations (locs.map ngxHttpAddLocation))
      = some es) : Level locs es := by
  obtain ⟨hs,hp⟩ := queueSort_sorted _ cmpLocations_total cmpLocations_trans
    (locs.map ngxHttpAddLocation)
  have hmem : ∀ e, e ∈ ngxQueueSort ngxHttpCmpLocations (locs.map ngxHttpAddLocation) ↔
      ∃ c ∈ locs, ngxHttpAddLocation c = e := by
    intro e
    rw [hp.mem_iff, List.mem_map]
  cases hq : ngxQueueSort ngxHttpCmpLocations (locs.map ngxHttpAddLocation) with
  | nil =>
    rw [hq] at h hmem
    obtain rfl := Option.some.inj h
    have hno : ∀ c ∈ locs, False := fun c hc => by
      have := (hmem _).mpr ⟨c,hc,rfl⟩
      cases this
    exact ⟨.nil,by simp,fun c hc => (hno c hc).elim,fun c hc => (hno c hc).elim⟩
  | cons lq rest =>
    rw [hq] at h hs hmem
    obtain ⟨hj,hes⟩ := join_spec locs ht lq rest es h hs fun e he => by
      obtain ⟨c,hc,rfl⟩ := (hmem e).mp he
      exact addLocation_queued hc
    refine ⟨hj.sorted,hes,fun c hc hx => ?_,fun c hc hx => ?_⟩
    · exact hj.exact _ ((hmem _).mpr ⟨c,hc,rfl⟩) c (by simp [ngxHttpAddLocation, hx])
    · exact hj.inclusive _ ((hmem _).mpr ⟨c,hc,rfl⟩) c (by simp [ngxHttpAddLocation, hx])

theorem Level.name_inj {es : List LocationQueue} (h : Level locs es) {e f : LocationQueue}
    (he : e ∈ es) (hf : f ∈ es) (hn : e.name = f.name) : e = f := by
  have hpair : es.Pairwise fun a b => a.name ≠ b.name :=
    h.sorted.imp fun hab => precedes_ne (precedes_of_strcmp _ _ hab)
  have : Std.Symm fun a b : LocationQueue => a.name ≠ b.name := ⟨fun _ _ h => h.symm⟩
  by_contra hne
  exact hpair.forall he hf hne hn

end Nginx.StaticLocationsQueue
