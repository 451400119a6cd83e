import Nginx.StaticLocationsQueue

/-!
# What the tree of static locations finds

Names that differ either part at a byte or one is a prefix of the other, and the nesting
of the lists turns this into an order: of two locations of one list, with all they own,
the names part, or the earlier one is exact only and has nothing under it. So each
comparison on the way down leaves every location that may decide on one side, and the
walk ends with what a search of the whole level gives.
-/

set_option autoImplicit false

namespace Nginx.StaticLocationsLaw
open PartingLists StaticLocations StaticLocationsQueue

/-! The nesting of the lists -/

def Before (e f : LocationQueue) : Prop :=
  Parts e.name f.name ∨ (e.inclusive = none ∧ e.name <+: f.name ∧ e.name ≠ f.name)

inductive Nested : List Location → Prop where
  | nil : Nested []
  | cons {lq : LocationQueue} {list rest : List Location} : Nested list → Nested rest →
      (∀ e ∈ entries list, lq.name <+: e.name ∧ lq.name ≠ e.name) →
      (lq.inclusive = none → list = []) →
      (∀ e ∈ lq::entries list, ∀ f ∈ entries rest, Before e f) →
      Nested (⟨lq,list⟩::rest)

variable {e f : LocationQueue}

theorem Before.precedes (h : Before e f) : Precedes e.name f.name :=
  h.imp id And.right

theorem Before.parts (h : Before e f) (hi : e.inclusive ≠ none) : Parts e.name f.name :=
  h.resolve_right fun h => hi h.1

theorem goesOn_iff {lq lx : LocationQueue} (h : ngxStrcmp lq.name lx.name < 0) :
    goesOn lq lx = true ↔ lq.name <+: lx.name := by
  have hp := strncmp_front lq.name lx.name (by omega)
  simp only [goesOn, decide_eq_true_eq]
  constructor
  · rintro ⟨hl,h0⟩
    exact (hp hl).mp h0
  · exact fun hpre => ⟨hpre.length_le,(hp hpre.length_le).mpr hpre⟩

theorem parts_behind {lq : LocationQueue} {rest : List LocationQueue}
    (hlq : ∀ f ∈ rest, ngxStrcmp lq.name f.name < 0)
    (hs : rest.Pairwise fun a b => ngxStrcmp a.name b.name < 0) :
    ∀ f ∈ rest.dropWhile (goesOn lq), Parts lq.name f.name := by
  have hsub := rest.dropWhile_sublist (goesOn lq)
  have hhead := List.head?_dropWhile_not (goesOn lq) rest
  have hs' := hs.sublist hsub
  cases hd : rest.dropWhile (goesOn lq) with
  | nil => simp
  | cons x tail =>
    rw [hd] at hsub hhead hs'
    have hx := hlq x (hsub.subset List.mem_cons_self)
    have hxp : Parts lq.name x.name := by
      refine parts_of_precedes (precedes_of_strcmp _ _ hx) ?_
      rw [← goesOn_iff hx]
      simpa using hhead
    intro f hf
    rcases List.mem_cons.mp hf with rfl | hf
    · exact hxp
    · exact parts_precedes hxp (precedes_of_strcmp _ _ ((List.pairwise_cons.mp hs').1 f hf))

theorem create_list (es : List LocationQueue)
    (hs : es.Pairwise fun a b => ngxStrcmp a.name b.name < 0) :
    Nested (ngxHttpCreateLocationsList es) ∧ entries (ngxHttpCreateLocationsList es) = es := by
  fun_induction ngxHttpCreateLocationsList es with
  | case1 => exact ⟨.nil,by simp [entries]⟩
  | case2 lq rest hi ih =>
    obtain ⟨hlq,hrest⟩ := List.pairwise_cons.mp hs
    obtain ⟨hN,hE⟩ := ih hrest
    constructor
    · refine .cons .nil hN (by simp [entries]) (fun _ => rfl) fun e he f hf => ?_
      rw [hE] at hf
      obtain rfl : e = lq := by simpa [entries] using he
      exact (precedes_of_strcmp _ _ (hlq f hf)).imp id fun h => ⟨hi,h⟩
    · simp [entries, hE]
  | case3 lq rest hi ih1 ih2 =>
    obtain ⟨hlq,hrest⟩ := List.pairwise_cons.mp hs
    have htake := rest.takeWhile_sublist (goesOn lq)
    have hdrop := rest.dropWhile_sublist (goesOn lq)
    obtain ⟨hN1,hE1⟩ := ih1 (hrest.sublist htake)
    obtain ⟨hN2,hE2⟩ := ih2 (hrest.sublist hdrop)
    have hin : ∀ e ∈ rest.takeWhile (goesOn lq), lq.name <+: e.name ∧ lq.name ≠ e.name := by
      intro e he
      have hlt := hlq e (htake.subset he)
      exact ⟨(goesOn_iff hlt).mp (List.mem_takeWhile_imp he),
        precedes_ne (precedes_of_strcmp _ _ hlt)⟩
    constructor
    · refine .cons hN1 hN2 (by rwa [hE1]) (fun h => absurd h hi) fun e he f hf => ?_
      rw [hE2] at hf
      have hp := parts_behind hlq hrest f hf
      rcases List.mem_cons.mp he with rfl | he
      · exact Or.inl hp
      · rw [hE1] at he
        exact Or.inl (parts_extend hp (hin e he).1 List.prefix_rfl)
    · simp [entries, hE1, hE2, List.takeWhile_append_dropWhile]

/-- What the nesting says about a location and those on either side of it. -/
structure Around (left list right : List LocationQueue) (m : LocationQueue) : Prop where
  before : ∀ e ∈ left, Before e m
  under : ∀ e ∈ list, m.name <+: e.name ∧ m.name ≠ e.name
  own : m.inclusive = none → list = []
  behind : ∀ e ∈ right, Before m e

theorem nested_split (left right list : List Location) (m : LocationQueue)
    (h : Nested (left++⟨m,list⟩::right)) :
    Nested left ∧ Nested list ∧ Nested right ∧
      Around (entries left) (entries list) (entries right) m := by
  induction left with
  | nil =>
    cases h with
    | cons h1 h2 h3 h4 h5 =>
      refine ⟨.nil,h1,h2,by simp [entries],h3,fun hi => ?_,fun e he => ?_⟩
      · simp [h4 hi, entries]
      · exact h5 m List.mem_cons_self e he
  | cons l left ih =>
    cases h with
    | cons h1 h2 h3 h4 h5 =>
      obtain ⟨hL,hl,hR,ha⟩ := ih h2
      have hE : entries (left++⟨m,list⟩::right) = entries left++entries (⟨m,list⟩::right) :=
        entries_append left _
      have hm : m ∈ entries (left++⟨m,list⟩::right) := by simp [hE, entries]
      refine ⟨.cons h1 hL h3 h4 fun e he f hf => h5 e he f ?_,hl,hR,?_,ha.under,ha.own,ha.behind⟩
      · exact hE ▸ List.mem_append_left _ hf
      · intro e he
        simp only [entries, List.cons_append, List.mem_cons, List.mem_append] at he
        rcases he with rfl | he | he
        · exact h5 e List.mem_cons_self m hm
        · exact h5 e (List.mem_cons_of_mem _ he) m hm
        · exact ha.before e he

theorem not_prefix_of_precedes {a b : List UInt8} (h : Precedes a b) : ¬ b <+: a := by
  rcases h with h | ⟨h,hne⟩
  · exact not_prefix_of_parts' h
  · exact fun h' => hne (h.eq_of_length (le_antisymm h.length_le h'.length_le))

section Sides
variable {left list right : List LocationQueue} {m : LocationQueue}

theorem Around.parts_list (h : Around left list right m) (hf : f ∈ list) : m.inclusive ≠ none := by
  intro hi
  rw [h.own hi] at hf
  cases hf

theorem Around.precedes_behind (h : Around left list right m) (hf : f ∈ right) :
    Precedes m.name f.name :=
  (h.behind f hf).precedes

theorem Around.not_prefix (h : Around left list right m) (he : e ∈ left) (hi : e.inclusive.isSome)
    {a : List UInt8} (ha : m.name <+: a) : ¬ e.name <+: a := by
  have hp := (h.before e he).parts (by rw [Option.isSome_iff_ne_none] at hi; exact hi)
  exact not_prefix_of_parts (parts_extend hp List.prefix_rfl ha)

/-- Each name has at most 255 bytes past `k`, or past an inclusive location it extends. -/
def Fits (k : ℕ) (es : List LocationQueue) : Prop :=
  ∀ e ∈ es, e.name.length ≤ k+255 ∨ ∃ i ∈ es, i.inclusive.isSome ∧ i.name <+: e.name ∧
    i.name ≠ e.name ∧ e.name.length ≤ i.name.length+255

variable {k : ℕ}

theorem fits_root (h : Around left list right m) (hf : Fits k (left++m::list++right)) :
    m.name.length ≤ k+255 := by
  rcases hf m (by simp) with hk | ⟨i,hi,hinc,hpre,hne,_⟩
  · exact hk
  exfalso
  simp only [List.append_assoc, List.cons_append, List.mem_append, List.mem_cons] at hi
  rcases hi with hi | rfl | hi | hi
  · exact h.not_prefix hi hinc List.prefix_rfl hpre
  · exact hne rfl
  · obtain ⟨h1,h2⟩ := h.under i hi
    exact not_prefix_of_precedes (Or.inr ⟨h1,h2⟩) hpre
  · exact not_prefix_of_precedes (h.precedes_behind hi) hpre

theorem fits_left (h : Around left list right m) (hf : Fits k (left++m::list++right)) :
    Fits k left := by
  intro e he
  rcases hf e (by simp [he]) with hk | ⟨i,hi,hinc,hpre,hne,hl⟩
  · exact Or.inl hk
  refine Or.inr ⟨i,?_,hinc,hpre,hne,hl⟩
  have hem := (h.before e he).precedes
  simp only [List.append_assoc, List.cons_append, List.mem_append, List.mem_cons] at hi
  rcases hi with hi | rfl | hi | hi
  · exact hi
  · exact absurd hpre (not_prefix_of_precedes hem)
  · exact absurd hpre (not_prefix_of_precedes (precedes_trans hem (Or.inr (h.under i hi))))
  · exact absurd hpre (not_prefix_of_precedes (precedes_trans hem (h.precedes_behind hi)))

theorem fits_right (h : Around left list right m) (hf : Fits k (left++m::list++right)) :
    Fits k right := by
  intro e he
  rcases hf e (by simp [he]) with hk | ⟨i,hi,hinc,hpre,hne,hl⟩
  · exact Or.inl hk
  refine Or.inr ⟨i,?_,hinc,hpre,hne,hl⟩
  have hsome : i.inclusive ≠ none := Option.isSome_iff_ne_none.mp hinc
  have hme := h.behind e he
  simp only [List.append_assoc, List.cons_append, List.mem_append, List.mem_cons] at hi
  rcases hi with hi | rfl | hi | hi
  · have hp := parts_precedes ((h.before i hi).parts hsome) hme.precedes
    exact absurd hpre (not_prefix_of_parts hp)
  · exact absurd hpre (not_prefix_of_parts (hme.parts hsome))
  · have hp := parts_extend (hme.parts (h.parts_list hi)) (h.under i hi).1 List.prefix_rfl
    exact absurd hpre (not_prefix_of_parts hp)
  · exact hi

theorem fits_list (h : Around left list right m) (hk : k ≤ m.name.length)
    (hf : Fits k (left++m::list++right)) : Fits m.name.length list := by
  intro e he
  rcases hf e (by simp [he]) with hk | ⟨i,hi,hinc,hpre,hne,hl⟩
  · exact Or.inl (by omega)
  simp only [List.append_assoc, List.cons_append, List.mem_append, List.mem_cons] at hi
  rcases hi with hi | rfl | hi | hi
  · exact absurd hpre (h.not_prefix hi hinc (h.under e he).1)
  · exact Or.inl hl
  · exact Or.inr ⟨i,hi,hinc,hpre,hne,hl⟩
  have hp := parts_extend ((h.behind i hi).parts (h.parts_list he)) (h.under e he).1
    List.prefix_rfl
  exact absurd hpre (not_prefix_of_parts' hp)

end Sides

/-! The walk -/

def redirects (e : LocationQueue) : Bool :=
  e.exact.any LocConf.autoRedirect || e.inclusive.any LocConf.autoRedirect

/-- What a search of all locations gives for an URI, where it gives one result. -/
structure Finds (es : List LocationQueue) (uri : List UInt8) (rv res : Rc × Option LocConf) :
    Prop where
  named : ∀ e ∈ es, e.name = uri →
    res = if e.exact.isSome then (.ok, e.exact) else (.again, e.inclusive)
  redirect : (∀ e ∈ es, e.name ≠ uri) →
    ∀ e ∈ es, redirects e = true → (∃ c, e.name = uri++[c]) →
      (∀ d ∈ es, uri <+: d.name → d.name = e.name ∨ Precedes e.name d.name) →
      res = (.done, e.conf)
  inclusive : (∀ e ∈ es, e.name ≠ uri) →
    (∀ e ∈ es, redirects e = true → ∀ c, e.name ≠ uri++[c]) →
    ∀ e ∈ es, e.inclusive.isSome → e.name <+: uri →
      (∀ d ∈ es, d.inclusive.isSome → d.name <+: uri → d.name.length ≤ e.name.length) →
      res = (.again, e.inclusive)
  declined : (∀ e ∈ es, e.name ≠ uri) →
    (∀ e ∈ es, redirects e = true → ∀ c, e.name ≠ uri++[c]) →
    (∀ e ∈ es, e.inclusive.isSome → ¬ e.name <+: uri) → res = rv

def Matters (uri : List UInt8) (e : LocationQueue) : Prop :=
  uri <+: e.name ∨ (e.inclusive.isSome ∧ e.name <+: uri)

theorem not_matters_of_parts {uri : List UInt8} (h : Parts uri e.name ∨ Parts e.name uri) :
    ¬ Matters uri e := by
  rintro (hp | ⟨_,hp⟩) <;> rcases h with h | h
  · exact not_prefix_of_parts h hp
  · exact not_prefix_of_parts' h hp
  · exact not_prefix_of_parts' h hp
  · exact not_prefix_of_parts h hp

theorem Finds.widen {es es' : List LocationQueue} {uri : List UInt8}
    {rv res : Rc × Option LocConf} (h : Finds es uri rv res) (hsub : ∀ e ∈ es, e ∈ es')
    (hm : ∀ e ∈ es', Matters uri e → e ∈ es) : Finds es' uri rv res := by
  have hup : ∀ e ∈ es', uri <+: e.name → e ∈ es := fun e he hp => hm e he (Or.inl hp)
  constructor
  · intro e he hn
    exact h.named e (hup e he (hn ▸ List.prefix_rfl)) hn
  · intro hno e he hr hc hlow
    have he' := hup e he (by obtain ⟨c,hc⟩ := hc; rw [hc]; exact List.prefix_append uri [c])
    exact h.redirect (fun d hd => hno d (hsub d hd)) e he' hr hc
      fun d hd => hlow d (hsub d hd)
  · intro hno hnr e he hi hp hlong
    exact h.inclusive (fun d hd => hno d (hsub d hd)) (fun d hd => hnr d (hsub d hd)) e
      (hm e he (Or.inr ⟨hi,hp⟩)) hi hp fun d hd => hlong d (hsub d hd)
  · intro hno hnr hni
    exact h.declined (fun d hd => hno d (hsub d hd)) (fun d hd => hnr d (hsub d hd))
      fun d hd => hni d (hsub d hd)

section Steps
variable {left list right : List LocationQueue} {m : LocationQueue} {uri : List UInt8}
  {rv res : Rc × Option LocConf}

theorem finds_before (h : Around left list right m) (hp : Parts uri m.name)
    (hf : Finds left uri rv res) : Finds (left++m::list++right) uri rv res := by
  refine hf.widen (by simp +contextual) fun e he hm => ?_
  simp only [List.append_assoc, List.cons_append, List.mem_append, List.mem_cons] at he
  rcases he with he | rfl | he | he
  · exact he
  · exact absurd hm (not_matters_of_parts (Or.inl hp))
  · have hpe := parts_extend hp List.prefix_rfl (h.under e he).1
    exact absurd hm (not_matters_of_parts (Or.inl hpe))
  · have hpe := parts_precedes hp (h.precedes_behind he)
    exact absurd hm (not_matters_of_parts (Or.inl hpe))

theorem before_silent (h : Around left list right m)
    (hu : Parts m.name uri ∨ (m.name <+: uri ∧ m.name ≠ uri)) (he : e ∈ left) :
    ¬ Matters uri e := by
  rcases h.before e he with hp | ⟨hi,hp,hne⟩
  · exact not_matters_of_parts (Or.inr (parts_precedes hp hu))
  rintro (hm | ⟨hm,_⟩)
  · exact not_prefix_of_precedes hu (hm.trans hp)
  · simp [hi] at hm

theorem finds_behind (h : Around left list right m) (hp : Parts m.name uri)
    (hf : Finds right uri rv res) : Finds (left++m::list++right) uri rv res := by
  refine hf.widen (by simp +contextual) fun e he hm => ?_
  simp only [List.append_assoc, List.cons_append, List.mem_append, List.mem_cons] at he
  rcases he with he | rfl | he | he
  · exact absurd hm (before_silent h (Or.inl hp) he)
  · exact absurd hm (not_matters_of_parts (Or.inr hp))
  · have hpe := parts_extend hp (h.under e he).1 List.prefix_rfl
    exact absurd hm (not_matters_of_parts (Or.inr hpe))
  · exact he

theorem finds_exact_only (h : Around left list right m) (hp : m.name <+: uri)
    (hne : m.name ≠ uri) (hi : m.inclusive = none) (hf : Finds right uri rv res) :
    Finds (left++m::list++right) uri rv res := by
  refine hf.widen (by simp +contextual) fun e he hm => ?_
  simp only [h.own hi, List.append_assoc, List.cons_append, List.nil_append,
    List.mem_append, List.mem_cons] at he
  rcases he with he | rfl | he
  · exact absurd hm (before_silent h (Or.inr ⟨hp,hne⟩) he)
  · rcases hm with hm | ⟨hm,_⟩
    · exact absurd hm (not_prefix_of_precedes (Or.inr ⟨hp,hne⟩))
    · simp [hi] at hm
  · exact he

theorem finds_under (h : Around left list right m) (hp : m.name <+: uri)
    (hne : m.name ≠ uri) (hi : m.inclusive.isSome)
    (hf : Finds list uri (.again, m.inclusive) res) :
    Finds (left++m::list++right) uri rv res := by
  have hmu : ¬ uri <+: m.name := not_prefix_of_precedes (Or.inr ⟨hp,hne⟩)
  have hin : Finds (m::list) uri rv res := by
    constructor
    · intro e he hn
      rcases List.mem_cons.mp he with rfl | he
      · exact absurd hn hne
      · exact hf.named e he hn
    · intro hno e he hr hc hlow
      rcases List.mem_cons.mp he with rfl | he
      · obtain ⟨c,hc⟩ := hc
        exact absurd (hc ▸ List.prefix_append uri [c]) hmu
      · exact hf.redirect (fun d hd => hno d (List.mem_cons_of_mem _ hd)) e he hr hc
          fun d hd => hlow d (List.mem_cons_of_mem _ hd)
    · intro hno hnr e he hie hpe hlong
      have hno' := fun d hd => hno d (List.mem_cons_of_mem _ hd)
      have hnr' := fun d hd => hnr d (List.mem_cons_of_mem _ hd)
      rcases List.mem_cons.mp he with rfl | he
      · refine hf.declined hno' hnr' fun d hd hid hpd => ?_
        have hlen := hlong d (List.mem_cons_of_mem _ hd) hid hpd
        obtain ⟨h1,h2⟩ := h.under d hd
        exact h2 (h1.eq_of_length (le_antisymm h1.length_le hlen))
      · exact hf.inclusive hno' hnr' e he hie hpe fun d hd =>
          hlong d (List.mem_cons_of_mem _ hd)
    · intro _ _ hni
      exact absurd hp (hni m List.mem_cons_self hi)
  refine hin.widen (by simp +contextual) fun e he hm => ?_
  rw [List.append_assoc, List.mem_append, List.mem_append] at he
  rcases he with he | he | he
  · exact absurd hm (before_silent h (Or.inr ⟨hp,hne⟩) he)
  · exact he
  have hpe := parts_extend ((h.behind e he).parts (Option.isSome_iff_ne_none.mp hi)) hp
    List.prefix_rfl
  exact absurd hm (not_matters_of_parts (Or.inl hpe))

theorem Around.name_eq (h : Around left list right m) (he : e ∈ left++m::list++right)
    (hn : e.name = m.name) : e = m := by
  simp only [List.append_assoc, List.cons_append, List.mem_append, List.mem_cons] at he
  rcases he with he | he | he | he
  · exact absurd hn (precedes_ne (h.before e he).precedes)
  · exact he
  · exact absurd hn.symm (h.under e he).2
  · exact absurd hn.symm (precedes_ne (h.precedes_behind he))

theorem finds_here (h : Around left list right m) (hu : m.name = uri)
    (hres : res = if m.exact.isSome then (.ok, m.exact) else (.again, m.inclusive)) :
    Finds (left++m::list++right) uri rv res := by
  have hm : m ∈ left++m::list++right := by simp
  constructor
  · intro e he hn
    obtain rfl := h.name_eq he (hn.trans hu.symm)
    exact hres
  · exact fun hno => absurd hu (hno m hm)
  · exact fun hno => absurd hu (hno m hm)
  · exact fun hno => absurd hu (hno m hm)

/-- The URI is a proper prefix of the name: the walk goes left, and a redirect to the name
is the result unless there is something better. -/
theorem finds_near (h : Around left list right m) (hp : uri <+: m.name) (hne : uri ≠ m.name)
    (hf : Finds left uri (if uri.length+1 = m.name.length ∧ redirects m = true
      then (.done, m.conf) else rv) res) : Finds (left++m::list++right) uri rv res := by
  have hm : m ∈ left++m::list++right := by simp
  have hleft : ∀ e ∈ left, e ∈ left++m::list++right := by simp +contextual
  have hbehind : ∀ e ∈ left++m::list++right, e ∉ left → e.name = m.name ∨
      Precedes m.name e.name := by
    intro e he hel
    simp only [List.append_assoc, List.cons_append, List.mem_append, List.mem_cons] at he
    rcases he with he | rfl | he | he
    · exact absurd he hel
    · exact Or.inl rfl
    · exact Or.inr (Or.inr (h.under e he))
    · exact Or.inr (h.precedes_behind he)
  have hum : Precedes uri m.name := Or.inr ⟨hp,hne⟩
  -- an inclusive prefix of the URI would own `m`
  have hnone : ∀ e ∈ left++m::list++right, e.inclusive.isSome → ¬ e.name <+: uri := by
    intro e he hi hpe
    by_cases hel : e ∈ left
    · exact h.not_prefix hel hi List.prefix_rfl (hpe.trans hp)
    rcases hbehind e he hel with hn | hn
    · exact not_prefix_of_precedes hum (hn ▸ hpe)
    · exact not_prefix_of_precedes (precedes_trans hum hn) hpe
  constructor
  · intro e he hn
    by_cases hel : e ∈ left
    · exact hf.named e hel hn
    rcases hbehind e he hel with hn' | hn'
    · exact absurd (hn.symm.trans hn') hne
    · exact absurd hn.symm (precedes_ne (precedes_trans hum hn'))
  · intro hno e he hr hc hlow
    have hno' := fun d hd => hno d (hleft d hd)
    by_cases hel : e ∈ left
    · exact hf.redirect hno' e hel hr hc fun d hd => hlow d (hleft d hd)
    have hem : e = m := by
      rcases hbehind e he hel with hn | hn
      · exact h.name_eq he hn
      rcases hlow m hm hp with hn' | hn'
      · exact absurd hn' (precedes_ne hn)
      · exact absurd rfl (precedes_ne (precedes_trans hn hn'))
    subst hem
    obtain ⟨c,hc⟩ := hc
    rw [if_pos ⟨by simp [hc],hr⟩] at hf
    refine hf.declined hno' (fun d hd _ c' hc' => ?_) fun d hd => hnone d (hleft d hd)
    have hd' := (h.before d hd).precedes
    rcases hlow d (hleft d hd) (hc' ▸ List.prefix_append uri [c']) with hn | hn
    · exact precedes_ne hd' hn
    · exact precedes_ne (precedes_trans hd' hn) rfl
  · intro _ _ e he hi hpe
    exact absurd hpe (hnone e he hi)
  · intro hno hnr hni
    have hnm : ¬ (uri.length+1 = m.name.length ∧ redirects m = true) := by
      rintro ⟨hl,hr⟩
      obtain ⟨x,hx⟩ := hp
      have hx1 : x.length = 1 := by
        rw [← hx, List.length_append] at hl
        omega
      obtain ⟨c,rfl⟩ := List.length_eq_one_iff.mp hx1
      exact hnr m hm hr c hx.symm
    rw [if_neg hnm] at hf
    exact hf.declined (fun d hd => hno d (hleft d hd)) (fun d hd => hnr d (hleft d hd))
      fun d hd => hni d (hleft d hd)

end Steps

theorem tree_split (locations left tail list : List Location) (m : LocationQueue) (pre : ℕ)
    (hl : locations.take (locations.length/2) = left)
    (hd : locations.drop (locations.length/2) = ⟨m,list⟩::tail) :
    ngxHttpCreateLocationsTree locations pre =
      .node (ngxHttpCreateLocationsTree left pre) (ngxHttpCreateLocationsTree tail pre)
        (ngxHttpCreateLocationsTree list (pre+(m.name.length-pre))) m.exact m.inclusive
        (redirects m) ((m.name.length-pre) % 256) (m.name.drop pre) := by
  rw [ngxHttpCreateLocationsTree]
  split
  · rename_i h
    rw [h] at hd
    cases hd
  · rename_i lq list' tail' h
    rw [h] at hd
    obtain ⟨h1,rfl⟩ := List.cons.inj hd
    obtain ⟨rfl,rfl⟩ := Location.mk.inj h1
    rw [hl]
    rfl

theorem find_level (locations : List Location) (p u : List UInt8) (rv : Rc × Option LocConf)
    (hN : Nested locations) (hp : ∀ e ∈ entries locations, p <+: e.name)
    (hf : Fits p.length (entries locations)) :
    Finds (entries locations) (p++u) rv (ngxHttpCoreFindStaticLocation u rv
      (ngxHttpCreateLocationsTree locations p.length)) := by
  induction hn : (entries locations).length using Nat.strong_induction_on
    generalizing locations p u rv with
  | _ n ih =>
    cases hd : locations.drop (locations.length/2) with
    | nil =>
      have hnil : locations = [] := by
        have hlen := congrArg List.length hd
        rw [List.length_drop, List.length_nil] at hlen
        exact List.eq_nil_of_length_eq_zero (by omega)
      subst hnil
      have ht : ngxHttpCreateLocationsTree [] p.length = .nil := by
        rw [ngxHttpCreateLocationsTree]
        rfl
      rw [ht]
      constructor <;> simp [entries, ngxHttpCoreFindStaticLocation]
    | cons loc tail =>
      obtain ⟨m,list⟩ := loc
      obtain ⟨left,hl⟩ : ∃ left, locations.take (locations.length/2) = left := ⟨_,rfl⟩
      rw [tree_split locations left tail list m p.length hl hd]
      have hsplit : locations = left++⟨m,list⟩::tail := by
        rw [← hl, ← hd, List.take_append_drop]
      rw [hsplit] at hN hp hf hn ⊢
      clear hd hl hsplit
      obtain ⟨hNl,hNu,hNr,ha⟩ := nested_split left tail list m hN
      have hE : entries (left++⟨m,list⟩::tail) =
          entries left++m::entries list++entries tail := by
        simp [entries_append, entries]
      rw [hE] at hp hf hn ⊢
      simp only [List.length_append, List.length_cons] at hn
      have hpm : p <+: m.name := hp m (by simp)
      obtain ⟨s,hs⟩ := hpm
      have hslen : m.name.length-p.length = s.length := by
        rw [← hs, List.length_append]
        omega
      have hpl : p.length ≤ m.name.length := by
        rw [← hs, List.length_append]
        omega
      have hroot := fits_root ha hf
      have hsub : p.length+(m.name.length-p.length) = m.name.length := by omega
      have hmod : (m.name.length-p.length) % 256 = s.length := by omega
      have hdrop : m.name.drop p.length = s := by rw [← hs, List.drop_left]
      rw [hsub, hmod, hdrop]
      have hL := fun rv => ih (entries left).length (by omega) left p u rv hNl
        (fun e he => hp e (by simp [he])) (fits_left ha hf) rfl
      have hR := ih (entries tail).length (by omega) tail p u rv hNr
        (fun e he => hp e (by simp [he])) (fits_right ha hf) rfl
      have hU := fun u rv => ih (entries list).length (by omega) list m.name u rv hNu
        (fun e he => (ha.under e he).1) (fits_list ha hpl hf) rfl
      obtain ⟨hlt,hgt,heq⟩ := filenameCmp_spec u s
        (if u.length ≤ s.length then u.length else s.length) rfl
      simp only [ngxHttpCoreFindStaticLocation]
      obtain ⟨k,hk⟩ : ∃ k, (if u.length ≤ s.length then u.length else s.length) = k := ⟨_,rfl⟩
      rw [hk] at hlt hgt heq ⊢
      by_cases h0 : ngxFilenameCmp u s k = 0
      · rw [if_neg (not_not.mpr h0)]
        by_cases hgt : u.length > s.length
        · -- the name is a proper prefix
          have hsu : s <+: u := by
            rcases heq h0 with h | h
            · have := h.length_le
              omega
            · exact h
          have hmu : m.name <+: p++u := by
            rw [← hs]
            exact (List.prefix_append_right_inj p).mpr hsu
          have hne : m.name ≠ p++u := by
            intro h
            have hlen := congrArg List.length h
            rw [← hs, List.length_append, List.length_append] at hlen
            omega
          rw [if_pos hgt]
          by_cases hi : m.inclusive.isSome = true
          · rw [if_pos hi]
            have hks : k = s.length := by rw [← hk, if_neg (by omega)]
            have hu : m.name++u.drop k = p++u := by
              obtain ⟨x,rfl⟩ := hsu
              rw [hks, List.drop_left, ← hs, List.append_assoc]
            have h := hU (u.drop k) (.again, m.inclusive)
            rw [hu] at h
            exact finds_under ha hmu hne hi h
          · rw [if_neg hi]
            exact finds_exact_only ha hmu hne (by simpa using hi) hR
        rw [if_neg hgt]
        have hus : u <+: s := by
          rcases heq h0 with h | h
          · exact h
          · have := h.length_le
            rw [h.eq_of_length (by omega)]
        by_cases he : u.length = s.length
        · have hu : m.name = p++u := by rw [← hs, hus.eq_of_length he]
          rw [if_pos he]
          exact finds_here ha hu rfl
        rw [if_neg he]
        have hum : p++u <+: m.name := by
          rw [← hs]
          exact (List.prefix_append_right_inj p).mpr hus
        have hlen : (p++u).length+1 = m.name.length ↔ u.length+1 = s.length := by
          rw [← hs, List.length_append, List.length_append]
          omega
        have hne : p++u ≠ m.name := by
          intro h
          have hlen := congrArg List.length h
          rw [← hs, List.length_append, List.length_append] at hlen
          omega
        refine finds_near ha hum hne ?_
        simp only [hlen]
        by_cases hr : u.length+1 = s.length ∧ redirects m = true
        · rw [if_pos hr, if_pos hr]
          exact hL _
        · rw [if_neg hr, if_neg hr]
          exact hL _
      rw [if_pos h0]
      have hpar : ∀ a b : List UInt8, Parts a b → Parts (p++a) (p++b) :=
        fun a b => (parts_append_left_iff p a b).mpr
      by_cases hneg : ngxFilenameCmp u s k < 0
      · rw [if_pos hneg]
        exact finds_before ha (hs ▸ hpar u s (hlt hneg)) (hL rv)
      · rw [if_neg hneg]
        exact finds_behind ha (hs ▸ hpar s u (hgt (by omega))) hR

/-! The level as configured -/

/-- What a request for `uri` gets, where the level decides it: an exact location, else an
inclusive one of just this name, else a redirect, else the longest inclusive prefix. -/
structure FindsStatic (locs : List LocConf) (uri : List UInt8) (res : Rc × Option LocConf) :
    Prop where
  exact : ∀ c ∈ locs, c.exactMatch = true → c.name = uri → res = (.ok, some c)
  inclusive : (∀ c ∈ locs, c.exactMatch = true → c.name ≠ uri) →
    ∀ c ∈ locs, c.name = uri → res = (.again, some c)
  redirect : (∀ c ∈ locs, c.name ≠ uri) →
    ∀ c ∈ locs, c.autoRedirect = true → (∃ x, c.name = uri++[x]) →
      (∀ d ∈ locs, uri <+: d.name → d.name = c.name ∨ Precedes c.name d.name) →
      ∃ d ∈ locs, d.name = c.name ∧ res = (.done, some d) ∧
        (d.exactMatch = true ∨ ∀ d' ∈ locs, d'.exactMatch = true → d'.name ≠ c.name)
  longest : (∀ c ∈ locs, c.name ≠ uri) →
    (∀ c ∈ locs, c.autoRedirect = true → ∀ x, c.name ≠ uri++[x]) →
    ∀ c ∈ locs, c.exactMatch = false → c.name <+: uri →
      (∀ d ∈ locs, d.exactMatch = false → d.name <+: uri →
        d.name.length ≤ c.name.length) → res = (.again, some c)
  declined : (∀ c ∈ locs, c.name ≠ uri) →
    (∀ c ∈ locs, c.autoRedirect = true → ∀ x, c.name ≠ uri++[x]) →
    (∀ c ∈ locs, c.exactMatch = false → ¬ c.name <+: uri) → res = (.declined, none)

/-- Each name has at most 255 bytes, or at most 255 past an inclusive location's name that
it extends. -/
def NamesFit (locs : List LocConf) : Prop :=
  ∀ c ∈ locs, c.name.length ≤ 255 ∨ ∃ i ∈ locs, i.exactMatch = false ∧ i.name <+: c.name ∧
    i.name ≠ c.name ∧ c.name.length ≤ i.name.length+255

variable {es : List LocationQueue}

theorem level_fits {locs : List LocConf} (h : Level locs es) (hf : NamesFit locs) : Fits 0 es := by
  intro e he
  obtain ⟨c,hc,hn⟩ := (h.queued e he).mem_name
  rw [← hn]
  rcases hf c hc with hl | ⟨i,hi,hx,hp,hne,hl⟩
  · exact Or.inl (by omega)
  obtain ⟨f,hf,hfi⟩ := h.inclusive i hi hx
  have hfn := ((h.queued f hf).inclusive i hfi).2.2
  refine Or.inr ⟨f,hf,by simp [hfi],?_⟩
  rw [← hfn]
  exact ⟨hp,hne,hl⟩

theorem redirects_iff {locs : List LocConf} (h : Level locs es) (he : e ∈ es)
    (hr : redirects e = true) : ∃ c ∈ locs, c.autoRedirect = true ∧ c.name = e.name := by
  simp only [redirects, Bool.or_eq_true, Option.any_eq_true] at hr
  rcases hr with ⟨c,hc,ha⟩ | ⟨c,hc,ha⟩
  · obtain ⟨h1,_,h3⟩ := (h.queued e he).exact c hc
    exact ⟨c,h1,ha,h3⟩
  · obtain ⟨h1,_,h3⟩ := (h.queued e he).inclusive c hc
    exact ⟨c,h1,ha,h3⟩

theorem finds_configured {locs : List LocConf} (h : Level locs es) (uri : List UInt8)
    (res : Rc × Option LocConf) (hf : Finds es uri (.declined, none) res) :
    FindsStatic locs uri res := by
  have hno : (∀ c ∈ locs, c.name ≠ uri) → ∀ e ∈ es, e.name ≠ uri := by
    intro hc e he hn
    obtain ⟨c,hcl,hcn⟩ := (h.queued e he).mem_name
    exact hc c hcl (hcn.trans hn)
  have hnr : (∀ c ∈ locs, c.autoRedirect = true → ∀ x, c.name ≠ uri++[x]) →
      ∀ e ∈ es, redirects e = true → ∀ x, e.name ≠ uri++[x] := by
    intro hc e he hr x hx
    obtain ⟨c,hcl,hca,hcn⟩ := redirects_iff h he hr
    exact hc c hcl hca x (hcn.trans hx)
  constructor
  · intro c hc hx hn
    obtain ⟨e,he,hec⟩ := h.exact c hc hx
    have hen := ((h.queued e he).exact c hec).2.2
    rw [hf.named e he (hen.symm.trans hn), hec]
    rfl
  · intro hnx c hc hn
    have hx : c.exactMatch = false := by
      cases hx : c.exactMatch with
      | false => rfl
      | true => exact absurd hn (hnx c hc hx)
    obtain ⟨e,he,hec⟩ := h.inclusive c hc hx
    have hen := ((h.queued e he).inclusive c hec).2.2.symm.trans hn
    have hee : e.exact = none := by
      cases hee : e.exact with
      | none => rfl
      | some d =>
        obtain ⟨h1,h2,h3⟩ := (h.queued e he).exact d hee
        exact absurd (h3.trans hen) (hnx d h1 h2)
    rw [hf.named e he hen, hee, hec]
    rfl
  · intro hnn c hc ha hcx hlow
    obtain ⟨e,he,hen,her⟩ : ∃ e ∈ es, e.name = c.name ∧ redirects e = true := by
      cases hx : c.exactMatch with
      | true =>
        obtain ⟨e,he,hec⟩ := h.exact c hc hx
        exact ⟨e,he,((h.queued e he).exact c hec).2.2.symm,by simp [redirects, hec, ha]⟩
      | false =>
        obtain ⟨e,he,hec⟩ := h.inclusive c hc hx
        exact ⟨e,he,((h.queued e he).inclusive c hec).2.2.symm,by simp [redirects, hec, ha]⟩
    have hres := hf.redirect (hno hnn) e he her (by rwa [hen]) fun d hd hp => by
      obtain ⟨c',hc',hcn'⟩ := (h.queued d hd).mem_name
      rw [← hcn', hen]
      exact hlow c' hc' (by rwa [hcn'])
    rw [hres]
    cases hee : e.exact with
    | some d =>
      obtain ⟨h1,h2,h3⟩ := (h.queued e he).exact d hee
      exact ⟨d,h1,h3.trans hen,by simp [LocationQueue.conf, hee],Or.inl h2⟩
    | none =>
      obtain ⟨d,hed⟩ := Option.ne_none_iff_exists'.mp
        ((h.queued e he).some.resolve_left (not_not.mpr hee))
      obtain ⟨h1,_,h3⟩ := (h.queued e he).inclusive d hed
      refine ⟨d,h1,h3.trans hen,by simp [LocationQueue.conf, hee, hed],Or.inr ?_⟩
      -- an exact location of the name would have an entry of its own
      intro d' hd' hx' hn'
      obtain ⟨f,hfe,hfd⟩ := h.exact d' hd' hx'
      have hfn := ((h.queued f hfe).exact d' hfd).2.2
      have hef : e = f := h.name_inj he hfe (hen.trans (hn'.symm.trans hfn))
      rw [hef, hfd] at hee
      cases hee
  · intro hnn hna c hc hx hp hlong
    obtain ⟨e,he,hec⟩ := h.inclusive c hc hx
    have hen := ((h.queued e he).inclusive c hec).2.2
    rw [← hec]
    refine hf.inclusive (hno hnn) (hnr hna) e he (by simp [hec]) (hen ▸ hp) ?_
    intro d hd hdi hdp
    obtain ⟨c',hc'⟩ := Option.isSome_iff_exists.mp hdi
    obtain ⟨h1,h2,h3⟩ := (h.queued d hd).inclusive c' hc'
    rw [← hen, ← h3]
    exact hlong c' h1 h2 (h3 ▸ hdp)
  · intro hnn hna hni
    refine hf.declined (hno hnn) (hnr hna) fun e he hi hp => ?_
    obtain ⟨c,hc⟩ := Option.isSome_iff_exists.mp hi
    obtain ⟨h1,h2,h3⟩ := (h.queued e he).inclusive c hc
    exact hni c h1 h2 (h3 ▸ hp)

/-- The lookup in the tree of a level gives an URI the location that the level as configured
gives it. -/
theorem static_location (locs : List LocConf) (tree : LocationTreeNode)
    (h : staticLocations locs = some tree) (ht : Told locs) (hf : NamesFit locs)
    (uri : List UInt8) :
    FindsStatic locs uri (ngxHttpCoreFindStaticLocation uri (.declined, none) tree) := by
  obtain ⟨es,hj,rfl⟩ := Option.map_eq_some_iff.mp h
  have hl := level_of_join ht hj
  obtain ⟨hN,hE⟩ := create_list es hl.sorted
  have hfind := find_level (ngxHttpCreateLocationsList es) [] uri (.declined, none) hN
    (fun e _ => List.nil_prefix) (by rw [hE]; exact level_fits hl hf)
  rw [hE] at hfind
  exact finds_configured hl uri _ hfind

def foo : LocConf := ⟨[47,102],false,false,1⟩

def fooSlash : LocConf := ⟨[47,102,47],false,true,2⟩

def fooTree : LocationTreeNode :=
  .node .nil .nil (.node .nil .nil .nil none (some fooSlash) true 1 [47]) none (some foo)
    false 2 [47,102]

theorem foo_tree : staticLocations [foo, fooSlash] = some fooTree := by
  have hq : (ngxHttpJoinExactLocations (ngxQueueSort ngxHttpCmpLocations
      ([foo, fooSlash].map ngxHttpAddLocation))) =
      some [⟨none,some foo,[47,102]⟩, ⟨none,some fooSlash,[47,102,47]⟩] := by decide
  have hlist : ngxHttpCreateLocationsList
      [⟨none,some foo,[47,102]⟩, ⟨none,some fooSlash,[47,102,47]⟩] =
      [⟨⟨none,some foo,[47,102]⟩,[⟨⟨none,some fooSlash,[47,102,47]⟩,[]⟩]⟩] := by
    simp [ngxHttpCreateLocationsList, goesOn, ngxStrncmp]
  have htree : ngxHttpCreateLocationsTree
      [⟨⟨none,some foo,[47,102]⟩,[⟨⟨none,some fooSlash,[47,102,47]⟩,[]⟩]⟩] 0 =
      fooTree := by
    have hnil : ∀ pre, ngxHttpCreateLocationsTree [] pre = .nil := by
      intro pre
      rw [ngxHttpCreateLocationsTree]
      rfl
    rw [tree_split _ [] [] [⟨⟨none,some fooSlash,[47,102,47]⟩,[]⟩] _ 0 rfl rfl,
      tree_split [⟨⟨none,some fooSlash,[47,102,47]⟩,[]⟩] [] [] [] _ _ rfl rfl, hnil,
      hnil, hnil]
    rfl
  rw [staticLocations, hq, Option.map_some, hlist, htree]

/-- An inclusive location of just the URI's name comes before a redirect. -/
theorem own_name_first : ¬ ∀ (locs : List LocConf) (tree : LocationTreeNode),
    staticLocations locs = some tree → ∀ uri : List UInt8,
      (∀ c ∈ locs, c.exactMatch = true → c.name ≠ uri) →
      ∀ c ∈ locs, c.autoRedirect = true → (∃ x, c.name = uri++[x]) →
        (ngxHttpCoreFindStaticLocation uri (.declined, none) tree).1 = .done := by
  intro h
  have hd := h [foo, fooSlash] fooTree foo_tree [47,102] (by decide) fooSlash (by simp)
    rfl ⟨47,rfl⟩
  revert hd
  decide

theorem static_location_foo :
    FindsStatic [foo, fooSlash] [47,102,47,97]
      (ngxHttpCoreFindStaticLocation [47,102,47,97] (.declined, none) fooTree) :=
  static_location [foo, fooSlash] fooTree foo_tree (by unfold Told; decide)
    (fun c hc => Or.inl (by revert c; decide)) [47,102,47,97]

end Nginx.StaticLocationsLaw
