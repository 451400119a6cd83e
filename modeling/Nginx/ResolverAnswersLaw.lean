import Nginx.ResolverAnswers

/-!
# The two passes over the answers

A record of an unknown type is left alone by the first pass, which goes on at its
type bytes, and passed over by the second. Up to the last address the passes are in
step just when no such record comes before it.
-/

set_option autoImplicit false

namespace Nginx.ResolverAnswersLaw
open Nginx.ResolverCopy Nginx.ResolverAnswers

section Passes
variable (buf : ℕ → UInt8) (last : ℕ)

def isA (v : Visit) : Bool := v.qtype buf = 1

def seenOf (vs : List Visit) : List ℕ := (vs.filter (isA buf)).map fun v => inAddr buf (v.header+10)

theorem seen_of_cons (v : Visit) (vs : List Visit) : seenOf buf (v::vs) =
    (if v.qtype buf = 1 then [inAddr buf (v.header+10)] else [])++seenOf buf vs := by
  by_cases h : v.qtype buf = 1
  · simp [seenOf, isA, h]
  · simp [seenOf, isA, h]

theorem seen_of_split (v : Visit) (vs : List Visit) :
    seenOf buf (v::vs) = seenOf buf [v]++seenOf buf vs := by
  rw [seen_of_cons, seen_of_cons _ _ []]
  simp [seenOf]

theorem seen_of_here (v : Visit) (vs : List Visit) (h : seenOf buf (v::vs) ≠ [])
    (hvs : seenOf buf vs = []) : v.qtype buf = 1 := by
  by_contra h1
  rw [seen_of_cons, if_neg h1, hvs] at h
  exact h rfl

theorem skip_again (start k i j : ℕ) (h : skipName buf last start k i = .ok j) :
    (∀ fuel r, skipAgain buf fuel i = some r → r.1 = j ∧ ∀ p ∈ r.2, p < last) ∧
      ∀ fuel, k ≤ fuel → ∃ r, skipAgain buf fuel i = some r := by
  induction k generalizing i with
  | zero => cases h
  | succ k ih =>
    rw [skipName] at h
    by_cases hin : i < last
    swap
    · rw [if_neg hin] at h
      cases h
    rw [if_pos hin] at h
    have hone : ∀ p ∈ [i], p < last := fun p hp => (List.mem_singleton.mp hp) ▸ hin
    constructor
    · intro fuel r hr
      rcases fuel with _ | fuel
      · cases hr
      rw [skipAgain] at hr
      by_cases hp : IsPointer (buf i).toNat
      · rw [if_pos hp] at h hr
        cases h
        cases hr
        exact ⟨rfl,hone⟩
      rw [if_neg hp] at h hr
      by_cases hz : buf i = 0
      · rw [if_pos hz] at h hr
        split_ifs at h
        cases h
        cases hr
        exact ⟨rfl,hone⟩
      rw [if_neg hz] at h hr
      obtain ⟨r',hr',rfl⟩ := Option.map_eq_some_iff.mp hr
      obtain ⟨hj,hin'⟩ := (ih _ h).1 fuel r' hr'
      exact ⟨hj,List.forall_mem_cons.mpr ⟨hin,hin'⟩⟩
    · intro fuel hf
      rcases fuel with _ | fuel
      · omega
      rw [skipAgain]
      by_cases hp : IsPointer (buf i).toNat
      · exact ⟨_,if_pos hp⟩
      rw [if_neg hp] at h ⊢
      by_cases hz : buf i = 0
      · exact ⟨_,if_pos hz⟩
      rw [if_neg hz] at h ⊢
      obtain ⟨r',hr'⟩ := (ih _ h).2 fuel (by omega)
      exact ⟨_,by rw [hr']; rfl⟩

theorem first_turn_ok (s s' : First) (h : firstTurn buf last s = .ok s') :
    ∃ j, skipName buf last s.i (last-s.i) s.i = .ok j ∧ j+10 < last ∧
      s'.i = Visit.next buf ⟨s.i,j⟩ ∧ s'.starts = s.starts++[s.i] ∧
      s'.seen = s.seen++seenOf buf [⟨s.i,j⟩] ∧
      s'.naddrs = s.naddrs+(seenOf buf [⟨s.i,j⟩]).length ∧
      s'.addr = (seenOf buf [⟨s.i,j⟩]).getLast?.getD s.addr := by
  rw [firstTurn] at h
  rcases hj : skipName buf last s.i (last-s.i) s.i with e | j
  · rw [hj] at h
    cases h
  rw [hj] at h
  refine ⟨j,rfl,?_⟩
  simp only at h
  by_cases hs : last ≤ j+10
  · rw [if_pos hs] at h
    cases h
  rw [if_neg hs] at h
  rw [seen_of_cons, Visit.next]
  have hq : Visit.qtype buf ⟨s.i,j⟩ = twoBytes buf j := rfl
  simp only [Visit.Known, hq]
  by_cases h1 : twoBytes buf j = 1
  · rw [if_pos h1] at h
    split_ifs at h with hl
    cases h
    rw [if_pos (.inl h1), if_pos h1]
    exact ⟨by omega,rfl,rfl,rfl,rfl,rfl⟩
  rw [if_neg h1] at h
  by_cases h5 : twoBytes buf j = 5
  · rw [if_pos h5] at h
    cases h
    rw [if_pos (.inr (.inl h5)), if_neg h1]
    exact ⟨by omega,rfl,rfl,(List.append_nil _).symm,rfl,rfl⟩
  rw [if_neg h5] at h
  by_cases h39 : twoBytes buf j = 39
  · rw [if_pos h39] at h
    cases h
    rw [if_pos (.inr (.inr h39)), if_neg h1]
    exact ⟨by omega,rfl,rfl,(List.append_nil _).symm,rfl,rfl⟩
  rw [if_neg h39] at h
  cases h
  rw [if_neg (not_or.mpr ⟨h1,not_or.mpr ⟨h5,h39⟩⟩), if_neg h1]
  exact ⟨by omega,rfl,rfl,(List.append_nil _).symm,rfl,rfl⟩

theorem first_pass_cons (nan : ℕ) (s s' : First) (h : firstPass buf last (nan+1) s = .ok s') :
    ∃ t j, firstTurn buf last s = .ok t ∧ firstPass buf last nan t = .ok s' ∧
      skipName buf last s.i (last-s.i) s.i = .ok j ∧ j+10 < last ∧
      t.i = Visit.next buf ⟨s.i,j⟩ ∧
      visits buf last (nan+1) s.i = ⟨s.i,j⟩::visits buf last nan t.i := by
  rw [firstPass] at h
  rcases ht : firstTurn buf last s with e | t
  · rw [ht] at h
    cases h
  rw [ht] at h
  obtain ⟨j,hj,hin,hi,-⟩ := first_turn_ok buf last s t ht
  exact ⟨t,j,rfl,h,hj,hin,hi,by rw [visits, hj, hi]⟩

theorem first_pass_visits (nan : ℕ) (s s' : First) (h : firstPass buf last nan s = .ok s') :
    s'.starts = s.starts++(visits buf last nan s.i).map (·.start) ∧
      s'.seen = s.seen++seenOf buf (visits buf last nan s.i) ∧
      s'.naddrs = s.naddrs+(seenOf buf (visits buf last nan s.i)).length ∧
      s'.addr = (seenOf buf (visits buf last nan s.i)).getLast?.getD s.addr := by
  induction nan generalizing s with
  | zero =>
    cases h
    simp [visits, seenOf]
  | succ nan ih =>
    obtain ⟨t,j,ht,hrest,hj,-,hi,hv⟩ := first_pass_cons buf last nan s s' h
    obtain ⟨j',hj',-,-,hstarts,hseen,hn,haddr⟩ := first_turn_ok buf last s t ht
    rw [hj] at hj'
    cases hj'
    obtain ⟨h1,h2,h3,h4⟩ := ih t hrest
    rw [hv, seen_of_cons]
    rw [seen_of_cons] at hseen hn haddr
    simp only [seenOf, List.filter_nil, List.map_nil, List.append_nil] at hseen hn haddr
    refine ⟨by rw [h1, hstarts]; simp,by rw [h2, hseen, List.append_assoc],?_,?_⟩
    · rw [h3, hn, List.length_append, Nat.add_assoc]
    · rw [h4, haddr, List.getLast?_append]
      cases (seenOf buf (visits buf last nan t.i)).getLast? <;> rfl

def behind (o : Second) (j : ℕ) (rs : List ℕ) : Second :=
  ⟨j+10+twoBytes buf (j+8),o.starts++[o.i],
    o.reads++rs++[j, j+1, j+8, j+9]++if twoBytes buf j = 1 then [j+10, j+11, j+12, j+13] else [],
    o.stored++seenOf buf [⟨o.i,j⟩]⟩

theorem second_turn (fuel naddrs nan : ℕ) (o : Second) (j : ℕ) (rs : List ℕ)
    (h : skipAgain buf fuel o.i = some (j, rs)) :
    secondPass buf fuel naddrs (nan+1) o =
      if twoBytes buf j = 1 ∧ (behind buf o j rs).stored.length = naddrs then
        some { behind buf o j rs with i := o.i }
      else secondPass buf fuel naddrs nan (behind buf o j rs) := by
  rw [secondPass, h, Option.bind_some, behind, seen_of_cons]
  have hq : Visit.qtype buf ⟨o.i,j⟩ = twoBytes buf j := rfl
  simp only [hq]
  by_cases h1 : twoBytes buf j = 1
  · simp only [h1, true_and]
    rfl
  · simp only [h1, false_and, if_false, seenOf, List.filter_nil, List.map_nil,
      List.append_nil]

theorem second_extends (fuel naddrs nan : ℕ) (o o' : Second)
    (h : secondPass buf fuel naddrs nan o = some o') :
    (∀ p ∈ o.reads, p ∈ o'.reads) ∧ o.starts <+: o'.starts ∧
      (nan ≠ 0 → o.starts++[o.i] <+: o'.starts) := by
  induction nan generalizing o with
  | zero =>
    cases h
    exact ⟨fun p hp => hp,List.prefix_rfl,fun h => absurd rfl h⟩
  | succ nan ih =>
    have hsome := h
    rw [secondPass] at hsome
    obtain ⟨⟨j,rs⟩,hr,-⟩ := Option.bind_eq_some_iff.mp hsome
    rw [second_turn buf fuel naddrs nan o j rs hr] at h
    have hreads : ∀ p ∈ o.reads, p ∈ (behind buf o j rs).reads := by
      intro p hp
      simp [behind, hp]
    split_ifs at h
    · cases h
      exact ⟨hreads,List.prefix_append _ _,fun _ => List.prefix_rfl⟩
    · obtain ⟨h1,h2,-⟩ := ih (behind buf o j rs) h
      exact ⟨fun p hp => h1 p (hreads p hp),(List.prefix_append _ _).trans h2,fun _ => h2⟩

theorem seen_of_nil_iff (vs : List Visit) : seenOf buf vs = [] ↔ ∀ v ∈ vs, v.qtype buf ≠ 1 := by
  rw [seenOf, List.map_eq_nil_iff, List.filter_eq_nil_iff]
  simp [isA]

theorem in_step_cons (v : Visit) (vs : List Visit) : InStep buf last (v::vs) ↔
    (¬v.Known buf → seenOf buf vs = []) ∧ (v.qtype buf = 1 → v.header+14 ≤ last) ∧
      InStep buf last vs := by
  rw [seen_of_nil_iff]
  constructor
  · intro h
    exact ⟨fun hk => h.known [] v vs rfl hk,h.whole v (by simp),
      ⟨fun front w rest he => h.known (v::front) w rest (by rw [he]; rfl),
        fun w hw => h.whole w (by simp [hw])⟩⟩
  · rintro ⟨hk,hw,h⟩
    refine ⟨fun front w rest he => ?_,fun w hmem => ?_⟩
    · rcases front with _ | ⟨x,front⟩
      · obtain ⟨rfl,rfl⟩ := List.cons.inj he
        exact hk
      · exact h.known front w rest (List.cons.inj he).2
    · rcases List.mem_cons.mp hmem with rfl | hmem
      · exact hw
      · exact h.whole w hmem

section Step
variable (fuel naddrs nan : ℕ) (s s' : First) (o : Second) (hfirst : firstPass buf last nan s = .ok s')
  (hi : o.i = s.i) (hn : naddrs = o.stored.length+(seenOf buf (visits buf last nan s.i)).length)
  (hpos : seenOf buf (visits buf last nan s.i) ≠ [])
include hfirst hi hn hpos

theorem second_in_step (hfuel : last ≤ fuel) (h : InStep buf last (visits buf last nan s.i)) :
    ∃ o', secondPass buf fuel naddrs nan o = some o' ∧
      o'.starts <+: o.starts++(visits buf last nan s.i).map (·.start) ∧
      o'.stored = o.stored++seenOf buf (visits buf last nan s.i) ∧
      ∀ p ∈ o'.reads, p ∈ o.reads ∨ p < last := by
  induction nan generalizing s o with
  | zero => exact absurd rfl hpos
  | succ nan ih =>
    obtain ⟨t,j,ht,hrest,hj,hin,htnext,hv⟩ := first_pass_cons buf last nan s s' hfirst
    obtain ⟨hread,hsome⟩ := skip_again buf last _ _ _ _ hj
    obtain ⟨⟨j',rs⟩,hr⟩ := hsome fuel (by omega)
    obtain ⟨rfl,hrs⟩ := hread fuel _ hr
    rw [← hi] at hr
    rw [hv] at h hn hpos ⊢
    obtain ⟨hknown,hwhole,htail⟩ := (in_step_cons buf last _ _).mp h
    rw [second_turn buf fuel naddrs nan o _ rs hr]
    have hstored : (behind buf o j' rs).stored = o.stored++seenOf buf [⟨s.i,j'⟩] := by
      rw [behind, hi]
    have hreads : ∀ p ∈ (behind buf o j' rs).reads, p ∈ o.reads ∨ p < last := by
      intro p hp
      simp only [behind, List.mem_append] at hp
      rcases hp with ((hp | hp) | hp) | hp
      · exact .inl hp
      · exact .inr (hrs p hp)
      · refine .inr ?_
        simp only [List.mem_cons, List.not_mem_nil, or_false] at hp
        simp only at hin
        omega
      split_ifs at hp with h1
      · have hend : j'+14 ≤ last := hwhole h1
        refine .inr ?_
        simp only [List.mem_cons, List.not_mem_nil, or_false] at hp
        omega
      · cases hp
    have hsplit := seen_of_split buf ⟨s.i,j'⟩ (visits buf last nan t.i)
    rw [hsplit, List.length_append, ← Nat.add_assoc, ← List.length_append, ← hstored] at hn
    by_cases hlast : seenOf buf (visits buf last nan t.i) = []
    · have h1 : twoBytes buf j' = 1 := seen_of_here buf ⟨s.i,j'⟩ _ hpos hlast
      rw [hlast, List.length_nil, Nat.add_zero] at hn
      rw [if_pos ⟨h1,hn.symm⟩]
      refine ⟨_,rfl,?_,?_,hreads⟩
      · rw [List.map_cons]
        simp only [behind, hi]
        exact (List.prefix_append_right_inj _).mpr (List.prefix_append [s.i] _)
      · rw [hsplit, hlast, List.append_nil]
        exact hstored
    have hne : ¬(twoBytes buf j' = 1 ∧ (behind buf o j' rs).stored.length = naddrs) := by
      rintro ⟨-,hlen⟩
      have := List.length_pos_iff.mpr hlast
      omega
    have hk : Visit.Known buf ⟨s.i,j'⟩ := by
      by_contra hk
      exact hlast (hknown hk)
    have hnext : (behind buf o j' rs).i = t.i := by
      rw [htnext, Visit.next, if_pos hk]
      rfl
    rw [if_neg hne]
    obtain ⟨o',hrun,h1,h2,h3⟩ := ih t (behind buf o j' rs) hrest hnext hn hlast htail
    refine ⟨o',hrun,?_,?_,fun p hp => ?_⟩
    · rw [List.map_cons]
      simp only [behind, hi, List.append_assoc] at h1
      exact h1
    · rw [h2, hstored, hsplit, List.append_assoc]
    · rcases h3 p hp with hp | hp
      · exact hreads p hp
      · exact .inr hp

theorem in_step_second (o' : Second) (hrun : secondPass buf fuel naddrs nan o = some o')
    (hstarts : o'.starts <+: o.starts++(visits buf last nan s.i).map (·.start))
    (hreads : ∀ p ∈ o'.reads, p < last) : InStep buf last (visits buf last nan s.i) := by
  induction nan generalizing s o with
  | zero => exact absurd rfl hpos
  | succ nan ih =>
    obtain ⟨t,j,ht,hrest,hj,hin,htnext,hv⟩ := first_pass_cons buf last nan s s' hfirst
    have hsome := hrun
    rw [secondPass] at hsome
    obtain ⟨⟨j',rs⟩,hr,-⟩ := Option.bind_eq_some_iff.mp hsome
    have hjj : j' = j := ((skip_again buf last _ _ _ _ hj).1 fuel _ (hi ▸ hr)).1
    subst hjj
    rw [second_turn buf fuel naddrs nan o _ rs hr] at hrun
    rw [hv] at hn hpos hstarts ⊢
    have hstored : (behind buf o j' rs).stored = o.stored++seenOf buf [⟨s.i,j'⟩] := by
      rw [behind, hi]
    have hsplit := seen_of_split buf ⟨s.i,j'⟩ (visits buf last nan t.i)
    rw [hsplit, List.length_append, ← Nat.add_assoc, ← List.length_append, ← hstored] at hn
    have hwhole (hmem : ∀ p ∈ (behind buf o j' rs).reads, p < last) :
        Visit.qtype buf ⟨s.i,j'⟩ = 1 → j'+14 ≤ last := by
      intro h1
      have h1' : twoBytes buf j' = 1 := h1
      have := hmem (j'+13) (by simp [behind, h1'])
      omega
    rw [List.map_cons, ← List.singleton_append, ← List.append_assoc] at hstarts
    by_cases hlast : seenOf buf (visits buf last nan t.i) = []
    · have h1 : twoBytes buf j' = 1 := seen_of_here buf ⟨s.i,j'⟩ _ hpos hlast
      rw [hlast, List.length_nil, Nat.add_zero] at hn
      rw [if_pos ⟨h1,hn.symm⟩] at hrun
      cases hrun
      have hno := (seen_of_nil_iff buf _).mp hlast
      refine (in_step_cons buf last _ _).mpr ⟨fun _ => hlast,hwhole hreads,
        fun front v rest he _ w hw => hno w (by rw [he]; simp [hw]),
        fun v hvmem h1 => absurd h1 (hno v hvmem)⟩
    have hne : ¬(twoBytes buf j' = 1 ∧ (behind buf o j' rs).stored.length = naddrs) := by
      rintro ⟨-,hlen⟩
      have := List.length_pos_iff.mpr hlast
      omega
    rw [if_neg hne] at hrun
    obtain ⟨hkeep,-,hvisit⟩ := second_extends buf fuel naddrs nan _ o' hrun
    have hmem : ∀ p ∈ (behind buf o j' rs).reads, p < last := fun p hp => hreads p (hkeep p hp)
    have hstarts' : o'.starts <+:
        (behind buf o j' rs).starts++(visits buf last nan t.i).map (·.start) := by
      simp only [behind, hi]
      exact hstarts
    -- the next record of the first pass is where the second goes on
    have hnext : (behind buf o j' rs).i = t.i := by
      rcases nan with _ | nan
      · exact absurd rfl hlast
      obtain ⟨t',j2,-,-,-,-,-,hv2⟩ := first_pass_cons buf last nan t s' hrest
      have hpre := (hvisit (Nat.succ_ne_zero nan)).trans hstarts'
      rw [List.prefix_append_right_inj, hv2, List.map_cons, List.cons_prefix_cons] at hpre
      exact hpre.1
    have hk : Visit.Known buf ⟨s.i,j'⟩ := by
      by_contra hk
      rw [htnext, Visit.next, if_neg hk] at hnext
      simp only [behind] at hnext
      omega
    have htail := ih t (behind buf o j' rs) hrest hnext hn hlast hrun hstarts'
    exact (in_step_cons buf last _ _).mpr ⟨fun h => absurd hk h,hwhole hmem,htail⟩

end Step

/-- For two addresses or more, the passes agree if and only if they are in step. -/
theorem passes_agree_iff (nan ans : ℕ) (s : First) (h : counted buf last nan ans = .ok s)
    (hn : 2 ≤ s.naddrs) :
    (∃ fuel o, storing buf fuel s.naddrs nan ans = some o ∧ Agrees last s o) ↔
      InStep buf last (visits buf last nan ans) := by
  obtain ⟨hstarts,hseen,hcount,-⟩ := first_pass_visits buf last nan _ s h
  simp only [List.nil_append, Nat.zero_add] at hstarts hseen hcount
  have hpos : seenOf buf (visits buf last nan ans) ≠ [] := by
    intro h0
    rw [h0, List.length_nil] at hcount
    omega
  have hnum : s.naddrs = ([] : List ℕ).length+(seenOf buf (visits buf last nan ans)).length := by
    rw [List.length_nil, Nat.zero_add]
    exact hcount
  constructor
  · rintro ⟨fuel,o,hrun,ho⟩
    refine in_step_second buf last fuel s.naddrs nan _ s ⟨ans,[],[],[]⟩ h rfl hnum hpos o hrun ?_
      ho.reads
    rw [List.nil_append, ← hstarts]
    exact ho.starts
  · intro hstep
    obtain ⟨o,hrun,h1,h2,h3⟩ := second_in_step buf last last s.naddrs nan _ s ⟨ans,[],[],[]⟩ h
      rfl hnum hpos le_rfl hstep
    rw [List.nil_append] at h1 h2
    refine ⟨last,o,hrun,by rw [hstarts]; exact h1,by rw [h2, hseen],fun p hp => ?_⟩
    rcases h3 p hp with hp | hp
    · cases hp
    · exact hp

end Passes

end Nginx.ResolverAnswersLaw
