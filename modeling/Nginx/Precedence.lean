import Mathlib.Data.List.Perm.Basic
import Mathlib.Algebra.Order.Ring.Int

/-!
# A value that the first may set

Asks come in any order. An offer counts, and a refusal is heard, only while no value is set;
one ask at most may set the value at any time. The asks whose result does not depend on their
order are those that agree.
-/

set_option autoImplicit false

namespace Nginx.Precedence

inductive Ask (α : Type) where
  | nothing
  | forbid
  | refuse
  | offer (t : α)
  | force (t : α)

structure State (α : Type) where
  cacheable : Bool
  valid : α
  deriving DecidableEq, Repr

variable {α : Type} [Zero α] [DecidableEq α]

def step : Ask α → State α → State α
  | .nothing, s => s
  | .forbid, s => { s with cacheable := false }
  | .refuse, s => if s.valid = 0 then { s with cacheable := false } else s
  | .offer t, s => if s.valid = 0 then { s with valid := t } else s
  | .force t, s => { s with valid := t }

def run (asks : List (Ask α)) (s : State α) : State α := asks.foldl (fun s a => step a s) s

def Ask.forces : Ask α → Bool
  | .force _ => true
  | _ => false

/-- The asks agree on a value, or one of them sets it, and a refusal does not stand against a
value unless it is forbidden anyway. -/
structure Consistent (asks : List (Ask α)) : Prop where
  value : (∃ t, t ≠ 0 ∧ .force t ∈ asks) ∨
    (∀ t t', t ≠ 0 → t' ≠ 0 → .offer t ∈ asks → .offer t' ∈ asks → t = t') ∧
      (.force 0 ∈ asks → ∀ t, .offer t ∈ asks → t = 0)
  refusal : .forbid ∈ asks ∨ .refuse ∉ asks ∨
    ∀ t, t ≠ 0 → .force t ∉ asks ∧ .offer t ∉ asks

theorem run_cons (a : Ask α) (asks : List (Ask α)) (s : State α) :
    run (a::asks) s = run asks (step a s) := rfl

theorem run_append (xs ys : List (Ask α)) (s : State α) :
    run (xs++ys) s = run ys (run xs s) := List.foldl_append

/-! What a run keeps -/

variable {asks : List (Ask α)} {s : State α}

theorem run_set (hs : s.valid ≠ 0) (hf : ∀ a ∈ asks, a.forces = false) :
    (run asks s).valid = s.valid ∧ (.forbid ∉ asks → (run asks s).cacheable = s.cacheable) := by
  induction asks generalizing s with
  | nil => exact ⟨rfl,fun _ => rfl⟩
  | cons a asks ih =>
    obtain ⟨ha,hr⟩ := List.forall_mem_cons.mp hf
    rw [run_cons, List.mem_cons, not_or]
    cases a with
    | nothing => exact ⟨(ih hs hr).1,fun h => (ih hs hr).2 h.2⟩
    | forbid =>
      have hs' : (step .forbid s).valid ≠ 0 := hs
      exact ⟨(ih hs' hr).1,fun h => absurd rfl h.1⟩
    | refuse =>
      rw [step, if_neg hs]
      exact ⟨(ih hs hr).1,fun h => (ih hs hr).2 h.2⟩
    | offer t =>
      rw [step, if_neg hs]
      exact ⟨(ih hs hr).1,fun h => (ih hs hr).2 h.2⟩
    | force t => cases ha

theorem run_uncacheable (hs : s.cacheable = false) : (run asks s).cacheable = false := by
  induction asks generalizing s with
  | nil => exact hs
  | cons a asks ih =>
    refine ih ?_
    cases a with
    | nothing => exact hs
    | forbid => rfl
    | refuse =>
      simp only [step]
      split
      · rfl
      · exact hs
    | offer t =>
      simp only [step]
      split
      · exact hs
      · exact hs
    | force t => exact hs

theorem run_forbidden (s : State α) (h : .forbid ∈ asks) : (run asks s).cacheable = false := by
  obtain ⟨xs,ys,rfl⟩ := List.append_of_mem h
  rw [run_append, run_cons]
  exact run_uncacheable rfl

theorem run_unrefused (hf : .forbid ∉ asks) (hr : .refuse ∉ asks) :
    (run asks s).cacheable = s.cacheable := by
  induction asks generalizing s with
  | nil => rfl
  | cons a asks ih =>
    rw [List.mem_cons, not_or] at hf hr
    rw [run_cons, ih hf.2 hr.2]
    cases a with
    | nothing => rfl
    | forbid => exact absurd rfl hf.1
    | refuse => exact absurd rfl hr.1
    | offer t =>
      rw [step]
      split
      · rfl
      · rfl
    | force t => rfl

theorem run_valueless (hs : s.valid = 0) (h : ∀ t, t ≠ 0 → .force t ∉ asks ∧ .offer t ∉ asks) :
    (run asks s).valid = 0 ∧ (.refuse ∈ asks → (run asks s).cacheable = false) := by
  induction asks generalizing s with
  | nil => exact ⟨hs,fun h => absurd h List.not_mem_nil⟩
  | cons a asks ih =>
    have ht : ∀ t, t ≠ 0 → .force t ∉ asks ∧ .offer t ∉ asks := fun t ht =>
      ⟨fun hm => (h t ht).1 (List.mem_cons_of_mem _ hm),
        fun hm => (h t ht).2 (List.mem_cons_of_mem _ hm)⟩
    have hstep : (step a s).valid = 0 := by
      cases a with
      | nothing => exact hs
      | forbid => exact hs
      | refuse => simp [step, hs]
      | offer t =>
        rw [step, if_pos hs]
        exact Classical.not_not.mp fun hn => (h t hn).2 List.mem_cons_self
      | force t => exact Classical.not_not.mp fun hn => (h t hn).1 List.mem_cons_self
    rw [run_cons]
    refine ⟨(ih hstep ht).1,fun hr => ?_⟩
    rcases List.mem_cons.mp hr with he | hr
    · rw [← he, step, if_pos hs]
      exact run_uncacheable rfl
    · exact (ih hstep ht).2 hr

variable {t : α}

theorem run_offered (hs : s.valid = 0) (ht : t ≠ 0) (hf : ∀ a ∈ asks, a.forces = false)
    (hm : .offer t ∈ asks) (h : ∀ t', t' ≠ 0 → .offer t' ∈ asks → t' = t) :
    (run asks s).valid = t := by
  induction asks generalizing s with
  | nil => cases hm
  | cons a asks ih =>
    obtain ⟨ha,hr⟩ := List.forall_mem_cons.mp hf
    have h' : ∀ t', t' ≠ 0 → .offer t' ∈ asks → t' = t :=
      fun t' ht' hm' => h t' ht' (List.mem_cons_of_mem _ hm')
    have hrest : Ask.offer t ≠ a → .offer t ∈ asks := fun hne =>
      (List.mem_cons.mp hm).resolve_left hne
    rw [run_cons]
    cases a with
    | nothing => exact ih hs hr (hrest (by rintro ⟨⟩)) h'
    | forbid => exact ih hs hr (hrest (by rintro ⟨⟩)) h'
    | refuse =>
      rw [step, if_pos hs]
      exact ih hs hr (hrest (by rintro ⟨⟩)) h'
    | offer t' =>
      rw [step, if_pos hs]
      by_cases ht' : t' = 0
      · refine ih ht' hr (hrest ?_) h'
        rintro ⟨⟩
        exact ht ht'
      · obtain rfl := h t' ht' List.mem_cons_self
        exact (run_set ht' hr).1
    | force t' => cases ha

/-! One value that is set at any time -/

omit [Zero α] [DecidableEq α] in
theorem force_split (hone : asks.countP Ask.forces ≤ 1) (hm : .force t ∈ asks) :
    ∃ xs ys, asks = xs++.force t::ys ∧ ∀ a ∈ ys, a.forces = false := by
  obtain ⟨xs,ys,rfl⟩ := List.append_of_mem hm
  refine ⟨xs,ys,rfl,fun a ha => ?_⟩
  rw [List.countP_append, List.countP_cons_of_pos (by rfl)] at hone
  exact Bool.eq_false_iff.mpr (List.countP_eq_zero.mp (by omega) a ha)

theorem run_forced (s : State α) (hone : asks.countP Ask.forces ≤ 1) (ht : t ≠ 0)
    (hm : .force t ∈ asks) : (run asks s).valid = t := by
  obtain ⟨xs,ys,rfl,hys⟩ := force_split hone hm
  have hset : (step (.force t) (run xs s)).valid ≠ 0 := ht
  rw [run_append, run_cons]
  exact (run_set hset hys).1

omit [Zero α] [DecidableEq α] in
theorem unforced (h : ∀ t, .force t ∉ asks) : ∀ a ∈ asks, a.forces = false := by
  intro a ha
  cases a with
  | force t => exact absurd ha (h t)
  | _ => rfl

theorem consistent_result (hs : s.valid = 0) (h : Consistent asks) :
    ∃ v c, ∀ asks' : List (Ask α), (∀ a, a ∈ asks' ↔ a ∈ asks) →
      asks'.countP Ask.forces ≤ 1 → run asks' s = ⟨c,v⟩ := by
  have hvalue : ∃ v, ∀ asks' : List (Ask α), (∀ a, a ∈ asks' ↔ a ∈ asks) →
      asks'.countP Ask.forces ≤ 1 → (run asks' s).valid = v := by
    by_cases hforce : ∃ t, t ≠ 0 ∧ .force t ∈ asks
    · obtain ⟨t,ht,hm⟩ := hforce
      exact ⟨t,fun asks' hmem hone => run_forced s hone ht ((hmem _).mpr hm)⟩
    obtain ⟨hagree,hzero⟩ := h.value.resolve_left hforce
    by_cases hoffer : ∃ t, t ≠ 0 ∧ .offer t ∈ asks
    · obtain ⟨t,ht,hm⟩ := hoffer
      refine ⟨t,fun asks' hmem _ => run_offered hs ht (unforced fun t' hf => ?_)
        ((hmem _).mpr hm) fun t' ht' hm' => hagree t' t ht' ht ((hmem _).mp hm') hm⟩
      have hf := (hmem _).mp hf
      by_cases ht' : t' = 0
      · exact ht (hzero (ht' ▸ hf) t hm)
      · exact hforce ⟨t',ht',hf⟩
    refine ⟨0,fun asks' hmem _ => (run_valueless hs fun t ht => ⟨fun hf => ?_,fun ho => ?_⟩).1⟩
    · exact hforce ⟨t,ht,(hmem _).mp hf⟩
    · exact hoffer ⟨t,ht,(hmem _).mp ho⟩
  have hcacheable : ∃ c, ∀ asks' : List (Ask α), (∀ a, a ∈ asks' ↔ a ∈ asks) →
      (run asks' s).cacheable = c := by
    by_cases hforbid : .forbid ∈ asks
    · exact ⟨false,fun asks' hmem => run_forbidden s ((hmem _).mpr hforbid)⟩
    by_cases hrefuse : .refuse ∈ asks
    · have hno := (h.refusal.resolve_left hforbid).resolve_left (not_not_intro hrefuse)
      refine ⟨false,fun asks' hmem => (run_valueless hs fun t ht => ?_).2
        ((hmem _).mpr hrefuse)⟩
      rw [hmem, hmem]
      exact hno t ht
    · exact ⟨s.cacheable,fun asks' hmem => run_unrefused (fun hm => hforbid ((hmem _).mp hm))
        fun hm => hrefuse ((hmem _).mp hm)⟩
  obtain ⟨v,hv⟩ := hvalue
  obtain ⟨c,hc⟩ := hcacheable
  refine ⟨v,c,fun asks' hmem hone => ?_⟩
  rw [← hv asks' hmem hone, ← hc asks' hmem]

omit [Zero α] [DecidableEq α] in
theorem perm_first {a : Ask α} (h : a ∈ asks) : ∃ rest, (a::rest).Perm asks := by
  obtain ⟨xs,ys,rfl⟩ := List.append_of_mem h
  exact ⟨xs++ys,List.perm_middle.symm⟩

def Same (asks : List (Ask α)) (s : State α) : Prop :=
  ∀ asks' : List (Ask α), asks'.Perm asks → run asks' s = run asks s

section Same

variable {asks : List (Ask α)} {s : State α} (hone : asks.countP Ask.forces ≤ 1)

include hone

omit [Zero α] [DecidableEq α] in
theorem rest_unforced {a : Ask α} {rest : List (Ask α)} (hp : (a::rest).Perm asks)
    (ha : a.forces = true) : ∀ b ∈ rest, b.forces = false := by
  have hcount := hp.countP_eq Ask.forces
  rw [List.countP_cons_of_pos ha] at hcount
  exact fun b hb => Bool.eq_false_iff.mpr
    (List.countP_eq_zero.mp (Nat.le_zero.mp (by omega)) b hb)

theorem same_first (hsame : Same asks s) {a : Ask α} (hm : a ∈ asks)
    (hv : (step a s).valid ≠ 0) (ha : a.forces = true ∨ ∀ t, .force t ∉ asks) :
    (run asks s).valid = (step a s).valid ∧
      (.forbid ∉ asks → (run asks s).cacheable = (step a s).cacheable) := by
  obtain ⟨rest,hp⟩ := perm_first hm
  have hback : ∀ b ∈ rest, b ∈ asks := fun b hb => hp.mem_iff.mp (List.mem_cons_of_mem _ hb)
  have hrest : ∀ b ∈ rest, b.forces = false := by
    rcases ha with ha | ha
    · exact rest_unforced hone hp ha
    · exact unforced fun t ht => ha t (hback _ ht)
  obtain ⟨h1,h2⟩ := run_set hv hrest
  rw [← hsame _ hp, run_cons]
  exact ⟨h1,fun hf => h2 fun hm => hf (hback _ hm)⟩

theorem same_offer (hsame : Same asks s) (hs : s.valid = 0) (ht : t ≠ 0) (hm : .offer t ∈ asks)
    (hno : ∀ t, .force t ∉ asks) :
    (run asks s).valid = t ∧ (.forbid ∉ asks → (run asks s).cacheable = s.cacheable) := by
  have hstep : step (.offer t) s = { s with valid := t } := if_pos hs
  have hr := same_first hone hsame hm (by rw [hstep]; exact ht) (Or.inr hno)
  rw [hstep] at hr
  exact hr

theorem same_zero (hsame : Same asks s) (hf : .force 0 ∈ asks) (hm : .offer t ∈ asks) : t = 0 := by
  by_contra ht
  obtain ⟨xs,ys,rfl⟩ := List.append_of_mem hf
  have hp1 : (xs++ys++[Ask.force 0]).Perm (xs++Ask.force 0::ys) := by
    rw [List.append_assoc]
    exact List.Perm.append_left xs (List.perm_append_singleton _ _)
  have hlast : (run (xs++ys++[Ask.force 0]) s).valid = 0 := by
    rw [run_append]
    rfl
  have hm' : .offer t ∈ xs++ys := by
    rw [List.mem_append, List.mem_cons] at hm
    rw [List.mem_append]
    exact hm.imp_right fun h => h.resolve_left (by rintro ⟨⟩)
  obtain ⟨rest,hr⟩ := perm_first hm'
  have hp2 : (.force 0::.offer t::rest).Perm (xs++Ask.force 0::ys) :=
    (hr.cons _).trans List.perm_middle.symm
  have hset : step (.offer t) (step (.force 0) s) = { s with valid := t } := if_pos rfl
  have hrest := (List.forall_mem_cons.mp (rest_unforced hone hp2 rfl)).2
  have hrun := (run_set (s := { s with valid := t }) ht hrest).1
  have he := congrArg State.valid ((hsame _ hp1).trans (hsame _ hp2).symm)
  rw [hlast, run_cons, run_cons, hset, hrun] at he
  exact ht he.symm

/-- Asks with one value at most that is set at any time give the same in every order if and only
if they agree. -/
theorem same_iff (hs : s.valid = 0) (hc : s.cacheable = true) :
    Same asks s ↔ Consistent asks := by
  constructor
  · intro hsame
    have hno : (¬ ∃ t, t ≠ 0 ∧ .force t ∈ asks) → ∀ {t : α}, t ≠ 0 → .offer t ∈ asks →
        ∀ t, .force t ∉ asks := by
      intro hn t ht hm t' hf
      by_cases ht' : t' = 0
      · exact ht (same_zero hone hsame (ht' ▸ hf) hm)
      · exact hn ⟨t',ht',hf⟩
    constructor
    · by_cases hforce : ∃ t, t ≠ 0 ∧ .force t ∈ asks
      · exact Or.inl hforce
      refine Or.inr ⟨fun t t' ht ht' hm hm' => ?_,fun hf t hm => same_zero hone hsame hf hm⟩
      rw [← (same_offer hone hsame hs ht hm (hno hforce ht hm)).1,
        ← (same_offer hone hsame hs ht' hm' (hno hforce ht hm)).1]
    · by_contra hn
      rw [not_or, not_or, not_not] at hn
      obtain ⟨hforbid,hrefuse,hsome⟩ := hn
      obtain ⟨rest,hp⟩ := perm_first hrefuse
      have hfalse : (run asks s).cacheable = false := by
        rw [← hsame _ hp, run_cons, step, if_pos hs]
        exact run_uncacheable rfl
      have htrue : (run asks s).cacheable = s.cacheable := by
        by_cases hforce : ∃ t, t ≠ 0 ∧ .force t ∈ asks
        · obtain ⟨t,ht,hm⟩ := hforce
          exact (same_first hone hsame hm ht (Or.inl rfl)).2 hforbid
        obtain ⟨t,ht,hm⟩ : ∃ t, t ≠ 0 ∧ .offer t ∈ asks := by
          by_contra hn
          exact hsome fun t ht => ⟨fun hf => hforce ⟨t,ht,hf⟩,fun ho => hn ⟨t,ht,ho⟩⟩
        exact (same_offer hone hsame hs ht hm (hno hforce ht hm)).2 hforbid
      rw [hfalse, hc] at htrue
      cases htrue
  · intro h asks' hp
    obtain ⟨v,c,hr⟩ := consistent_result hs h
    rw [hr asks' (fun _ => hp.mem_iff) (hp.countP_eq _ ▸ hone), hr asks (fun _ => Iff.rfl) hone]

end Same

end Nginx.Precedence
