import Nginx.DotSegments

/-!
# Removing dot segments one at a time

In the removal a double dot takes exactly the segment before it, an empty one as
well, and a dot segment at the end leaves an empty one behind. The resolution
erases an empty segment together with the one before it, and leaves the last
segment as it is. Both keep the same stack until a double dot meets an empty
segment; from there on the resolution has fewer segments than the removal.
-/

set_option autoImplicit false

namespace Nginx.SegmentRemoval
open Nginx.DotSegments

variable {α : Type*} [DecidableEq α] (sep dot : α)

@[grind =] def collapse : Bool → List α → List α
  | _, [] => []
  | behind, x::xs =>
    if x = sep then if behind then collapse true xs else x::collapse true xs
    else x::collapse false xs

def removeStep (stack : List (List α)) (seg : List α) : Option (List (List α)) :=
  if seg = [dot] then some stack
  else if seg = [dot, dot] then if stack = [] then none else some stack.tail
  else some (seg::stack)

@[grind =] def keep : List (List α) → List (List α) → Option (List (List α))
  | stack, [] => some stack
  | stack, [_] => some stack
  | stack, seg::next::rest =>
    (removeStep dot stack seg).bind fun kept => keep kept (next::rest)

/-- The last segment; behind one that is removed the path ends in a separator. -/
def removeLast (stack : List (List α)) (last : List α) : Option (List (List α)) :=
  (removeStep dot stack last).map fun kept =>
    if last = [dot] ∨ last = [dot, dot] then []::kept else kept

def remove (segs : List (List α)) : Option (List (List α)) :=
  ((keep dot [] segs).bind fun kept => removeLast dot kept (segs.getLastD [])).map List.reverse

@[grind =] def OverEmpty : List (List α) → List (List α) → Prop
  | stack, seg::next::rest => (seg = [dot, dot] ∧ stack.head? = some []) ∨
    ∃ kept, removeStep dot stack seg = some kept ∧ OverEmpty kept (next::rest)
  | _, _ => False

@[grind =] def filled (segs : List (List α)) : List (List α) :=
  match segs with
  | [] => []
  | [last] => [last]
  | seg::next::rest => if seg = [] then filled (next::rest) else seg::filled (next::rest)

variable {sep dot}

omit [DecidableEq α] in
theorem filled_cons (seg : List α) {segs : List (List α)} (h : segs ≠ []) :
    filled (seg::segs) = if seg = [] then filled segs else seg::filled segs := by
  cases segs with
  | nil => exact absurd rfl h
  | cons next rest => rw [filled]

omit [DecidableEq α] in
theorem filled_ne_nil (segs : List (List α)) (h : segs ≠ []) : filled segs ≠ [] := by
  induction segs with
  | nil => exact absurd rfl h
  | cons seg rest ih =>
    cases rest with
    | nil => rw [filled]; exact h
    | cons next rest =>
      rw [filled]
      split_ifs
      · exact ih (List.cons_ne_nil next rest)
      · exact List.cons_ne_nil _ _

theorem split_free (xs : List α) : ∀ seg ∈ xs.splitOn sep, sep ∉ seg := by
  induction xs with
  | nil => simp
  | cons x xs ih =>
    obtain ⟨seg,rest,hsplit⟩ := List.exists_cons_of_ne_nil (List.splitOn_ne_nil sep xs)
    rw [hsplit] at ih
    rw [List.splitOn_cons_eq_if_modifyHead, hsplit]
    by_cases hx : x = sep
    · rw [if_pos (by simpa using hx)]
      intro s hs
      rcases List.mem_cons.mp hs with rfl | hs
      · exact List.not_mem_nil
      · exact ih s hs
    rw [if_neg (by simpa using hx), List.modifyHead_cons]
    intro s hs
    rcases List.mem_cons.mp hs with rfl | hs
    · intro hm
      rcases List.mem_cons.mp hm with he | hm
      · exact hx he.symm
      · exact ih seg List.mem_cons_self hm
    · exact ih s (List.mem_cons_of_mem seg hs)

theorem collapse_split (xs cur : List α) :
    ((collapse sep (decide (cur = [])) xs).splitOn sep).modifyHead (cur++·) =
      filled ((xs.splitOn sep).modifyHead (cur++·)) := by
  induction xs generalizing cur with
  | nil => simp [collapse, filled]
  | cons x xs ih =>
    have hne := List.splitOn_ne_nil sep xs
    have hid (l : List (List α)) : l.modifyHead (fun x => x) = l := by
      cases l <;> rfl
    by_cases hx : x = sep
    · have h := ih []
      simp only [List.nil_append, hid, decide_true] at h
      rw [List.splitOn_cons_eq_if_modifyHead, if_pos (by simpa using hx), List.modifyHead_cons,
        List.append_nil, filled_cons cur hne, ← h]
      by_cases hcur : cur = []
      · rw [collapse, if_pos hx, if_pos (by simpa using hcur), if_pos hcur, hcur]
        simp only [List.nil_append, hid]
      rw [collapse, if_pos hx, if_neg (by simpa using hcur), if_neg hcur,
        List.splitOn_cons_eq_if_modifyHead, if_pos (by simpa using hx), List.modifyHead_cons,
        List.append_nil]
    have h := ih (cur++[x])
    have hmore : decide (cur++[x] = []) = false := by simp
    rw [hmore] at h
    rw [collapse, if_neg hx, List.splitOn_cons_eq_if_modifyHead,
      List.splitOn_cons_eq_if_modifyHead, if_neg (by simpa using hx), if_neg (by simpa using hx)]
    simpa only [List.modifyHead_modifyHead, Function.comp_def, List.append_assoc,
      List.singleton_append] using h

theorem resolve_merged (stack segs : List (List α)) :
    resolve dot true stack segs = resolve dot false stack (filled segs) := by
  induction segs generalizing stack with
  | nil => rfl
  | cons seg rest ih =>
    cases rest with
    | nil => rfl
    | cons next rest =>
      obtain ⟨seg',rest',hfilled⟩ :=
        List.exists_cons_of_ne_nil (filled_ne_nil (next::rest) (List.cons_ne_nil next rest))
      rw [resolve, filled]
      by_cases hseg : seg = []
      · rw [if_pos hseg, close, if_pos hseg]
        exact ih stack
      have hclose : close dot true stack seg = close dot false stack seg := by
        rw [close, close, if_neg hseg, if_neg hseg]
      rw [if_neg hseg, hfilled, resolve, ← hfilled, hclose]
      congr 1
      funext kept
      exact ih kept

theorem step_no_empty {stack kept : List (List α)} {seg : List α} (h : [] ∉ stack)
    (hseg : seg ≠ []) (hk : removeStep dot stack seg = some kept) : [] ∉ kept := by
  rw [removeStep] at hk
  split_ifs at hk with h1 h2 h3
  · cases hk
    exact h
  · cases hk
    exact fun hm => h (List.mem_of_mem_tail hm)
  · cases hk
    intro hm
    rcases List.mem_cons.mp hm with he | hm
    · exact hseg he.symm
    · exact h hm

theorem filled_not_over (stack segs : List (List α)) (h : [] ∉ stack) :
    ¬OverEmpty dot stack (filled segs) := by
  induction segs generalizing stack with
  | nil => simp [filled, OverEmpty]
  | cons seg rest ih =>
    cases rest with
    | nil => simp [filled, OverEmpty]
    | cons next rest =>
      obtain ⟨seg',rest',hfilled⟩ :=
        List.exists_cons_of_ne_nil (filled_ne_nil (next::rest) (List.cons_ne_nil next rest))
      rw [filled]
      by_cases hseg : seg = []
      · rw [if_pos hseg]
        exact ih stack h
      rw [if_neg hseg, hfilled, OverEmpty, ← hfilled]
      rintro (⟨-,hhead⟩ | ⟨kept,hk,hover⟩)
      · exact h (List.mem_of_head? hhead)
      · exact ih kept (step_no_empty h hseg hk) hover

theorem close_step (stack : List (List α)) (seg : List α)
    (h : ¬(seg = [dot, dot] ∧ stack.head? = some [])) :
    close dot false stack seg = removeStep dot stack seg := by
  by_cases h0 : seg = []
  · subst h0
    rw [close, if_pos rfl, removeStep, if_neg (List.cons_ne_nil _ _).symm,
      if_neg (List.cons_ne_nil _ _).symm]
    rfl
  rw [close, if_neg h0, removeStep]
  by_cases h1 : seg = [dot]
  · rw [if_pos h1, if_pos h1]
  rw [if_neg h1, if_neg h1]
  by_cases h2 : seg = [dot, dot]
  · rw [if_pos h2, if_pos h2]
    cases stack with
    | nil => rfl
    | cons top stack =>
      cases top with
      | nil => exact absurd ⟨h2,rfl⟩ h
      | cons x top => rfl
  · rw [if_neg h2, if_neg h2]

theorem resolve_keep (stack segs : List (List α)) (h : ¬OverEmpty dot stack segs) :
    resolve dot false stack segs =
      (keep dot stack segs).map fun kept => ⟨kept,segs.getLastD []⟩ := by
  induction segs generalizing stack with
  | nil => rfl
  | cons seg rest ih =>
    cases rest with
    | nil => rfl
    | cons next rest =>
      rw [OverEmpty, not_or] at h
      rw [resolve, keep, close_step stack seg h.1]
      cases hk : removeStep dot stack seg with
      | none => rfl
      | some kept =>
        rw [Option.bind_some, Option.bind_some]
        exact ih kept fun hover => h.2 ⟨kept,hk,hover⟩

omit [DecidableEq α] in
theorem climb_over {stack kept : List (List α)} (hhead : stack.head? = some [])
    (h : climb stack = some kept) : ∃ below, stack = []::below::kept := by
  cases stack with
  | nil => cases hhead
  | cons top stack =>
    obtain rfl : top = [] := Option.some.inj hhead
    cases stack with
    | nil => cases h
    | cons below stack =>
      obtain rfl : stack = kept := Option.some.inj h
      exact ⟨below,rfl⟩

theorem close_shorter {stack short kept : List (List α)} {seg : List α}
    (hlen : short.length < stack.length) (h : close dot false short seg = some kept) :
    ∃ kept', removeStep dot stack seg = some kept' ∧ kept.length < kept'.length := by
  by_cases hover : seg = [dot, dot] ∧ short.head? = some []
  · obtain ⟨rfl,hhead⟩ := hover
    cases stack with
    | nil => exact absurd hlen (Nat.not_lt_zero _)
    | cons top stack =>
      refine ⟨stack,by rw [removeStep, if_neg (by simp), if_pos rfl, if_neg (by simp)]; rfl,?_⟩
      have hclimb : climb short = some kept := by simpa [close] using h
      obtain ⟨below,rfl⟩ := climb_over hhead hclimb
      simp only [List.length_cons] at hlen
      omega
  rw [close_step short seg hover] at h
  rw [removeStep] at h ⊢
  split_ifs at h with h1 h2 h3
  · cases h
    exact ⟨stack,by rw [if_pos h1],hlen⟩
  · cases h
    have hne : stack ≠ [] := by
      intro he
      rw [he] at hlen
      exact absurd hlen (Nat.not_lt_zero _)
    refine ⟨stack.tail,by rw [if_neg h1, if_pos h2, if_neg hne],?_⟩
    have hpos := List.length_pos_of_ne_nil h3
    rw [List.length_tail, List.length_tail]
    omega
  · cases h
    exact ⟨seg::stack,by rw [if_neg h1, if_neg h2],Nat.succ_lt_succ hlen⟩

theorem resolve_shorter (stack short segs : List (List α)) (r : Resolved α)
    (hlen : short.length < stack.length) (h : resolve dot false short segs = some r) :
    ∃ kept, keep dot stack segs = some kept ∧ r.closed.length < kept.length := by
  induction segs generalizing stack short with
  | nil =>
    cases h
    exact ⟨stack,rfl,hlen⟩
  | cons seg rest ih =>
    cases rest with
    | nil =>
      cases h
      exact ⟨stack,rfl,hlen⟩
    | cons next rest =>
      rw [resolve] at h
      obtain ⟨kept,hclose,hrest⟩ := Option.bind_eq_some_iff.mp h
      obtain ⟨kept',hstep,hlen'⟩ := close_shorter hlen hclose
      rw [keep, hstep, Option.bind_some]
      exact ih kept' kept hlen' hrest

theorem over_shorter (stack segs : List (List α)) (r : Resolved α)
    (hover : OverEmpty dot stack segs) (h : resolve dot false stack segs = some r) :
    ∃ kept, keep dot stack segs = some kept ∧ r.closed.length < kept.length := by
  induction segs generalizing stack with
  | nil => exact absurd hover (by simp [OverEmpty])
  | cons seg rest ih =>
    cases rest with
    | nil => exact absurd hover (by simp [OverEmpty])
    | cons next rest =>
      rw [resolve] at h
      obtain ⟨kept,hclose,hrest⟩ := Option.bind_eq_some_iff.mp h
      by_cases hnow : seg = [dot, dot] ∧ stack.head? = some []
      · obtain ⟨rfl,hhead⟩ := hnow
        have hclimb : climb stack = some kept := by simpa [close] using hclose
        obtain ⟨below,rfl⟩ := climb_over hhead hclimb
        have hstep : removeStep dot ([]::below::kept) [dot, dot] = some (below::kept) := by
          rw [removeStep, if_neg (by simp), if_pos rfl, if_neg (by simp)]
          rfl
        rw [keep, hstep, Option.bind_some]
        exact resolve_shorter (below::kept) kept _ r (Nat.lt_succ_self _) hrest
      rw [OverEmpty] at hover
      rw [close_step stack seg hnow] at hclose
      obtain hnow' | ⟨kept',hstep,hover⟩ := hover
      · exact absurd hnow' hnow
      · rw [keep, hstep, Option.bind_some]
        rw [hclose] at hstep
        cases hstep
        exact ih kept hover hrest

end Nginx.SegmentRemoval
