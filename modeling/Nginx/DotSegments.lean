import Mathlib.Data.List.Basic
import Mathlib.Tactic.Common

/-!
# Dot segments of a rooted path

A path is a word over any alphabet with a separator and a dot. The walk reads
one letter at a time and keeps what it has written, newest letter first, with
a mark saying how the open segment looks. The resolution cuts the whole word
at the separators and keeps a stack of closed segments. Both agree on every
word, so a writer that backs up over its own output can be read segment by
segment.
-/

set_option autoImplicit false

namespace Nginx.DotSegments

variable {α : Type*}

inductive Mark where
  | plain
  | slash
  | dot
  | dotDot
  deriving DecidableEq, Repr

structure Walk (α : Type*) where
  mark : Mark
  rev : List α

structure Resolved (α : Type*) where
  closed : List (List α)
  last : List α

variable [DecidableEq α] (sep dot : α)

def nextMark (m : Mark) (x : α) : Mark :=
  if x = dot then
    match m with
    | .slash => .dot
    | .dot => .dotDot
    | _ => .plain
  else .plain

/-- Drop the two dots, the separator before them and one more letter, then
everything down to the separator that opened the previous segment. -/
def backUp (rev : List α) : Option (List α) :=
  match (rev.drop 4).dropWhile (fun x => decide (x ≠ sep)) with
  | [] => none
  | kept => some kept

def step (merge : Bool) (w : Walk α) (x : α) : Option (Walk α) :=
  if x = sep then
    match w.mark with
    | .plain => some ⟨.slash,x :: w.rev⟩
    | .slash => some ⟨.slash,if merge then w.rev else x :: w.rev⟩
    | .dot => some ⟨.slash,w.rev.tail⟩
    | .dotDot => (backUp sep w.rev).map (Walk.mk .slash)
  else some ⟨nextMark dot w.mark x,x :: w.rev⟩

@[grind =] def walk (merge : Bool) : Walk α → List α → Option (Walk α)
  | w, [] => some w
  | w, x :: xs => (step sep dot merge w x).bind (fun v => walk merge v xs)

theorem step_subset (merge : Bool) (w v : Walk α) (x : α)
    (h : step sep dot merge w x = some v) : v.rev ⊆ x :: w.rev := by
  have hkeep : w.rev ⊆ x :: w.rev := fun y hy => List.mem_cons_of_mem x hy
  by_cases hx : x = sep
  · rw [step, if_pos hx] at h
    cases hm : w.mark with
    | plain =>
      simp only [hm, Option.some.injEq] at h
      simp [← h]
    | slash =>
      simp only [hm, Option.some.injEq] at h
      rw [← h]
      cases merge <;> simp
    | dot =>
      simp only [hm, Option.some.injEq] at h
      rw [← h]
      exact List.Subset.trans (List.tail_sublist w.rev).subset hkeep
    | dotDot =>
      simp only [hm, Option.map_eq_some_iff] at h
      obtain ⟨kept,hback,rfl⟩ := h
      refine List.Subset.trans ?_ hkeep
      unfold backUp at hback
      split at hback
      · cases hback
      · cases hback
        exact List.Subset.trans (List.dropWhile_suffix _).subset (List.drop_subset 4 w.rev)
  rw [step, if_neg hx] at h
  cases h
  simp

theorem walk_subset (merge : Bool) (xs : List α) (w v : Walk α)
    (h : walk sep dot merge w xs = some v) : v.rev ⊆ w.rev ++ xs := by
  induction xs generalizing w with
  | nil =>
    simp only [walk, Option.some.injEq] at h
    simp [h]
  | cons x xs ih =>
    rw [walk, Option.bind_eq_some_iff] at h
    obtain ⟨u,hu,hv⟩ := h
    have hstep := step_subset sep dot merge w u x hu
    intro y hy
    rcases List.mem_append.mp (ih u hv hy) with hy | hy
    · rcases List.mem_cons.mp (hstep hy) with rfl | hy <;> simp_all
    · simp [hy]

omit [DecidableEq α] in
def climb : List (List α) → Option (List (List α))
  | [] => none
  | [[]] => none
  | [] :: _ :: stack => some stack
  | (_ :: _) :: stack => some stack

def close (merge : Bool) (stack : List (List α)) (seg : List α) : Option (List (List α)) :=
  if seg = [] then some (if merge then stack else [] :: stack)
  else if seg = [dot] then some stack
  else if seg = [dot, dot] then climb stack
  else some (seg :: stack)

@[grind =] def resolve (merge : Bool) : List (List α) → List (List α) → Option (Resolved α)
  | stack, [] => some ⟨stack,[]⟩
  | stack, [last] => some ⟨stack,last⟩
  | stack, seg :: next :: rest =>
    (close dot merge stack seg).bind (fun kept => resolve merge kept (next :: rest))

def markOf (cur : List α) : Mark :=
  if cur = [] then .slash
  else if cur = [dot] then .dot
  else if cur = [dot, dot] then .dotDot
  else .plain

@[grind =] def revPath : List (List α) → List α
  | [] => [sep]
  | seg :: stack => sep :: (seg.reverse ++ revPath stack)

structure Represents (w : Walk α) (stack : List (List α)) (cur : List α) : Prop where
  written : w.rev = cur ++ revPath sep stack
  marked : w.mark = markOf dot cur
  open_free : sep ∉ cur
  closed_free : ∀ seg ∈ stack, sep ∉ seg

omit [DecidableEq α] in
@[simp] theorem rev_path_cons (seg : List α) (stack : List (List α)) :
    revPath sep (seg :: stack) = sep :: (seg.reverse ++ revPath sep stack) := rfl

omit [DecidableEq α] in
theorem rev_path_head (stack : List (List α)) : ∃ rest, revPath sep stack = sep :: rest := by
  cases stack with
  | nil => exact ⟨[],rfl⟩
  | cons seg stack => exact ⟨_,rfl⟩

omit [DecidableEq α] in
theorem rev_path_last (stack : List (List α)) : ∃ rest, revPath sep stack = rest ++ [sep] := by
  induction stack with
  | nil => exact ⟨[],rfl⟩
  | cons seg stack ih =>
    obtain ⟨rest,hr⟩ := ih
    exact ⟨sep :: (seg.reverse ++ rest),by simp [hr]⟩

theorem drop_to_rev_path (seg : List α) (stack : List (List α)) (hs : sep ∉ seg) :
    (seg ++ revPath sep stack).dropWhile (fun x => decide (x ≠ sep)) = revPath sep stack := by
  obtain ⟨rest,hr⟩ := rev_path_head sep stack
  induction seg with
  | nil => simp [hr]
  | cons x seg ih =>
    have hx : x ≠ sep := fun h => hs (by simp [h])
    rw [List.cons_append, List.dropWhile_cons_of_pos (by simpa using hx)]
    exact ih (fun h => hs (by simp [h]))

theorem back_up_climb (stack : List (List α)) (hf : ∀ seg ∈ stack, sep ∉ seg) :
    backUp sep (dot :: dot :: revPath sep stack) = (climb stack).map (revPath sep) := by
  have kept : ∀ stack : List (List α), ∀ seg : List α, sep ∉ seg →
      (match (seg ++ revPath sep stack).dropWhile (fun x => decide (x ≠ sep)) with
        | [] => none
        | kept => some kept) = some (revPath sep stack) := by
    intro stack seg hs
    obtain ⟨rest,hr⟩ := rev_path_head sep stack
    rw [drop_to_rev_path sep seg stack hs, hr]
  match stack, hf with
  | [], _ => simp [backUp, climb, revPath]
  | [[]], _ => simp [backUp, climb, revPath]
  | [] :: seg :: stack, hf =>
    have hs : sep ∉ seg.reverse := by simpa using hf seg (by simp)
    simpa [backUp, climb] using kept stack seg.reverse hs
  | (x :: xs) :: stack, hf =>
    have hs : sep ∉ (x :: xs).reverse := by rw [List.mem_reverse]; exact hf _ (by simp)
    obtain ⟨y,ys,hy⟩ : ∃ y ys, (x :: xs).reverse = y :: ys :=
      List.exists_cons_of_ne_nil (by simp)
    rw [hy] at hs
    have ht : sep ∉ ys := fun h => hs (by simp [h])
    simp only [backUp, climb, rev_path_cons, hy, List.cons_append, List.drop_succ_cons,
      List.drop_zero, Option.map_some]
    exact kept stack ys ht

theorem mark_of_cons (cur : List α) (x : α) :
    markOf dot (x :: cur) = nextMark dot (markOf dot cur) x := by
  by_cases hx : x = dot
  · subst x
    match cur with
    | [] => simp [markOf, nextMark]
    | [y] => by_cases hy : y = dot <;> simp [markOf, nextMark, hy]
    | y :: z :: rest =>
      simp only [markOf, nextMark]
      split_ifs <;> simp_all
  · simp [markOf, nextMark, hx]

theorem step_open (merge : Bool) (w : Walk α) (stack : List (List α)) (cur : List α) (x : α)
    (hx : x ≠ sep) (hr : Represents sep dot w stack cur) :
    ∃ v, step sep dot merge w x = some v ∧ Represents sep dot v stack (x :: cur) := by
  refine ⟨⟨nextMark dot w.mark x,x :: w.rev⟩,by simp [step, hx],?_⟩
  exact {
    written := by simp [hr.written]
    marked := by rw [hr.marked, ← mark_of_cons dot]
    open_free := by simpa [Ne.symm hx] using hr.open_free
    closed_free := hr.closed_free }

/-- A separator closes the open segment: the walk writes exactly what the
stack keeps, and refuses exactly when the stack cannot be climbed. -/
theorem step_close (merge : Bool) (w : Walk α) (stack : List (List α)) (cur : List α)
    (hr : Represents sep dot w stack cur) :
    match close dot merge stack cur.reverse with
    | none => step sep dot merge w sep = none
    | some kept => ∃ v, step sep dot merge w sep = some v ∧ Represents sep dot v kept [] := by
  obtain ⟨hw,hm,ho,hc⟩ := hr
  have fresh : ∀ kept : List (List α), (∀ seg ∈ kept, sep ∉ seg) →
      Represents sep dot ⟨.slash,revPath sep kept⟩ kept [] := fun kept hk =>
    ⟨rfl,by simp [markOf],by simp,hk⟩
  by_cases h0 : cur = []
  · subst cur
    cases merge with
    | true =>
      refine ⟨⟨.slash,revPath sep stack⟩,?_,fresh stack hc⟩
      simp [step, hm, markOf, hw]
    | false =>
      refine ⟨⟨.slash,revPath sep ([] :: stack)⟩,?_,fresh _ (by simpa using hc)⟩
      simp [step, hm, markOf, hw]
  by_cases h1 : cur = [dot]
  · subst cur
    simp only [close, List.reverse_singleton, reduceCtorEq, if_false, if_true]
    refine ⟨⟨.slash,revPath sep stack⟩,?_,fresh stack hc⟩
    simp [step, hm, markOf, hw]
  by_cases h2 : cur = [dot, dot]
  · subst cur
    have hb := back_up_climb sep dot stack hc
    have hs : step sep dot merge w sep = ((climb stack).map (revPath sep)).map (Walk.mk .slash) := by
      rw [← hb]
      simp [step, hm, markOf, hw]
    have hcl : close dot merge stack [dot, dot].reverse = climb stack := by simp [close]
    rw [hcl]
    cases hk : climb stack with
    | none => simp [hs, hk]
    | some kept =>
      refine ⟨⟨.slash,revPath sep kept⟩,by simp [hs, hk],fresh kept ?_⟩
      intro seg hseg
      apply hc
      match stack, hk with
      | [] :: _ :: stack, hk => simp only [climb, Option.some.injEq] at hk; simp [hk, hseg]
      | (_ :: _) :: stack, hk => simp only [climb, Option.some.injEq] at hk; simp [hk, hseg]
  have hr0 : cur.reverse ≠ [] := by simpa using h0
  have hr1 : cur.reverse ≠ [dot] := fun h => h1 (by simpa using congrArg List.reverse h)
  have hr2 : cur.reverse ≠ [dot, dot] := fun h => h2 (by simpa using congrArg List.reverse h)
  simp only [close, hr0, hr1, hr2, if_false]
  refine ⟨⟨.slash,revPath sep (cur.reverse :: stack)⟩,?_,fresh _ ?_⟩
  · simp [step, hm, markOf, hw, h0, h1, h2]
  · intro seg hseg
    rcases List.mem_cons.mp hseg with rfl | h
    · simpa using ho
    · exact hc seg h

theorem walk_resolve (merge : Bool) (xs : List α) (w : Walk α)
    (stack : List (List α)) (cur : List α) (hr : Represents sep dot w stack cur) :
    match resolve dot merge stack ((xs.splitOn sep).modifyHead (cur.reverse ++ ·)) with
    | none => walk sep dot merge w xs = none
    | some r => ∃ v, walk sep dot merge w xs = some v ∧
        Represents sep dot v r.closed r.last.reverse := by
  induction xs generalizing w stack cur with
  | nil => exact ⟨w,rfl,by simpa using hr⟩
  | cons x xs ih =>
    obtain ⟨seg,rest,hsplit⟩ := List.exists_cons_of_ne_nil (List.splitOn_ne_nil sep xs)
    by_cases hx : x = sep
    · subst hx
      have hclose := step_close x dot merge w stack cur hr
      rw [List.splitOn_cons_eq_if_modifyHead, if_pos (by simp), hsplit]
      simp only [List.modifyHead_cons, List.append_nil, resolve]
      cases hk : close dot merge stack cur.reverse with
      | none =>
        simp only [hk] at hclose
        simp [walk, hclose]
      | some kept =>
        simp only [hk] at hclose
        obtain ⟨v,hv,hrep⟩ := hclose
        have := ih v kept [] hrep
        simpa [hsplit, walk, hv] using this
    obtain ⟨v,hv,hrep⟩ := step_open sep dot merge w stack cur x hx hr
    have := ih v stack (x :: cur) hrep
    rw [List.splitOn_cons_eq_if_modifyHead, if_neg (by simpa using hx), hsplit]
    simpa [hsplit, walk, hv] using this

theorem rooted_walk (merge : Bool) (xs : List α) :
    match resolve dot merge [] (xs.splitOn sep) with
    | none => walk sep dot merge ⟨.plain,[]⟩ (sep :: xs) = none
    | some r => ∃ v, walk sep dot merge ⟨.plain,[]⟩ (sep :: xs) = some v ∧
        Represents sep dot v r.closed r.last.reverse := by
  have hstart : Represents sep dot ⟨.slash,[sep]⟩ [] [] := ⟨rfl,by simp [markOf],by simp,by simp⟩
  have h := walk_resolve sep dot merge xs _ [] [] hstart
  obtain ⟨seg,rest,hsplit⟩ := List.exists_cons_of_ne_nil (List.splitOn_ne_nil sep xs)
  simpa [hsplit, walk, step] using h

@[grind =] def segments (r : Resolved α) : List (List α) := [] :: (r.closed.reverse ++ [r.last])

theorem rev_path_segments (stack : List (List α)) (last : List α)
    (hc : ∀ seg ∈ stack, sep ∉ seg) (hl : sep ∉ last) :
    ((revPath sep stack).reverse ++ last).splitOn sep = segments ⟨stack,last⟩ := by
  induction stack generalizing last with
  | nil =>
    have h := List.splitOn_append_cons_self (a := sep) [] last
    simpa [revPath, segments, List.splitOn_eq_singleton hl] using h
  | cons seg stack ih =>
    have hseg := ih seg (fun s hs => hc s (by simp [hs])) (hc seg (by simp))
    have h := List.splitOn_append_cons_self (a := sep) ((revPath sep stack).reverse ++ seg) last
    rw [hseg, List.splitOn_eq_singleton hl] at h
    simpa [segments] using h

theorem written_segments (w : Walk α) (r : Resolved α)
    (hr : Represents sep dot w r.closed r.last.reverse) :
    w.rev.reverse.splitOn sep = segments r := by
  rw [hr.written, List.reverse_append, List.reverse_reverse]
  exact rev_path_segments sep r.closed r.last hr.closed_free (by simpa using hr.open_free)

theorem close_kept (merge : Bool) (stack kept : List (List α)) (seg : List α)
    (h : close dot merge stack seg = some kept)
    (hs : ∀ s ∈ stack, s ≠ [dot] ∧ s ≠ [dot, dot]) : ∀ s ∈ kept, s ≠ [dot] ∧ s ≠ [dot, dot] := by
  unfold close at h
  split_ifs at h with h0 hm h1 h2
  · cases h; exact hs
  · cases h; simpa using hs
  · cases h; exact hs
  · match stack, h with
    | [] :: _ :: stack, h =>
      simp only [climb, Option.some.injEq] at h
      exact fun s hk => hs s (by simp [h, hk])
    | (_ :: _) :: stack, h =>
      simp only [climb, Option.some.injEq] at h
      exact fun s hk => hs s (by simp [h, hk])
  · cases h
    intro s hk
    rcases List.mem_cons.mp hk with rfl | hk
    · exact ⟨h1,h2⟩
    · exact hs s hk

/-- No closed segment of a resolution is a single or a double dot; only the
segment left open at the end of the word can be one. -/
theorem resolve_closed (merge : Bool) (stack : List (List α)) (segs : List (List α))
    (r : Resolved α) (h : resolve dot merge stack segs = some r)
    (hs : ∀ s ∈ stack, s ≠ [dot] ∧ s ≠ [dot, dot]) :
    (∀ s ∈ r.closed, s ≠ [dot] ∧ s ≠ [dot, dot]) ∧ segs.getLastD [] = r.last := by
  induction segs generalizing stack with
  | nil => cases h; exact ⟨hs,rfl⟩
  | cons seg rest ih =>
    cases rest with
    | nil => cases h; exact ⟨hs,rfl⟩
    | cons next rest =>
      obtain ⟨kept,hk,hres⟩ := Option.bind_eq_some_iff.mp h
      have := ih kept hres (close_kept dot merge stack kept seg hk hs)
      simpa using this

theorem open_segment (xs seg : List α) (hs : sep ∉ seg) :
    sep :: seg <:+ sep :: xs ↔ (xs.splitOn sep).getLastD [] = seg := by
  constructor
  · rintro ⟨front,hf⟩
    cases front with
    | nil =>
      have hx : seg = xs := by simpa using hf
      simp [← hx, List.splitOn_eq_singleton hs]
    | cons y front =>
      have hx : front ++ sep :: seg = xs := by simpa using (List.cons.inj hf).2
      rw [← hx, List.splitOn_append_cons_self, List.splitOn_eq_singleton hs]
      simp
  · intro h
    by_cases hm : sep ∈ xs
    · obtain ⟨back,front,hx,hb⟩ := List.eq_append_cons_of_mem (List.mem_reverse.mpr hm)
      have hx' : xs = front.reverse ++ sep :: back.reverse := by
        simpa using congrArg List.reverse hx
      have hback : sep ∉ back.reverse := by simpa using hb
      rw [hx', List.splitOn_append_cons_self, List.splitOn_eq_singleton hback] at h
      have hseg : back.reverse = seg := by simpa using h
      exact ⟨sep :: front.reverse,by simp [hx', hseg]⟩
    rw [List.splitOn_eq_singleton hm] at h
    have hseg : xs = seg := by simpa using h
    simp [hseg]

end Nginx.DotSegments
