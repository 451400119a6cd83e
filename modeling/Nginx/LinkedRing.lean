import Mathlib.Data.List.Chain
import Mathlib.Logic.Function.Basic

/-!
# Doubly linked rings

Links in both directions between addresses, and the list of what lies on a ring between its
head and the head again. To take an element out and to put one in are four writes or fewer;
each is an operation on the list.
-/

set_option autoImplicit false

namespace Nginx.LinkedRing

structure Links (α : Type) where
  next : α → α
  prev : α → α

variable {α : Type}

def Link (m : Links α) (x y : α) : Prop := m.next x = y ∧ m.prev y = x

structure Looped (m : Links α) (h : α) (l : List α) : Prop where
  nodup : (h::l).Nodup
  chain : (h::(l++[h])).IsChain (Link m)

theorem ring_link (m : Links α) (h x y : α) (l a b : List α) (hring : Looped m h l)
    (hsplit : h::(l++[h]) = a++x::y::b) : Link m x y :=
  List.isChain_iff_forall_rel_of_append_cons_cons.mp hring.chain hsplit

theorem ring_empty (m : Links α) (h : α) (hring : Looped m h []) : Link m h h :=
  ring_link m h h h [] [] [] hring rfl

theorem ring_first (m : Links α) (h x : α) (l : List α) (hring : Looped m h (x::l)) : Link m h x :=
  ring_link m h h x (x::l) [] (l++[h]) hring rfl

theorem ring_last (m : Links α) (h x : α) (l : List α) (hring : Looped m h (l++[x])) :
    Link m x h :=
  ring_link m h x h (l++[x]) (h::l) [] hring (by simp)

theorem ring_within (m : Links α) (h x y : α) (a b : List α) (hring : Looped m h (a++x::y::b)) :
    Link m x y :=
  ring_link m h x y (a++x::y::b) (h::a) (b++[h]) hring (by simp)

theorem ring_index (m : Links α) (h : α) (l : List α) (hring : Looped m h l) (i : ℕ)
    (hi : i+1 < l.length) : Link m l[i] l[i+1] := by
  have hchain : l.IsChain (Link m) := hring.chain.infix ⟨[h],[h],by simp⟩
  exact List.isChain_iff_getElem.mp hchain i hi

theorem chain_frame (m m' : Links α) (l : List α)
    (hnext : ∀ x ∈ l.dropLast, m'.next x = m.next x)
    (hprev : ∀ x ∈ l.tail, m'.prev x = m.prev x) (h : l.IsChain (Link m)) :
    l.IsChain (Link m') := by
  rw [List.isChain_iff_forall_rel_of_append_cons_cons] at h ⊢
  intro x y a b hsplit
  obtain ⟨hxy,hyx⟩ := h hsplit
  constructor
  · rw [hnext x (by simp [hsplit]), hxy]
  · rw [hprev y, hyx]
    rw [hsplit]
    cases a with
    | nil => exact List.mem_cons_self
    | cons z a => simp

variable [DecidableEq α]

/-- `x->next->prev = x->prev; x->prev->next = x->next` -/
def Links.remove (m : Links α) (x : α) : Links α where
  next := Function.update m.next (m.prev x) (m.next x)
  prev := Function.update m.prev (m.next x) (m.prev x)

/-- `x->next = p->next; x->next->prev = x; x->prev = p; p->next = x` -/
def Links.insertAfter (m : Links α) (p x : α) : Links α where
  next := Function.update (Function.update m.next x (m.next p)) p x
  prev := Function.update (Function.update m.prev (m.next p) x) x p

@[simp] theorem remove_next (m : Links α) (x : α) :
    (m.remove x).next = Function.update m.next (m.prev x) (m.next x) := rfl

@[simp] theorem remove_prev (m : Links α) (x : α) :
    (m.remove x).prev = Function.update m.prev (m.next x) (m.prev x) := rfl

@[simp] theorem insert_next (m : Links α) (p x : α) :
    (m.insertAfter p x).next = Function.update (Function.update m.next x (m.next p)) p x := rfl

@[simp] theorem insert_prev (m : Links α) (p x : α) :
    (m.insertAfter p x).prev = Function.update (Function.update m.prev (m.next p) x) x p := rfl

/-- The neighbours of a place on a ring, `p` before it and `n` behind it. -/
structure Place (h p n : α) (a b a' b' : List α) : Prop where
  left : h::a = a'++[p]
  right : b++[h] = n::b'

structure Apart (p n : α) (a b a' b' : List α) : Prop where
  pLeft : p ∉ a'
  pRight : p ∉ b
  nLeft : n ∉ a
  nRight : n ∉ b'

omit [DecidableEq α] in
theorem place_exists (h : α) (a b : List α) : ∃ p n a' b', Place h p n a b a' b' := by
  obtain ⟨n,b',hb⟩ := List.exists_cons_of_ne_nil (List.append_ne_nil_of_right_ne_nil b
    (List.cons_ne_nil h []))
  exact ⟨_,n,_,b',(List.dropLast_append_getLast (List.cons_ne_nil h a)).symm,hb⟩

omit [DecidableEq α] in
theorem place_apart (h p n : α) (a b a' b' : List α) (hplace : Place h p n a b a' b')
    (hnodup : (h::(a++b)).Nodup) : Apart p n a b a' b' := by
  have hleft : (a'++[p]++b).Nodup := by
    rw [← hplace.left]
    exact hnodup
  have hright : (a++n::b').Nodup := by
    rw [← hplace.right, ← List.append_assoc]
    exact (List.perm_append_singleton h (a++b)).nodup_iff.mpr hnodup
  simp only [List.nodup_append, List.mem_append, List.mem_singleton, List.nodup_cons]
    at hleft hright
  exact ⟨fun hp => hleft.1.2.2 p hp p rfl rfl,fun hp => hleft.2.2 p (Or.inr rfl) p hp rfl,
    fun hn => hright.2.2 n hn n List.mem_cons_self rfl,hright.2.1.1⟩

omit [DecidableEq α] in
theorem sides_kept (m m' : Links α) (h p n : α) (a b a' b' : List α)
    (hplace : Place h p n a b a' b') (hapart : Apart p n a b a' b')
    (hnext : ∀ y ∈ h::(a++b), y ≠ p → m'.next y = m.next y)
    (hprev : ∀ y ∈ h::(a++b), y ≠ n → m'.prev y = m.prev y)
    (hleft : (h::a).IsChain (Link m)) (hright : (b++[h]).IsChain (Link m)) :
    (h::a).IsChain (Link m') ∧ (b++[h]).IsChain (Link m') := by
  have hin : ∀ y, y ∈ h::a ∨ y ∈ b++[h] → y ∈ h::(a++b) := by
    simp only [List.mem_cons, List.mem_append, List.not_mem_nil]
    tauto
  constructor
  · refine chain_frame m m' (h::a) (fun y hy => ?_) (fun y hy => ?_) hleft
    · refine hnext y (hin y (Or.inl (List.dropLast_subset _ hy))) ?_
      rintro rfl
      rw [hplace.left, List.dropLast_concat] at hy
      exact hapart.pLeft hy
    · refine hprev y (hin y (Or.inl (List.mem_of_mem_tail hy))) ?_
      rintro rfl
      exact hapart.nLeft hy
  · refine chain_frame m m' (b++[h]) (fun y hy => ?_) (fun y hy => ?_) hright
    · refine hnext y (hin y (Or.inr (List.dropLast_subset _ hy))) ?_
      rintro rfl
      rw [List.dropLast_concat] at hy
      exact hapart.pRight hy
    · refine hprev y (hin y (Or.inr (List.mem_of_mem_tail hy))) ?_
      rintro rfl
      rw [hplace.right] at hy
      exact hapart.nRight hy

omit [DecidableEq α] in
theorem join_sides (m : Links α) (h p n : α) (a b a' b' : List α)
    (hplace : Place h p n a b a' b') (hlink : Link m p n) (hleft : (h::a).IsChain (Link m))
    (hright : (b++[h]).IsChain (Link m)) : (h::((a++b)++[h])).IsChain (Link m) := by
  rw [List.append_assoc, ← List.cons_append, List.isChain_append]
  refine ⟨hleft,hright,fun y hy z hz => ?_⟩
  rw [hplace.left, List.getLast?_concat, Option.mem_some_iff] at hy
  rw [hplace.right, List.head?_cons, Option.mem_some_iff] at hz
  rw [← hy, ← hz]
  exact hlink

theorem ring_remove (m : Links α) (h x : α) (a b : List α) (hring : Looped m h (a++x::b)) :
    Looped (m.remove x) h (a++b) := by
  obtain ⟨p,n,a',b',hplace⟩ := place_exists h a b
  have hnodup : (h::(a++b)).Nodup :=
    hring.nodup.sublist (((List.sublist_cons_self x b).append_left a).cons_cons h)
  have hpx : m.prev x = p := by
    refine (ring_link m h p x (a++x::b) a' (b++[h]) hring ?_).2
    rw [List.append_assoc, ← List.cons_append, hplace.left]
    simp
  have hxn : m.next x = n := by
    refine (ring_link m h x n (a++x::b) (h::a) b' hring ?_).1
    rw [← hplace.right]
    simp
  have hchain : ((h::a)++x::(b++[h])).IsChain (Link m) := by
    have := hring.chain
    rwa [List.append_assoc, ← List.cons_append] at this
  have hsides := List.isChain_append.mp hchain
  have hkept := sides_kept m (m.remove x) h p n a b a' b' hplace
    (place_apart h p n a b a' b' hplace hnodup)
    (fun y _ hy => by rw [remove_next, hpx, Function.update_of_ne hy])
    (fun y _ hy => by rw [remove_prev, hxn, Function.update_of_ne hy])
    hsides.1 hsides.2.1.tail
  refine ⟨hnodup,join_sides _ h p n a b a' b' hplace ⟨?_,?_⟩ hkept.1 hkept.2⟩
  · rw [remove_next, hpx, hxn, Function.update_self]
  · rw [remove_prev, hpx, hxn, Function.update_self]

theorem ring_insert_after (m : Links α) (h p x : α) (a b : List α) (hring : Looped m h (a++b))
    (hp : (h::a).getLast? = some p) (hx : x ∉ h::(a++b)) :
    Looped (m.insertAfter p x) h (a++x::b) := by
  obtain ⟨p',n,a',b',hplace⟩ := place_exists h a b
  obtain rfl : p' = p := by
    rw [hplace.left, List.getLast?_concat] at hp
    exact Option.some.inj hp
  have hpn : m.next p' = n := by
    refine (ring_link m h p' n (a++b) a' b' hring ?_).1
    rw [List.append_assoc, ← List.cons_append, hplace.left, hplace.right]
    simp
  have hpin : p' ∈ h::(a++b) := by
    rw [← List.cons_append, hplace.left]
    simp
  have hnin : n ∈ h::(a++b) := by
    have hn : n ∈ b++[h] := by
      rw [hplace.right]
      exact List.mem_cons_self
    simp only [List.mem_cons, List.mem_append, List.not_mem_nil] at hn ⊢
    tauto
  have hfresh : ∀ y ∈ h::(a++b), y ≠ x := by
    rintro y hy rfl
    exact hx hy
  have hchain : ((h::a)++(b++[h])).IsChain (Link m) := by
    have := hring.chain
    rwa [List.append_assoc, ← List.cons_append] at this
  have hsides := List.isChain_append.mp hchain
  have hkept := sides_kept m (m.insertAfter p' x) h p' n a b a' b' hplace
    (place_apart h p' n a b a' b' hplace hring.nodup)
    (fun y hy hyp => by
      rw [insert_next, Function.update_of_ne hyp, Function.update_of_ne (hfresh y hy)])
    (fun y hy hyn => by
      rw [insert_prev, Function.update_of_ne (hfresh y hy), hpn,
        Function.update_of_ne hyn])
    hsides.1 hsides.2.1
  refine ⟨?_,?_⟩
  · rw [List.perm_middle.cons h |>.nodup_iff, (List.Perm.swap x h (a++b)).nodup_iff]
    exact List.nodup_cons.mpr ⟨hx,hring.nodup⟩
  · rw [List.append_assoc, List.cons_append, ← List.cons_append, List.isChain_append]
    refine ⟨hkept.1,?_,fun y hy z hz => ?_⟩
    · rw [hplace.right] at hkept ⊢
      refine List.isChain_cons_cons.mpr ⟨⟨?_,?_⟩,hkept.2⟩
      · rw [insert_next, Function.update_of_ne (hfresh p' hpin).symm, Function.update_self, hpn]
      · rw [insert_prev, hpn, Function.update_of_ne (hfresh n hnin), Function.update_self]
    · rw [hplace.left, List.getLast?_concat, Option.mem_some_iff] at hy
      rw [List.head?_cons, Option.mem_some_iff] at hz
      rw [← hy, ← hz]
      exact ⟨Function.update_self ..,Function.update_self ..⟩

end Nginx.LinkedRing
