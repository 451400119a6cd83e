import Nginx.RadixTreeMap
import Nginx.Runs

/-!
# The radix tree law

Every operation on a represented tree is an operation on the map of its
prefixes. The exceptions are deletions of a node without children: the root
has no parent to be cut off from, and any other is removed with success
whether or not it has a value.
-/

set_option autoImplicit false

namespace Nginx.RadixTreeLaw
open Nginx.PrefixMap Nginx.RadixTree Nginx.RadixTreeMap

variable (t : Tree) (places : Places) (recycled : List ℕ) (key : Key) (i : ℕ)

theorem step_down (h : Rep t places recycled) (hp : places (keyPath key i) ≠ 0) :
    (t.nodes (places (keyPath key i))).next (key &&& firstBit >>> i ≠ 0) =
      places (keyPath key (i+1)) := by
  rw [key_bit]
  exact h.child _ _ hp

variable (n fuel : ℕ)

theorem insert_descend_spec (i : ℕ) (h : Rep t places recycled) (hn : n ≤ 32) (hi : i ≤ n)
    (hfuel : n < fuel+i) (hp : places (keyPath key i) ≠ 0) :
    (places (keyPath key n) ≠ 0 ∧
      insertDescend t key (maskOf n) fuel (firstBit >>> i) (places (keyPath key i))
        (places (keyPath key i)) =
        .ok (firstBit >>> n, places (keyPath key n), places (keyPath key n))) ∨
    ∃ j, j < n ∧ places (keyPath key j) ≠ 0 ∧ places (keyPath key (j+1)) = 0 ∧
      insertDescend t key (maskOf n) fuel (firstBit >>> i) (places (keyPath key i))
        (places (keyPath key i)) = .ok (firstBit >>> j, places (keyPath key j), 0) := by
  induction fuel generalizing i with
  | zero => omega
  | succ fuel ih =>
    by_cases hend : n ≤ i
    · have he : i = n := by omega
      subst he
      left
      rw [insertDescend, if_pos ((bit_mask_iff i i hn hn).mpr le_rfl)]
      exact ⟨hp,rfl⟩
    have hbit : ¬(firstBit >>> i &&& maskOf n = 0) :=
      fun hz => hend ((bit_mask_iff i n (by omega) hn).mp hz)
    rw [insertDescend, if_neg hbit, node_ok t _ hp]
    simp only [Except.bind]
    rw [step_down t places recycled key i h hp, next_bit]
    by_cases hnext : places (keyPath key (i+1)) = 0
    · right
      rw [if_pos hnext]
      exact ⟨i,by omega,hp,hnext,by rw [hnext]⟩
    · rw [if_neg hnext]
      exact ih (i+1) (by omega) (by omega) hnext

theorem insert_grow_spec (i : ℕ) (h : Rep t places recycled) (hn : n ≤ 32) (hi : i ≤ n)
    (hfuel : n < fuel+i) (hp : places (keyPath key i) ≠ 0)
    (hnone : i < n → places (keyPath key (i+1)) = 0) :
    ∃ t' places' recycled', Rep t' places' recycled' ∧ places' (keyPath key n) ≠ 0 ∧
      stored t' places' = stored t places ∧
      insertGrow key (maskOf n) fuel t (firstBit >>> i) (places (keyPath key i)) =
        .ok (t', places' (keyPath key n)) := by
  induction fuel generalizing t places recycled i with
  | zero => omega
  | succ fuel ih =>
    by_cases hend : n ≤ i
    · have he : i = n := by omega
      subst he
      refine ⟨t,places,recycled,h,hp,rfl,?_⟩
      rw [insertGrow, if_pos ((bit_mask_iff i i hn hn).mpr le_rfl)]
    have hbit : ¬(firstBit >>> i &&& maskOf n = 0) :=
      fun hz => hend ((bit_mask_iff i n (by omega) hn).mp hz)
    obtain ⟨rest,hrep,hp0,hfresh,hrec,hused,hnodes,-⟩ := alloc_spec t places recycled h
    have hdepth : (keyPath key i).length < 32 := by
      rw [key_path_length]
      omega
    have hlast := hnone (by omega)
    obtain ⟨hrep',hstored⟩ := attach_spec _ places rest (keyPath key i) (key.getMsbD i) _
      hrep hp hlast hdepth hp0 hfresh hrec hused
    have hnew : Function.update places (key.getMsbD i :: keyPath key i) (ngxRadixAlloc t).2
        (keyPath key (i+1)) = (ngxRadixAlloc t).2 := Function.update_self _ _ _
    obtain ⟨t',places',recycled',hr,hpn,hs,hrun⟩ := ih _ _ rest (i+1) hrep' (by omega)
      (by omega) (by rw [hnew]; exact hp0) (by
        intro _
        by_contra hne
        have hlen : keyPath key (i+1+1) ≠ keyPath key (i+1) := fun he => by
          have := congrArg List.length he
          simp only [key_path_length] at this
          omega
        have hold : Function.update places (key.getMsbD i :: keyPath key i) (ngxRadixAlloc t).2
            (keyPath key (i+1+1)) = places (keyPath key (i+1+1)) := Function.update_of_ne hlen _ _
        rw [hold] at hne
        exact h.closed _ _ hne hlast)
    refine ⟨t',places',recycled',hr,hpn,?_,?_⟩
    · rw [hs, hstored]
      funext q
      simp only [stored, hnodes]
    · rw [insertGrow, if_neg hbit]
      simp only
      rw [node_ok _ _ hp]
      simp only [Except.bind]
      rw [← hrun, hnew, next_bit]
      congr 1
      have hcell : ((ngxRadixAlloc t).1.setNode (ngxRadixAlloc t).2
          { right := 0, left := 0, parent := places (keyPath key i), value := noValue }).nodes
          (places (keyPath key i)) = (ngxRadixAlloc t).1.nodes (places (keyPath key i)) :=
        Function.update_of_ne (hfresh _) _ _
      rw [hcell, key_bit]
      rfl

theorem insert_spec (value : UInt64) (h : Rep t places recycled) (hn : n ≤ 32) :
    (stored t places (keyPath key n) ≠ none ∧
      ngxRadix32treeInsert t key (maskOf n) value = .ok (t, .busy)) ∨
    (stored t places (keyPath key n) = none ∧ ∃ t' places' recycled', Rep t' places' recycled' ∧
      stored t' places' = put (stored t places) (keyPath key n)
        (if value = noValue then none else some value) ∧
      ngxRadix32treeInsert t key (maskOf n) value = .ok (t', .ok)) := by
  have hroot0 : places (keyPath key 0) = t.root := h.root
  have hroot : places (keyPath key 0) ≠ 0 := by
    rw [hroot0]
    exact h.root_set
  have hdesc := insert_descend_spec t places recycled key n 33 0 h hn (Nat.zero_le n)
    (by omega) hroot
  rw [hroot0, show firstBit >>> 0 = firstBit from rfl] at hdesc
  rcases hdesc with ⟨hp,hrun⟩ | ⟨j,hj,hp,hnone,hrun⟩
  · by_cases hv : (t.nodes (places (keyPath key n))).value = noValue
    · right
      refine ⟨by simp [stored, hv],?_⟩
      obtain ⟨hrep,hs⟩ := fill_spec t places recycled (keyPath key n) value h hp
      refine ⟨_,places,recycled,hrep,hs,?_⟩
      rw [ngxRadix32treeInsert, hrun]
      simp only [Except.bind, hp, ne_eq, not_false_iff, if_true, node_ok t _ hp, hv,
        not_true_eq_false, if_false]
    left
    refine ⟨by simp [stored, hp, hv],?_⟩
    rw [ngxRadix32treeInsert, hrun]
    simp only [Except.bind, hp, ne_eq, not_false_iff, if_true, node_ok t _ hp, hv]
  right
  have hfar : places (keyPath key n) = 0 := by
    by_contra hne
    have hdown : ∀ k, j+1 ≤ k → k ≤ n → places (keyPath key k) ≠ 0 → False := by
      intro k hk
      induction k, hk using Nat.le_induction with
      | base => exact fun _ hb => hb hnone
      | succ k hk ihk => exact fun hkn hb => ihk (by omega) (h.closed _ _ hb)
    exact hdown n (by omega) le_rfl hne
  obtain ⟨t',places',recycled',hrep,hpn,hs,hgrow⟩ := insert_grow_spec t places recycled
    key n 33 j h hn (by omega) (by omega) hp (fun _ => hnone)
  refine ⟨by simp [stored, hfar],?_⟩
  obtain ⟨hrep',hs'⟩ := fill_spec t' places' recycled' (keyPath key n) value hrep hpn
  refine ⟨_,places',recycled',hrep',by rw [hs', hs],?_⟩
  rw [ngxRadix32treeInsert, hrun]
  simp only [Except.bind, ne_eq, not_true_eq_false, if_false, hgrow, node_ok t' _ hpn]

theorem delete_descend_spec (i : ℕ) (h : Rep t places recycled) (hn : n ≤ 32) (hi : i ≤ n)
    (hfuel : n < fuel+i) :
    deleteDescend t key (maskOf n) fuel (firstBit >>> i) (places (keyPath key i)) =
      .ok (places (keyPath key n)) := by
  induction fuel generalizing i with
  | zero => omega
  | succ fuel ih =>
    rw [deleteDescend]
    by_cases hp : places (keyPath key i) = 0
    · have hfar : ∀ k, i ≤ k → places (keyPath key k) = 0 := by
        intro k hk
        induction k, hk using Nat.le_induction with
        | base => exact hp
        | succ k hk ihk =>
          by_contra hb
          exact h.closed _ _ hb ihk
      rw [if_neg (fun hc => hc.1 hp), hp, hfar n hi]
    by_cases hend : n ≤ i
    · have he : i = n := by omega
      subst he
      rw [if_neg (fun hc => hc.2 ((bit_mask_iff i i hn hn).mpr le_rfl))]
    have hbit : firstBit >>> i &&& maskOf n ≠ 0 :=
      fun hz => hend ((bit_mask_iff i n (by omega) hn).mp hz)
    rw [if_pos ⟨hp,hbit⟩, node_ok t _ hp]
    simp only [Except.bind]
    rw [step_down t places recycled key i h hp, next_bit]
    exact ih (i+1) (by omega) (by omega)

variable (path : List Bool)

theorem childless (h : Rep t places recycled) (hp : places path ≠ 0) :
    ((t.nodes (places path)).right ≠ 0 ∨ (t.nodes (places path)).left ≠ 0) ↔
      ∃ b, places (b :: path) ≠ 0 := by
  have hr := h.child path true hp
  have hl := h.child path false hp
  simp only [Node.next, if_true, Bool.false_eq_true, if_false] at hr hl
  rw [hr, hl]
  simp [or_comm]

theorem prune_cut (b : Bool) (h : Rep t places recycled) (hp : places (b :: path) ≠ 0) :
    (if (t.nodes (places path)).right = places (b :: path) then
      { t.nodes (places path) with right := 0 } else { t.nodes (places path) with left := 0 }) =
      (t.nodes (places path)).setNext b 0 := by
  have hr := h.child path true (h.closed path b hp)
  simp only [Node.next, if_true] at hr
  rw [hr]
  cases b with
  | true => rw [if_pos rfl]; rfl
  | false =>
    rw [if_neg]
    · rfl
    · intro he
      have := h.inj _ _ hp he.symm
      simp at this

theorem delete_prune_turn (b : Bool) (fuel : ℕ) (h : Rep t places recycled)
    (hp : places (b :: path) ≠ 0) :
    deletePrune (fuel+1) t (places (b :: path)) =
      (fun t1 : Tree =>
        if (t1.nodes (places path)).right ≠ 0 ∨ (t1.nodes (places path)).left ≠ 0 then .ok t1
        else if (t1.nodes (places path)).value ≠ noValue then .ok t1
        else if (t1.nodes (places path)).parent = 0 then .ok t1
        else deletePrune fuel t1 (places path))
        (detach t (places path) (places (b :: path)) b) := by
  have habove := h.closed path b hp
  have hne : places (b :: path) ≠ places path := fun he => by
    have := congrArg List.length (h.inj _ _ hp he)
    simp at this
  have hcell : (t.setNode (places path) ((t.nodes (places path)).setNext b 0)).nodes
      (places (b :: path)) = t.nodes (places (b :: path)) := Function.update_of_ne hne _ _
  rw [deletePrune, node_ok t _ hp]
  simp only [Except.bind]
  rw [h.parent path b hp, node_ok t _ habove]
  simp only
  rw [prune_cut t places recycled path b h hp, node_ok _ _ hp]
  simp only
  rw [hcell]
  show ((detach t (places path) (places (b :: path)) b).node
      (t.nodes (places (b :: path))).parent).bind (fun above =>
        if above.right ≠ 0 ∨ above.left ≠ 0 then
          .ok (detach t (places path) (places (b :: path)) b)
        else if above.value ≠ noValue then .ok (detach t (places path) (places (b :: path)) b)
        else if above.parent = 0 then .ok (detach t (places path) (places (b :: path)) b)
        else deletePrune fuel (detach t (places path) (places (b :: path)) b)
          (t.nodes (places (b :: path))).parent) = _
  rw [h.parent path b hp, node_ok _ _ habove]
  rfl

theorem delete_prune_spec (b : Bool) (fuel : ℕ) (h : Rep t places recycled)
    (hp : places (b :: path) ≠ 0) (hleaf : ∀ c, places (c :: b :: path) = 0)
    (hfuel : path.length < fuel) :
    ∃ t' places' recycled', Rep t' places' recycled' ∧
      stored t' places' = put (stored t places) (b :: path) none ∧
      deletePrune fuel t (places (b :: path)) = .ok t' := by
  induction path generalizing t places recycled b fuel with
  | nil =>
    obtain ⟨fuel,rfl⟩ : ∃ k, fuel = k+1 := ⟨fuel-1,by omega⟩
    obtain ⟨hrep,hs⟩ := detach_spec t places recycled [] b h hp hleaf
    refine ⟨_,_,_,hrep,hs,?_⟩
    rw [delete_prune_turn t places recycled [] b fuel h hp]
    have hroot : ((detach t (places []) (places [b]) b).nodes (places [])).parent = 0 := by
      have hrp := hrep.root_parent
      rw [show (detach t (places []) (places [b]) b).root = t.root from rfl, ← h.root] at hrp
      exact hrp
    simp only [hroot, if_true]
    split_ifs <;> rfl
  | cons c path ih =>
    obtain ⟨fuel,rfl⟩ : ∃ k, fuel = k+1 := ⟨fuel-1,by omega⟩
    obtain ⟨hrep,hs⟩ := detach_spec t places recycled (c :: path) b h hp hleaf
    rw [delete_prune_turn t places recycled (c :: path) b fuel h hp]
    generalize hd : detach t (places (c :: path)) (places (b :: c :: path)) b = t1 at hrep hs
    have hold : Function.update places (b :: c :: path) 0 (c :: path) = places (c :: path) := by
      refine Function.update_of_ne ?_ _ _
      intro he
      have := congrArg List.length he
      simp at this
    have habove := h.closed _ b hp
    have hchild := childless t1 _ _ (c :: path) hrep (by rw [hold]; exact habove)
    rw [hold] at hchild
    by_cases h1 : (t1.nodes (places (c :: path))).right ≠ 0 ∨
        (t1.nodes (places (c :: path))).left ≠ 0
    · exact ⟨t1,_,_,hrep,hs,by simp only [if_pos h1]⟩
    by_cases h2 : (t1.nodes (places (c :: path))).value ≠ noValue
    · exact ⟨t1,_,_,hrep,hs,by simp only [if_neg h1, if_pos h2]⟩
    by_cases h3 : (t1.nodes (places (c :: path))).parent = 0
    · exact ⟨t1,_,_,hrep,hs,by simp only [if_neg h1, if_neg h2, if_pos h3]⟩
    have hleaf' : ∀ d, Function.update places (b :: c :: path) 0 (d :: c :: path) = 0 := by
      intro d
      by_contra hne
      exact h1 (hchild.mpr ⟨d,hne⟩)
    obtain ⟨t',places',recycled',hr,hs',hrun⟩ := ih t1 _ _ c fuel hrep
      (by rw [hold]; exact habove) hleaf' (by simpa using hfuel)
    rw [hold] at hrun
    refine ⟨t',places',recycled',hr,?_,by simp only [if_neg h1, if_neg h2, if_neg h3, hrun]⟩
    have hnone : stored t1 (Function.update places (b :: c :: path) 0) (c :: path) = none := by
      rw [stored, hold]
      simp [not_not.mp h2]
    rw [hs', ← hs]
    exact Function.update_eq_self_iff.mpr hnone.symm

theorem delete_run (h : Rep t places recycled) (hn : n ≤ 32) :
    ngxRadix32treeDelete t key (maskOf n) =
      if places (keyPath key n) = 0 then .ok (t, .error)
      else if ∃ b, places (b :: keyPath key n) ≠ 0 then
        if (t.nodes (places (keyPath key n))).value ≠ noValue then
          .ok (t.setNode (places (keyPath key n))
            { t.nodes (places (keyPath key n)) with value := noValue }, .ok)
        else .ok (t, .error)
      else (deletePrune 33 t (places (keyPath key n))).bind fun t => .ok (t, .ok) := by
  have hroot0 : places (keyPath key 0) = t.root := h.root
  have hrun := delete_descend_spec t places recycled key n 33 0 h hn (Nat.zero_le n) (by omega)
  rw [hroot0, show firstBit >>> 0 = firstBit from rfl] at hrun
  rw [ngxRadix32treeDelete, hrun]
  simp only [Except.bind]
  by_cases hp : places (keyPath key n) = 0
  · simp only [hp, if_true]
  · simp only [hp, if_false, node_ok t _ hp, childless t places recycled _ h hp]

theorem delete_absent (h : Rep t places recycled) (hn : n ≤ 32) (hp : places (keyPath key n) = 0) :
    ngxRadix32treeDelete t key (maskOf n) = .ok (t, .error) := by
  rw [delete_run t places recycled key n h hn, if_pos hp]

theorem delete_inner (h : Rep t places recycled) (hn : n ≤ 32) (hp : places (keyPath key n) ≠ 0)
    (hc : ∃ b, places (b :: keyPath key n) ≠ 0) :
    (stored t places (keyPath key n) = none ∧
      ngxRadix32treeDelete t key (maskOf n) = .ok (t, .error)) ∨
    (stored t places (keyPath key n) ≠ none ∧ ∃ t', Rep t' places recycled ∧
      stored t' places = put (stored t places) (keyPath key n) none ∧
      ngxRadix32treeDelete t key (maskOf n) = .ok (t', .ok)) := by
  rw [delete_run t places recycled key n h hn, if_neg hp, if_pos hc]
  by_cases hv : (t.nodes (places (keyPath key n))).value = noValue
  · left
    exact ⟨by simp [stored, hv],by rw [if_neg (not_not.mpr hv)]⟩
  right
  obtain ⟨hrep,hs⟩ := fill_spec t places recycled (keyPath key n) noValue h hp
  refine ⟨by simp [stored, hp, hv],_,hrep,?_,by rw [if_pos hv]⟩
  rw [hs, if_pos rfl]

theorem delete_leaf (h : Rep t places recycled) (hn : n+1 ≤ 32)
    (hp : places (keyPath key (n+1)) ≠ 0) (hc : ∀ b, places (b :: keyPath key (n+1)) = 0) :
    ∃ t' places' recycled', Rep t' places' recycled' ∧
      stored t' places' = put (stored t places) (keyPath key (n+1)) none ∧
      ngxRadix32treeDelete t key (maskOf (n+1)) = .ok (t', .ok) := by
  obtain ⟨t',places',recycled',hr,hs,hrun⟩ := delete_prune_spec t places recycled
    (keyPath key n) (key.getMsbD n) 33 h hp hc (by rw [key_path_length]; omega)
  refine ⟨t',places',recycled',hr,hs,?_⟩
  rw [delete_run t places recycled key (n+1) h hn, if_neg hp, if_neg (by simpa using hc)]
  have hrun' : deletePrune 33 t (places (keyPath key (n+1))) = .ok t' := hrun
  rw [hrun']
  rfl

theorem delete_bare_root (h : Rep t places recycled) (hc : ∀ b, places [b] = 0) :
    ngxRadix32treeDelete t key (maskOf 0) = .error .nullPointer := by
  have hp : places (keyPath key 0) ≠ 0 := by
    rw [show keyPath key 0 = [] from rfl, h.root]
    exact h.root_set
  have hnone : ¬∃ b, places (b :: keyPath key 0) ≠ 0 := by
    rintro ⟨b,hb⟩
    exact hb (hc b)
  have hroot : places (keyPath key 0) = t.root := h.root
  rw [delete_run t places recycled key 0 h (by omega), if_neg hp, if_neg hnone, deletePrune,
    node_ok t _ hp]
  simp only [Except.bind]
  rw [hroot, h.root_parent, RadixTree.Tree.node, if_pos rfl]

/-- What a lookup holds before it looks at the node of depth `i`. -/
def bestAbove (m : Entries Bool UInt64) (key : Key) : ℕ → UInt64
  | 0 => noValue
  | i+1 => (longest m (keyPath key i)).getD noValue

theorem best_above_next (m : Entries Bool UInt64) (key : Key) (i : ℕ) :
    bestAbove m key (i+1) = (m (keyPath key i)).getD (bestAbove m key i) := by
  cases i with
  | zero => rfl
  | succ i =>
    cases hm : m (keyPath key (i+1)) with
    | none =>
      rw [keyPath] at hm
      simp only [bestAbove, keyPath, longest_none _ _ _ hm, Option.getD_none]
    | some v =>
      rw [keyPath] at hm
      simp only [bestAbove, keyPath, longest_some _ _ _ _ hm, Option.getD_some]

theorem find_loop_spec (i : ℕ) (h : Rep t places recycled) (hfuel : 33 < fuel+i) (hi : i ≤ 33) :
    findLoop t key fuel (firstBit >>> i) (places (keyPath key i))
      (bestAbove (stored t places) key i) = .ok (bestAbove (stored t places) key 33) := by
  induction fuel generalizing i with
  | zero => omega
  | succ fuel ih =>
    rw [findLoop]
    by_cases hp : places (keyPath key i) = 0
    · have hfar : ∀ k, i ≤ k → places (keyPath key k) = 0 ∧
          bestAbove (stored t places) key k = bestAbove (stored t places) key i := by
        intro k hk
        induction k, hk using Nat.le_induction with
        | base => exact ⟨hp,rfl⟩
        | succ k hk ihk =>
          have hz : places (keyPath key (k+1)) = 0 := by
            by_contra hb
            exact h.closed _ _ hb ihk.1
          refine ⟨hz,?_⟩
          have hnone : stored t places (keyPath key k) = none := by simp [stored, ihk.1]
          rw [best_above_next, hnone, Option.getD_none, ihk.2]
      rw [if_pos hp, (hfar 33 hi).2]
    rw [if_neg hp, node_ok t _ hp]
    simp only [Except.bind]
    have hdepth := h.depth _ hp
    rw [key_path_length] at hdepth
    rw [step_down t places recycled key i h hp, next_bit, ← ih (i+1) (by omega) (by omega)]
    congr 1
    rw [best_above_next]
    by_cases hv : (t.nodes (places (keyPath key i))).value = noValue
    · simp [stored, hv]
    · simp [stored, hp, hv]

theorem find_spec (h : Rep t places recycled) :
    ngxRadix32treeFind t key = .ok ((longest (stored t places) (keyPath key 32)).getD noValue) := by
  have hloop := find_loop_spec t places recycled key 34 0 h (by omega) (by omega)
  have hroot : places (keyPath key 0) = t.root := h.root
  rw [hroot] at hloop
  exact hloop

def bareTree : Tree where
  root := pagesize
  free := 0
  start := pagesize+nodeSize
  size := pagesize-nodeSize
  pool := pagesize+pagesize
  nodes := Function.update (fun _ => ⟨0,0,0,0⟩) pagesize
    { right := 0, left := 0, parent := 0, value := noValue }

def rootPlace : Places := fun path => if path = [] then pagesize else 0

theorem bare_tree_rep : Rep bareTree rootPlace [] ∧ stored bareTree rootPlace = empty := by
  have hset : ∀ path, rootPlace path ≠ 0 → path = [] := by
    intro path h
    by_contra hne
    exact h (if_neg hne)
  have hbelow : ∀ (b : Bool) (path : List Bool), rootPlace (b :: path) = 0 := fun b path => rfl
  have hnode : bareTree.nodes (rootPlace []) =
      { right := 0, left := 0, parent := 0, value := noValue } := rfl
  refine ⟨⟨rfl,by decide,rfl,?_,?_,?_,?_,?_,?_,rfl,List.nodup_nil,?_,?_,by decide⟩,?_⟩
  · intro path b hp
    rw [hset path hp, hnode, hbelow]
    cases b <;> rfl
  · exact fun path b hp => absurd (hbelow b path) hp
  · exact fun path b hp => absurd (hbelow b path) hp
  · intro p q hp he
    rw [hset p hp, hset q (by rw [← he]; exact hp)]
  · intro path hp
    rw [hset path hp]
    exact Nat.zero_le 32
  · intro path
    unfold rootPlace
    split_ifs <;> decide
  · exact fun a ha => absurd ha List.not_mem_nil
  · exact fun path => List.not_mem_nil
  · funext path
    by_cases hp : path = []
    · rw [hp, stored, hnode]
      simp [empty]
    · simp [stored, rootPlace, hp, empty]

theorem preallocate_keys_spec (inc key : Key) (fuel m : ℕ) (h : Rep t places recycled)
    (hs : stored t places = empty) (hn : n ≤ 32) (hm : 0 < m) (hfuel : m ≤ fuel)
    (hwrap : key.toNat+m*inc.toNat = 2^32 ∨ (key = 0 ∧ inc = 0)) :
    ∃ t' places' recycled', Rep t' places' recycled' ∧ stored t' places' = empty ∧
      preallocateKeys (maskOf n) inc fuel t key = .ok (t', .ok) := by
  induction fuel generalizing t places recycled key m with
  | zero => omega
  | succ fuel ih =>
    rcases insert_spec t places recycled key n noValue h hn with ⟨hsome,-⟩ | ⟨-,hins⟩
    · rw [hs] at hsome
      exact absurd rfl hsome
    obtain ⟨t',places',recycled',hr,hs',hrun⟩ := hins
    have hempty : stored t' places' = empty := by
      rw [hs', hs, if_pos rfl]
      exact Function.update_eq_self_iff.mpr rfl
    rw [preallocateKeys, hrun]
    simp only [Except.bind, ne_eq, not_true_eq_false, if_false]
    by_cases hend : key+inc = 0
    · exact ⟨t',places',recycled',hr,hempty,by rw [if_pos hend]⟩
    rw [if_neg hend]
    rcases hwrap with hwrap | ⟨rfl,rfl⟩
    · have hadd : (key+inc).toNat = (key.toNat+inc.toNat) % 2^32 := BitVec.toNat_add key inc
      have hm1 : m ≠ 1 := by
        rintro rfl
        apply hend
        apply BitVec.eq_of_toNat_eq
        rw [hadd, show key.toNat+inc.toNat = 2^32 by omega]
        rfl
      obtain ⟨k,rfl⟩ : ∃ k, m = k+2 := ⟨m-2,by omega⟩
      have hinc : 0 < inc.toNat := by
        by_contra h0
        have hz : inc.toNat = 0 := by omega
        rw [hz] at hwrap
        have := key.isLt
        omega
      have hsplit : (k+2)*inc.toNat = (k+1)*inc.toNat+inc.toNat :=
        Nat.succ_mul (k+1) inc.toNat
      have hpos : 0 < (k+1)*inc.toNat := Nat.mul_pos (by omega) hinc
      have hlt : key.toNat+inc.toNat < 2^32 := by omega
      rw [Nat.mod_eq_of_lt hlt] at hadd
      exact ih t' places' recycled' (key+inc) (k+1) hr hempty (by omega) (by omega)
        (Or.inl (by omega))
    · exact absurd (by simp) hend

theorem mask_next : ∀ n : Fin 33,
    (maskOf n.val >>> 1) ||| 0x80000000#32 = maskOf (min (n.val+1) 32) := by
  decide

theorem first_bit_inc : ∀ k : Fin 32, 2^(k.val+1)*(firstBit >>> k.val).toNat = 2^32 := by
  decide

theorem preallocate_loop_spec (left k : ℕ) (h : Rep t places recycled)
    (hs : stored t places = empty) :
    ∃ t' places' recycled', Rep t' places' recycled' ∧ stored t' places' = empty ∧
      preallocateLoop left t (maskOf (min k 32)) (firstBit >>> k) = .ok (t', .ok) := by
  induction left generalizing t places recycled k with
  | zero => exact ⟨t,places,recycled,h,hs,rfl⟩
  | succ left ih =>
    have hmask : (maskOf (min k 32) >>> 1) ||| 0x80000000#32 = maskOf (min (k+1) 32) := by
      have hm := mask_next ⟨min k 32,by omega⟩
      simp only at hm
      rw [hm]
      congr 1
      omega
    have hwrap : ∃ m, 0 < m ∧ m ≤ 2^32 ∧ ((0 : Key).toNat+m*(firstBit >>> k).toNat = 2^32 ∨
        ((0 : Key) = 0 ∧ firstBit >>> k = 0)) := by
      by_cases hk : k < 32
      · refine ⟨2^(k+1),Nat.two_pow_pos (k+1),Nat.pow_le_pow_right (by omega) (by omega),Or.inl ?_⟩
        have hinc := first_bit_inc ⟨k,hk⟩
        simpa using hinc
      refine ⟨1,by omega,Nat.one_le_two_pow,Or.inr ⟨rfl,?_⟩⟩
      apply BitVec.eq_of_toNat_eq
      rw [BitVec.toNat_ushiftRight, Nat.shiftRight_eq_div_pow]
      have hp : (2:ℕ)^32 ≤ 2^k := Nat.pow_le_pow_right (by decide) (by omega)
      exact Nat.div_eq_of_lt (lt_of_lt_of_le firstBit.isLt hp)
    obtain ⟨m,hm0,hm1,hm2⟩ := hwrap
    obtain ⟨t',places',recycled',hr,hs',hrun⟩ := preallocate_keys_spec t places recycled
      (min (k+1) 32) (firstBit >>> k) 0 (2^32) m h hs (by omega) hm0 hm1 hm2
    rw [preallocateLoop]
    simp only
    rw [hmask, hrun, next_bit]
    simp only [Except.bind, ne_eq, not_true_eq_false, if_false]
    exact ih t' places' recycled' (k+1) hr hs'

theorem create_spec (headersInPage : ℕ) (preallocate : ℤ) :
    ∃ t places recycled, Rep t places recycled ∧ stored t places = empty ∧
      ngxRadixTreeCreate headersInPage preallocate = .ok (t, .ok) := by
  obtain ⟨hrep,hs⟩ := bare_tree_rep
  exact preallocate_loop_spec bareTree rootPlace [] _ 0 hrep hs

inductive Op where
  | insert (key : Key) (length : Fin 33) (value : UInt64)
  | delete (key : Key) (length : Fin 33)

def apply (t : Tree) : Op → Except Fault (Tree × Code)
  | .insert key length value => ngxRadix32treeInsert t key (maskOf length) value
  | .delete key length => ngxRadix32treeDelete t key (maskOf length)

def refStep (m : Entries Bool UInt64) : Op → Entries Bool UInt64 × Code
  | .insert key length value =>
    if m (keyPath key length) = none then
      (put m (keyPath key length) (if value = noValue then none else some value), .ok)
    else (m, .busy)
  | .delete key length =>
    if m (keyPath key length) = none then (m, .error)
    else (put m (keyPath key length) none, .ok)

@[grind =] def nodeAt (t : Tree) : List Bool → ℕ
  | [] => t.root
  | b :: path => if nodeAt t path = 0 then 0 else (t.nodes (nodeAt t path)).next b

/-- A deletion may find no node, a node with children, or a node below the root
that has a value. -/
def Careful (t : Tree) : Op → Prop
  | .insert _ _ _ => True
  | .delete key length => nodeAt t (keyPath key length) = 0 ∨
      (∃ b, nodeAt t (b :: keyPath key length) ≠ 0) ∨
      (keyPath key length ≠ [] ∧ (t.nodes (nodeAt t (keyPath key length))).value ≠ noValue)

inductive Reached (allowed : Tree → Op → Prop) (headersInPage : ℕ) (preallocate : ℤ) :
    Tree → Entries Bool UInt64 → Prop
  | start (t : Tree) (h : ngxRadixTreeCreate headersInPage preallocate = .ok (t, .ok)) :
      Reached allowed headersInPage preallocate t empty
  | step (t t' : Tree) (m : Entries Bool UInt64) (op : Op) (code : Code)
      (h : Reached allowed headersInPage preallocate t m) (hop : allowed t op)
      (happly : apply t op = .ok (t', code)) :
      Reached allowed headersInPage preallocate t' (refStep m op).1

def Finds (t : Tree) (m : Entries Bool UInt64) : Prop :=
  ∀ key, ngxRadix32treeFind t key = .ok ((longest m (keyPath key 32)).getD noValue)

/-- The operation faults nowhere, answers as the map does, changes the tree only
with success, and leaves the lookups of the map it leads to. -/
def StepLaw (t : Tree) (m : Entries Bool UInt64) (op : Op) : Prop :=
  ∃ t', apply t op = .ok (t', (refStep m op).2) ∧ ((refStep m op).2 ≠ .ok → t' = t) ∧
    Finds t' (refStep m op).1

theorem node_at_places (h : Rep t places recycled) (path : List Bool) :
    nodeAt t path = places path := by
  induction path with
  | nil => exact h.root.symm
  | cons b path ih =>
    rw [nodeAt, ih]
    split_ifs with hp
    · by_contra hne
      exact h.closed path b (Ne.symm hne) hp
    · exact h.child path b hp

theorem apply_spec (op : Op) (h : Rep t places recycled) (hop : Careful t op) :
    ∃ t' places' recycled', Rep t' places' recycled' ∧
      stored t' places' = (refStep (stored t places) op).1 ∧
      apply t op = .ok (t', (refStep (stored t places) op).2) ∧
      ((refStep (stored t places) op).2 ≠ .ok → t' = t) := by
  cases op with
  | insert key length value =>
    rcases insert_spec t places recycled key length value h (by omega) with
      ⟨hsome,hrun⟩ | ⟨hnone,t',places',recycled',hr,hs,hrun⟩
    · exact ⟨t,places,recycled,h,by rw [refStep, if_neg hsome],
        by rw [refStep, if_neg hsome]; exact hrun,fun _ => rfl⟩
    · exact ⟨t',places',recycled',hr,by rw [refStep, if_pos hnone]; exact hs,
        by rw [refStep, if_pos hnone]; exact hrun,by rw [refStep, if_pos hnone]; simp⟩
  | delete key length =>
    simp only [Careful, node_at_places t places recycled h] at hop
    by_cases hp : places (keyPath key length) = 0
    · have hnone : stored t places (keyPath key length) = none := by simp [stored, hp]
      exact ⟨t,places,recycled,h,by rw [refStep, if_pos hnone],by
        rw [refStep, if_pos hnone]
        exact delete_absent t places recycled key length h (by omega) hp,fun _ => rfl⟩
    by_cases hc : ∃ b, places (b :: keyPath key length) ≠ 0
    · rcases delete_inner t places recycled key length h (by omega) hp hc with
        ⟨hnone,hrun⟩ | ⟨hsome,t',hr,hs,hrun⟩
      · exact ⟨t,places,recycled,h,by rw [refStep, if_pos hnone],
          by rw [refStep, if_pos hnone]; exact hrun,fun _ => rfl⟩
      · exact ⟨t',places,recycled,hr,by rw [refStep, if_neg hsome]; exact hs,
          by rw [refStep, if_neg hsome]; exact hrun,by rw [refStep, if_neg hsome]; simp⟩
    obtain ⟨hpath,hv⟩ := (hop.resolve_left hp).resolve_left hc
    have hsome : stored t places (keyPath key length) ≠ none := by simp [stored, hp, hv]
    obtain ⟨n,hlen⟩ : ∃ n, (length : ℕ) = n+1 := by
      cases hl : (length : ℕ) with
      | zero => exact absurd (by rw [hl]; rfl) hpath
      | succ n => exact ⟨n,rfl⟩
    have hbound := length.isLt
    have hc' : ∀ b, places (b :: keyPath key length) = 0 := fun b => by
      by_contra hb
      exact hc ⟨b,hb⟩
    rw [hlen] at hp hc'
    obtain ⟨t',places',recycled',hr,hs,hrun⟩ := delete_leaf t places recycled key n h
      (by omega) hp hc'
    rw [← hlen] at hs hrun
    exact ⟨t',places',recycled',hr,by rw [refStep, if_neg hsome]; exact hs,
      by rw [refStep, if_neg hsome]; exact hrun,by rw [refStep, if_neg hsome]; simp⟩

theorem careless_deletion (op : Op) (h : Rep t places recycled) (hop : ¬Careful t op) :
    ¬StepLaw t (stored t places) op := by
  cases op with
  | insert key length value => exact absurd trivial hop
  | delete key length =>
    simp only [Careful, node_at_places t places recycled h, not_or, not_exists, not_not,
      not_and] at hop
    obtain ⟨hp,hc,hv⟩ := hop
    rintro ⟨t',hrun,-,-⟩
    have hbound := length.isLt
    cases hl : (length : ℕ) with
    | zero =>
      rw [hl] at hc
      have hfault := delete_bare_root t places recycled key h hc
      simp only [apply, hl] at hrun
      rw [hfault] at hrun
      cases hrun
    | succ n =>
      have hpath : keyPath key length ≠ [] := by
        rw [hl, keyPath]
        simp
      have hnone : stored t places (keyPath key length) = none := by simp [stored, hv hpath]
      rw [hl] at hp hc
      obtain ⟨t1,-,-,-,-,hok⟩ := delete_leaf t places recycled key n h (by omega) hp hc
      rw [refStep, if_pos hnone, apply, hl, hok] at hrun
      cases hrun

theorem reached_rep (headersInPage : ℕ) (preallocate : ℤ) (t : Tree) (m : Entries Bool UInt64)
    (h : Reached Careful headersInPage preallocate t m) :
    ∃ places recycled, Rep t places recycled ∧ stored t places = m := by
  induction h with
  | start t h =>
    obtain ⟨t',places,recycled,hr,hs,hrun⟩ := create_spec headersInPage preallocate
    rw [hrun] at h
    cases h
    exact ⟨places,recycled,hr,hs⟩
  | step t t' m op code _ hop happly ih =>
    obtain ⟨places,recycled,hr,rfl⟩ := ih
    obtain ⟨t1,places',recycled',hr',hs',hrun,-⟩ := apply_spec t places recycled op hr hop
    rw [hrun] at happly
    cases happly
    exact ⟨places',recycled',hr',hs'⟩

/-- The tree is a longest prefix map in every state that careful operations
reach from a new tree, and there the careful operations are the ones that keep
the law. -/
theorem radix_tree_law (headersInPage : ℕ) (preallocate : ℤ) :
    (∃ t, ngxRadixTreeCreate headersInPage preallocate = .ok (t, .ok)) ∧
    ∀ t m, Reached Careful headersInPage preallocate t m →
      Finds t m ∧ ∀ op, StepLaw t m op ↔ Careful t op := by
  constructor
  · obtain ⟨t,-,-,-,-,hrun⟩ := create_spec headersInPage preallocate
    exact ⟨t,hrun⟩
  · intro t m h
    obtain ⟨places,recycled,hr,rfl⟩ := reached_rep headersInPage preallocate t m h
    refine ⟨fun key => find_spec t places recycled key hr,fun op => ⟨?_,?_⟩⟩
    · intro hlaw
      by_contra hop
      exact careless_deletion t places recycled op hr hop hlaw
    · intro hop
      obtain ⟨t',places',recycled',hr',hs',hrun,hsame⟩ :=
        apply_spec t places recycled op hr hop
      refine ⟨t',hrun,hsame,fun key => ?_⟩
      rw [find_spec t' places' recycled' key hr', hs']

instance (t : Tree) (op : Op) : Decidable (Careful t op) :=
  match op with
  | .insert _ _ _ => isTrue trivial
  | .delete _ _ => inferInstanceAs (Decidable (_ ∨ _))

def runStep (s : Tree × Entries Bool UInt64) (op : Op) : Option (Tree × Entries Bool UInt64) :=
  (apply s.1 op).toOption.map fun out => (out.1, (refStep s.2 op).1)

theorem run_step_reached (s : Tree × Entries Bool UInt64) (op : Op)
    (s' : Tree × Entries Bool UInt64) (hs : Reached Careful 102 0 s.1 s.2)
    (hop : decide (Careful s.1 op) = true) (h : runStep s op = some s') :
    Reached Careful 102 0 s'.1 s'.2 := by
  rw [runStep] at h
  cases happly : apply s.1 op with
  | error => simp [happly, Except.toOption] at h
  | ok out =>
    rw [happly] at h
    cases h
    exact hs.step _ _ _ op out.2 (of_decide_eq_true hop) happly

/-- The eight nodes below 10.0.0.0/8 come back, and seven of them go to 10.2.0.0/15. -/
def reusing : List Op := [.insert 0x0a000000 8 1, .insert 0x0a010000 16 2, .delete 0x0a010000 16,
  .insert 0x0a020000 15 3]

theorem reusing_run : (Runs.run runStep (fun s op => Careful s.1 op) (bareTree, empty) reusing).any
    (fun s => s.1.free ≠ 0 ∧ s.2 (keyPath 0x0a020000 15) = some 3 ∧
      s.2 (keyPath 0x0a010000 16) = none) = true := by
  decide +kernel

theorem radix_tree_law_reused : ∃ t m,
    (t.free ≠ 0 ∧ m (keyPath 0x0a020000 15) = some 3 ∧ m (keyPath 0x0a010000 16) = none) ∧
    Finds t m ∧ ∀ op, StepLaw t m op ↔ Careful t op := by
  obtain ⟨⟨t,m⟩,hreached,hlast⟩ := Runs.run_reaches runStep (fun s op => Careful s.1 op)
    (fun s => Reached Careful 102 0 s.1 s.2) run_step_reached reusing (bareTree, empty)
    (.start bareTree rfl) _ reusing_run
  exact ⟨t,m,of_decide_eq_true hlast,(radix_tree_law 102 0).2 t m hreached⟩

/-- Deleting the empty prefix from a tree that holds nothing. -/
theorem bare_root_deleted : ¬∀ (headersInPage : ℕ) (preallocate : ℤ) (t : Tree)
    (m : Entries Bool UInt64), Reached (fun _ _ => True) headersInPage preallocate t m →
    ∀ op, StepLaw t m op := by
  intro h
  obtain ⟨t',hrun,-⟩ := h 102 0 bareTree empty (.start bareTree rfl) (.delete 0 0)
  have hfault : apply bareTree (.delete 0 0) = .error .nullPointer := rfl
  rw [hfault] at hrun
  cases hrun

end Nginx.RadixTreeLaw
