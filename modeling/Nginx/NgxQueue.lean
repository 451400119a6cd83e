import Nginx.LinkedRing
import Nginx.StaticLocationsQueue

/-!
# Sorting arrays and queues

An array is sorted in its place, by moving what is greater one element up, and a queue by
taking each element out of the ring and putting it in again further back. Both leave the
list that inserting from the back gives. The middle of a queue is found with two cursors, of
which one goes twice as fast.
-/

set_option autoImplicit false

namespace Nginx.NgxQueue
open LinkedRing

section Lists
variable {α : Type} (cmp : α → α → ℤ)

/-- A comparison function that orders all elements, some of them perhaps as equal. -/
structure TotalPreorder : Prop where
  total : ∀ a b, cmp a b ≤ 0 ∨ cmp b a ≤ 0
  trans : ∀ a b c, cmp a b ≤ 0 → cmp b c ≤ 0 → cmp a c ≤ 0

def Same (a b : α) : Prop := cmp a b ≤ 0 ∧ cmp b a ≤ 0

instance (a : α) : DecidablePred (Same cmp a) := fun b =>
  inferInstanceAs (Decidable (cmp a b ≤ 0 ∧ cmp b a ≤ 0))

/-- The same elements in order, and each class of equal ones in the order it had. -/
structure Sorts (l l' : List α) : Prop where
  perm : l'.Perm l
  sorted : l'.Pairwise (fun a b => cmp a b ≤ 0)
  stable : ∀ a, l'.filter (Same cmp a) = l.filter (Same cmp a)

def insertBack (sorted : List α) (q : α) : List α :=
  sorted.orderedInsert (fun q prev => cmp prev q ≤ 0) q

theorem insert_back_cons (prev q : α) (sorted : List α) : insertBack cmp (prev::sorted) q =
    if cmp prev q ≤ 0 then q::prev::sorted else prev::insertBack cmp sorted q :=
  List.orderedInsert_cons ..

theorem sort_eq_foldl (l : List α) :
    StaticLocations.ngxQueueSort cmp l = (l.foldl (insertBack cmp) []).reverse := rfl

theorem sort_concat (l : List α) (q : α) : StaticLocations.ngxQueueSort cmp (l++[q]) =
    (insertBack cmp (StaticLocations.ngxQueueSort cmp l).reverse q).reverse := by
  rw [sort_eq_foldl, sort_eq_foldl, List.foldl_append, List.reverse_reverse, List.foldl_cons,
    List.foldl_nil]

theorem insert_back_filter (hcmp : TotalPreorder cmp) (a q : α) (sorted : List α) :
    (insertBack cmp sorted q).filter (Same cmp a) =
      [q].filter (Same cmp a)++sorted.filter (Same cmp a) := by
  induction sorted with
  | nil => rw [List.filter_nil, List.append_nil]; rfl
  | cons prev sorted ih =>
    rw [insert_back_cons]
    split_ifs with hle
    · rw [← List.filter_append, List.singleton_append]
    · by_cases hq : Same cmp a q
      · have hprev : decide (Same cmp a prev) = false := decide_eq_false (fun h =>
          hle (hcmp.trans prev a q h.2 hq.1))
        simp only [List.filter_cons, hprev] at ih ⊢
        exact ih
      have hnone : [q].filter (Same cmp a) = [] := List.filter_cons_of_neg (by simpa using hq)
      rw [hnone, List.nil_append] at ih ⊢
      rw [List.filter_cons, ih, List.filter_cons]

theorem foldl_filter (hcmp : TotalPreorder cmp) (a : α) (l sorted : List α) :
    (l.foldl (insertBack cmp) sorted).filter (Same cmp a) =
      (l.filter (Same cmp a)).reverse++sorted.filter (Same cmp a) := by
  induction l generalizing sorted with
  | nil => rfl
  | cons q l ih =>
    rw [List.foldl_cons, ih, insert_back_filter cmp hcmp, ← List.append_assoc,
      ← List.singleton_append (l := l), List.filter_append, List.reverse_append]
    congr 2
    rw [List.filter_cons]
    split_ifs <;> rfl

theorem sort_sorts (hcmp : TotalPreorder cmp) (l : List α) :
    Sorts cmp l (StaticLocations.ngxQueueSort cmp l) := by
  obtain ⟨hsorted,hperm⟩ :=
    StaticLocationsQueue.queueSort_sorted cmp hcmp.total hcmp.trans l
  refine ⟨hperm,hsorted,fun a => ?_⟩
  rw [sort_eq_foldl, List.filter_reverse, foldl_filter cmp hcmp, List.filter_nil, List.append_nil,
    List.reverse_reverse]

end Lists

section Arrays
variable {α : Type} (cmp : α → α → ℤ)

/-- The inner loop of `ngx_sort` and the copy behind it; `p2` elements are before the gap. -/
def shift (p : α) : ℕ → (ℕ → α) → ℕ → α
  | 0, base => Function.update base 0 p
  | p2+1, base =>
    if cmp (base p2) p > 0 then shift p p2 (Function.update base (p2+1) (base p2))
    else Function.update base (p2+1) p

/-- `ngx_sort`; `allocated` says that there was memory for one element. -/
def ngxSort (allocated : Bool) (base : ℕ → α) (n : ℕ) : ℕ → α :=
  if allocated then
    (List.range' 1 (n-1)).foldl (fun base p1 => shift cmp (base p1) p1 base) base
  else base

def elements (base : ℕ → α) (n : ℕ) : List α := (List.range n).map base

theorem elements_succ (base : ℕ → α) (n : ℕ) :
    elements base (n+1) = elements base n++[base n] := by
  rw [elements, List.range_succ, List.map_append]
  rfl

theorem elements_congr (base base' : ℕ → α) (n : ℕ) (h : ∀ k < n, base k = base' k) :
    elements base n = elements base' n :=
  List.map_congr_left (fun k hk => h k (List.mem_range.mp hk))

theorem shift_above (p : α) (p2 : ℕ) (base : ℕ → α) (k : ℕ) (hk : p2 < k) :
    shift cmp p p2 base k = base k := by
  induction p2 generalizing base with
  | zero => exact Function.update_of_ne (by omega) ..
  | succ p2 ih =>
    rw [shift]
    split_ifs
    · rw [ih _ (by omega), Function.update_of_ne (by omega)]
    · exact Function.update_of_ne (by omega) ..

theorem shift_elements (p : α) (p2 : ℕ) (base : ℕ → α) :
    elements (shift cmp p p2 base) (p2+1) =
      (insertBack cmp (elements base p2).reverse p).reverse := by
  induction p2 generalizing base with
  | zero => rfl
  | succ p2 ih =>
    rw [elements_succ base p2, List.reverse_append, List.reverse_singleton, List.singleton_append,
      insert_back_cons, shift]
    by_cases hgreater : cmp (base p2) p > 0
    · rw [if_pos hgreater, if_neg (by omega), elements_succ, ih, List.reverse_cons,
        shift_above cmp p p2 _ (p2+1) (by omega), Function.update_self]
      congr 4
      exact elements_congr _ _ p2 (fun k hk => Function.update_of_ne (by omega) ..)
    rw [if_neg hgreater, if_pos (by omega), elements_succ, Function.update_self,
      elements_congr _ base (p2+1) (fun k hk => Function.update_of_ne (by omega) ..),
      elements_succ]
    simp

/-- The elements that have been reached are sorted, the others are as they were. -/
structure Reached (base : ℕ → α) (k : ℕ) (base' : ℕ → α) : Prop where
  sorted : elements base' k = StaticLocations.ngxQueueSort cmp (elements base k)
  above : ∀ j, k ≤ j → base' j = base j

theorem reached_step (base base' : ℕ → α) (k : ℕ) (h : Reached cmp base k base') :
    Reached cmp base (k+1) (shift cmp (base' k) k base') := by
  refine ⟨?_,fun j hj => ?_⟩
  · rw [shift_elements, elements_succ, sort_concat, h.sorted, h.above k (Nat.le_refl k)]
  · rw [shift_above cmp _ k base' j (by omega), h.above j (by omega)]

theorem reached_run (base base' : ℕ → α) (k turns : ℕ) (h : Reached cmp base k base') :
    Reached cmp base (k+turns) ((List.range' k turns).foldl
      (fun base p1 => shift cmp (base p1) p1 base) base') := by
  induction turns generalizing k base' with
  | zero => exact h
  | succ turns ih =>
    rw [List.range'_succ, List.foldl_cons]
    have := ih _ (k+1) (reached_step cmp base base' k h)
    rwa [Nat.add_right_comm] at this

theorem ngx_sort_reached (base : ℕ → α) (n : ℕ) : Reached cmp base n (ngxSort cmp true base n) := by
  cases n with
  | zero => exact ⟨rfl,fun _ _ => rfl⟩
  | succ n =>
    have := reached_run cmp base base 1 n ⟨rfl,fun _ _ => rfl⟩
    rwa [Nat.add_comm] at this

end Arrays

section Queues
variable {α : Type} [DecidableEq α]

/-- The `do` loop of `ngx_queue_sort`; the element goes behind the result. -/
def takeBack (m : Links α) (cmp : α → α → ℤ) (queue q : α) : ℕ → α → Option α
  | 0, _ => none
  | fuel+1, prev =>
    if cmp prev q ≤ 0 then some prev
    else
      let prev := m.prev prev
      if prev ≠ queue then takeBack m cmp queue q fuel prev else some prev

/-- The outer loop; each run of the inner one has as many turns as the bound allows. -/
def sortLoop (cmp : α → α → ℤ) (queue : α) (bound : ℕ) : ℕ → Links α → α → Option (Links α)
  | 0, _, _ => none
  | fuel+1, m, q =>
    if q ≠ queue then
      let prev := m.prev q
      let next := m.next q
      let m := m.remove q
      (takeBack m cmp queue q bound prev).bind (fun prev =>
        sortLoop cmp queue bound fuel (m.insertAfter prev q) next)
    else some m

def ngxQueueSort (cmp : α → α → ℤ) (queue : α) (bound : ℕ) (m : Links α) : Option (Links α) :=
  let q := m.next queue
  if q = m.prev queue then some m else sortLoop cmp queue bound bound m (m.next q)

def middleLoop (m : Links α) (queue : α) : ℕ → α → α → Option α
  | 0, _, _ => none
  | fuel+1, middle, next =>
    let middle := m.next middle
    let next := m.next next
    if next = m.prev queue then some middle
    else
      let next := m.next next
      if next = m.prev queue then some middle else middleLoop m queue fuel middle next

def ngxQueueMiddle (m : Links α) (queue : α) (bound : ℕ) : Option α :=
  let middle := m.next queue
  if middle = m.prev queue then some middle
  else middleLoop m queue bound middle (m.next queue)

theorem take_back_place (m : Links α) (cmp : α → α → ℤ) (queue q : α) (sorted rest : List α)
    (prev : α) (fuel : ℕ) (hring : Looped m queue (sorted++prev::rest))
    (hfuel : sorted.length < fuel) :
    ∃ a b p, sorted++[prev] = a++b ∧ (queue::a).getLast? = some p ∧
      takeBack m cmp queue q fuel prev = some p ∧
      insertBack cmp (sorted++[prev]).reverse q = (a++q::b).reverse := by
  induction fuel generalizing sorted rest prev with
  | zero => omega
  | succ fuel ih =>
    rw [List.reverse_append, List.reverse_singleton, List.singleton_append, insert_back_cons,
      takeBack]
    by_cases hle : cmp prev q ≤ 0
    · refine ⟨sorted++[prev],[],prev,(List.append_nil _).symm,?_,if_pos hle,?_⟩
      · rw [← List.cons_append, List.getLast?_concat]
      · rw [if_pos hle]
        simp
    rw [if_neg hle, if_neg hle]
    rcases List.eq_nil_or_concat' sorted with rfl | ⟨sorted,before,rfl⟩
    · have hhead := (ring_first m queue prev rest hring).2
      refine ⟨[],[prev],queue,rfl,rfl,?_,rfl⟩
      simp only [hhead, ne_eq, not_true_eq_false, if_false]
    rw [List.append_assoc] at hring
    have hbefore := (ring_within m queue before prev sorted rest hring).2
    have hne : before ≠ queue := by
      rintro rfl
      exact (List.nodup_cons.mp hring.nodup).1 (by simp)
    rw [List.length_append, List.length_singleton] at hfuel
    obtain ⟨a,b,p,hsplit,hp,htake,hinsert⟩ :=
      ih sorted (prev::rest) before hring (by omega)
    refine ⟨a,b++[prev],p,?_,hp,?_,?_⟩
    · rw [hsplit, List.append_assoc]
    · simp only [hbefore]
      rw [if_pos hne, htake]
    · rw [hinsert]
      simp

theorem sort_loop_ring (cmp : α → α → ℤ) (queue : α) (bound fuel : ℕ) (m : Links α)
    (sorted rest : List α) (q : α) (hring : Looped m queue (sorted++rest)) (hsorted : sorted ≠ [])
    (hq : (rest++[queue]).head? = some q) (hbound : sorted.length+rest.length ≤ bound)
    (hfuel : rest.length < fuel) :
    ∃ m', sortLoop cmp queue bound fuel m q = some m' ∧
      Looped m' queue (rest.foldl (insertBack cmp) sorted.reverse).reverse := by
  induction fuel generalizing m sorted rest q with
  | zero => omega
  | succ fuel ih =>
    rw [sortLoop]
    cases rest with
    | nil =>
      rw [List.nil_append, List.head?_cons, Option.some.injEq] at hq
      refine ⟨m,if_neg (fun hne => hne hq.symm),?_⟩
      rw [List.append_nil] at hring
      rw [List.foldl_nil, List.reverse_reverse]
      exact hring
    | cons x rest =>
      rw [List.cons_append, List.head?_cons, Option.some.injEq] at hq
      subst hq
      have hne : x ≠ queue := by
        rintro rfl
        exact (List.nodup_cons.mp hring.nodup).1 (by simp)
      obtain ⟨before,prev,hprev⟩ : ∃ before prev, sorted = before++[prev] :=
        (List.eq_nil_or_concat' sorted).resolve_left hsorted
      rw [hprev, List.append_assoc] at hring
      have hlink := (ring_within m queue prev x before rest hring).2
      obtain ⟨next,hnext⟩ : ∃ next, (rest++[queue]).head? = some next :=
        Option.ne_none_iff_exists'.mp (by simp)
      have hnextLink : m.next x = next := by
        obtain ⟨tail,htail⟩ := List.head?_eq_some_iff.mp hnext
        refine (ring_link m queue x next _ (queue::(before++[prev])) tail hring ?_).1
        rw [← htail]
        simp
      rw [if_pos hne]
      have hremoved : Looped (m.remove x) queue (before++prev::rest) := by
        have := ring_remove m queue x (before++[prev]) rest (by simpa using hring)
        simpa using this
      have hlen : before.length < bound := by
        simp only [hprev, List.length_append, List.length_cons, List.length_nil] at hbound
        omega
      obtain ⟨a,b,p,hsplit,hp,htake,hinsert⟩ := take_back_place (m.remove x) cmp queue x
        before rest prev bound hremoved hlen
      have hfresh : x ∉ queue::(a++(b++rest)) := by
        rw [← List.append_assoc, ← hsplit]
        have hnodup := hring.nodup
        have : (queue::(before++[prev]++x::rest)).Nodup := by simpa using hnodup
        rw [(List.perm_middle.cons queue).nodup_iff, (List.Perm.swap x queue _).nodup_iff] at this
        exact (List.nodup_cons.mp this).1
      have hinserted := ring_insert_after (m.remove x) queue p x a (b++rest) (by
        rw [← List.append_assoc, ← hsplit]
        simpa using hremoved) hp hfresh
      obtain ⟨m',hloop,hring'⟩ := ih ((m.remove x).insertAfter p x) (a++x::b) rest next
        (by simpa using hinserted) (by simp) hnext (by
          have := congrArg List.length hsplit
          simp only [hprev, List.length_append, List.length_cons, List.length_nil] at hbound this ⊢
          omega) (Nat.lt_of_succ_lt_succ hfuel)
      refine ⟨m',?_,?_⟩
      · simp only [hlink, hnextLink, htake, Option.bind_some]
        exact hloop
      · rw [List.foldl_cons, hprev, hinsert]
        exact hring'

theorem ngx_queue_sort_ring (cmp : α → α → ℤ) (queue : α) (bound : ℕ) (m : Links α) (l : List α)
    (hring : Looped m queue l) (hbound : l.length ≤ bound) :
    ∃ m', ngxQueueSort cmp queue bound m = some m' ∧
      Looped m' queue (StaticLocations.ngxQueueSort cmp l) := by
  rw [ngxQueueSort]
  cases l with
  | nil =>
    have hlink := ring_empty m queue hring
    exact ⟨m,if_pos (hlink.1.trans hlink.2.symm),hring⟩
  | cons x l =>
    have hfirst := (ring_first m queue x l hring).1
    cases l with
    | nil =>
      have hlast := (ring_last m queue x [] hring).2
      exact ⟨m,if_pos (hfirst.trans hlast.symm),hring⟩
    | cons y l =>
      have hsecond := (ring_within m queue x y [] l hring).1
      obtain ⟨before,last,hlast⟩ : ∃ before last, y::l = before++[last] :=
        (List.eq_nil_or_concat' _).resolve_left (List.cons_ne_nil y l)
      have hprev := (ring_last m queue last (x::before) (by rwa [hlast] at hring)).2
      have hne : x ≠ last := by
        rintro rfl
        have hnodup := (List.nodup_cons.mp hring.nodup).2
        rw [hlast] at hnodup
        exact (List.nodup_cons.mp hnodup).1 (by simp)
      rw [hfirst, hprev]
      simp only [if_neg hne, hsecond]
      refine sort_loop_ring cmp queue bound bound m [x] (y::l) y hring (by simp) rfl ?_ ?_
      · simpa [Nat.add_comm] using hbound
      · simp only [List.length_cons] at hbound ⊢
        omega

omit [DecidableEq α] in
theorem at_last (m : Links α) (queue : α) (l : List α) (hring : Looped m queue l) (i : ℕ)
    (hi : i < l.length) : l[i] = m.prev queue ↔ i+1 = l.length := by
  obtain ⟨before,last,rfl⟩ : ∃ before last, l = before++[last] := by
    refine (List.eq_nil_or_concat' l).resolve_left ?_
    rintro rfl
    exact Nat.not_lt_zero i hi
  rw [(ring_last m queue last before hring).2]
  have hend : before.length < (before++[last]).length := by simp
  have hlast : (before++[last])[before.length] = last := by simp
  have hinj : (before++[last])[i] = (before++[last])[before.length] ↔ i = before.length :=
    (List.nodup_cons.mp hring.nodup).2.getElem_inj_iff
  rw [hlast] at hinj
  rw [hinj, List.length_append, List.length_singleton]
  omega

theorem middle_loop_index (m : Links α) (queue : α) (l : List α) (hring : Looped m queue l)
    (fuel i : ℕ) (hi : 2*i+1 < l.length) (hfuel : l.length < fuel+2*i+2) :
    middleLoop m queue fuel l[i] l[2*i] = l[l.length/2]? := by
  induction fuel generalizing i with
  | zero => omega
  | succ fuel ih =>
    have hmiddle := (ring_index m queue l hring i (by omega)).1
    have hnext := (ring_index m queue l hring (2*i) hi).1
    rw [middleLoop]
    simp only [hmiddle, hnext, at_last m queue l hring (2*i+1) hi]
    by_cases heven : 2*i+1+1 = l.length
    · have hhalf : l.length/2 = i+1 := by omega
      rw [if_pos heven, hhalf, List.getElem?_eq_getElem (by omega)]
    have hagain := (ring_index m queue l hring (2*i+1) (by omega)).1
    simp only [if_neg heven, hagain, at_last m queue l hring (2*i+1+1) (by omega)]
    split_ifs with hodd
    · have hhalf : l.length/2 = i+1 := by omega
      rw [hhalf, List.getElem?_eq_getElem (by omega)]
    · exact ih (i+1) (by omega) (by omega)

theorem ngx_queue_middle_index (m : Links α) (queue : α) (bound : ℕ) (l : List α)
    (hring : Looped m queue l) (hne : l ≠ []) (hbound : l.length ≤ bound) :
    ngxQueueMiddle m queue bound = l[l.length/2]? := by
  cases l with
  | nil => exact absurd rfl hne
  | cons x l =>
    have hfirst := (ring_first m queue x l hring).1
    have hlast := at_last m queue (x::l) hring 0 (Nat.zero_lt_succ _)
    rw [List.getElem_cons_zero] at hlast
    rw [ngxQueueMiddle]
    simp only [hfirst, hlast]
    split_ifs with hone
    · rw [← hone]
      rfl
    · rw [List.length_cons] at hone
      exact middle_loop_index m queue (x::l) hring bound 0 (by rw [List.length_cons]; omega)
        (by omega)

end Queues

/-- With memory for one element an array is sorted and nothing behind it changes, without it
the array stays as it is. A queue is sorted and is a ring again. The middle of a queue is the
element at half the number of elements, rounded down. -/
theorem stable_sorts {α β : Type} [DecidableEq β] (cmp : α → α → ℤ) (cmpQueue : β → β → ℤ)
    (hcmp : TotalPreorder cmp) (hcmpQueue : TotalPreorder cmpQueue) :
    (∀ (base : ℕ → α) (n : ℕ),
      Sorts cmp (elements base n) (elements (ngxSort cmp true base n) n) ∧
      (∀ k ≥ n, ngxSort cmp true base n k = base k) ∧ ngxSort cmp false base n = base) ∧
    (∀ (m : Links β) (queue : β) (l : List β) (bound : ℕ), Looped m queue l → l.length ≤ bound →
      ∃ m' l', ngxQueueSort cmpQueue queue bound m = some m' ∧ Looped m' queue l' ∧
        Sorts cmpQueue l l') ∧
    ∀ (m : Links β) (queue : β) (l : List β) (bound : ℕ), Looped m queue l → l ≠ [] →
      l.length ≤ bound → ngxQueueMiddle m queue bound = l[l.length/2]? := by
  refine ⟨fun base n => ?_,fun m queue l bound hring hbound => ?_,
    fun m queue l bound hring hne hbound => ngx_queue_middle_index m queue bound l hring hne hbound⟩
  · have hreached := ngx_sort_reached cmp base n
    refine ⟨?_,hreached.above,rfl⟩
    rw [hreached.sorted]
    exact sort_sorts cmp hcmp _
  · obtain ⟨m',hsort,hring'⟩ := ngx_queue_sort_ring cmpQueue queue bound m l hring hbound
    exact ⟨m',_,hsort,hring',sort_sorts cmpQueue hcmpQueue l⟩

def difference (a b : ℕ) : ℤ := (a : ℤ)-b

theorem difference_preorder : TotalPreorder difference := by
  constructor
  · intro a b
    simp only [difference]
    omega
  · intro a b c hab hbc
    simp only [difference] at hab hbc ⊢
    omega

def three : Links ℕ where
  next := fun q => [3,2,0,1].getD q 0
  prev := fun q => [2,3,1,0].getD q 0

theorem three_looped : Looped three 0 [3,1,2] := by
  refine ⟨by decide,?_⟩
  simp [Link, three]

/-- An array and a queue of three elements. -/
theorem stable_sorts_three :
    Sorts difference [3,1,2] (elements (ngxSort difference true ([3,1,2].getD · 0) 3) 3) ∧
    (∃ m' l', ngxQueueSort difference 0 3 three = some m' ∧ Looped m' 0 l' ∧
      Sorts difference [3,1,2] l') ∧ ngxQueueMiddle three 0 3 = some 1 := by
  obtain ⟨harray,hqueue,hmiddle⟩ :=
    stable_sorts difference difference difference_preorder difference_preorder
  exact ⟨(harray ([3,1,2].getD · 0) 3).1,hqueue three 0 [3,1,2] 3 three_looped (by decide),
    hmiddle three 0 [3,1,2] 3 three_looped (by decide) (by decide)⟩

/-- Without memory for one element an array stays out of order. -/
theorem unsorted_without_memory : ¬ ∀ (cmp : ℕ → ℕ → ℤ) (allocated : Bool) (base : ℕ → ℕ) (n : ℕ),
    TotalPreorder cmp → Sorts cmp (elements base n) (elements (ngxSort cmp allocated base n) n) := by
  intro hall
  have hsorted := (hall difference false ([2,1].getD · 0) 2 difference_preorder).sorted
  have hpair : difference 2 1 ≤ 0 := List.rel_of_pairwise_cons hsorted List.mem_cons_self
  exact absurd hpair (by decide)

end Nginx.NgxQueue
