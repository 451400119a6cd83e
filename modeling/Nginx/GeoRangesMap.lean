import Nginx.GeoRanges
import Mathlib.Data.List.Induction

/-!
# The arrays of a geo block as a map

Adding a piece to a sorted array carves it out of the one range that it meets.
The invariant of an array speaks about the owner of every offset: a range has
one owner, a gap has none, and the offset behind a range does not have the
owner of the range.
-/

set_option autoImplicit false

namespace Nginx.GeoRangesMap
open Nginx.CellMove Nginx.GeoRanges

variable {α : Type*}

variable (post : List (Range α))

theorem take_cells (spare : List (Range α)) :
    ∃ cells, (post++spare).take spare.length = cells ∧ cells.length = spare.length :=
  ⟨_,rfl,by simp⟩

variable (pre : List (Range α))

theorem add_after_eq (post : List (Range α)) (r : Range α) (s e : ℕ) (v : α) :
    addAfter (pre++r::post) pre.length s e v = pre++r::⟨s,e,v⟩::post := by
  obtain ⟨cells,hcells,hlen⟩ := take_cells post (List.replicate 1 (unset v))
  have hm := memmove_open (pre++[r]) post (List.replicate 1 (unset v))
  have hcount : (pre++r::post++List.replicate 1 (unset v)).length-2-pre.length = post.length := by
    simp only [List.length_append, List.length_cons, List.length_replicate]
    omega
  rw [hcells] at hm
  simp only [addAfter, ngxArrayPush]
  rw [hcount]
  simp only [List.length_append, List.length_cons, List.length_nil, List.length_replicate,
    List.append_assoc, List.cons_append, List.nil_append] at hm hlen ⊢
  obtain ⟨c,rfl⟩ := List.length_eq_one_iff.mp hlen
  rw [hm]
  simp

theorem split_range_eq (post : List (Range α)) (r : Range α) (s e : ℕ) (v : α) :
    splitRange (pre++r::post) pre.length r s e v =
      pre++{ r with stop := s-1 }::⟨s,e,v⟩::⟨e+1,r.stop,r.value⟩::post := by
  obtain ⟨cells,hcells,hlen⟩ := take_cells post (List.replicate 2 (unset v))
  have hm := memmove_open (pre++[r]) post (List.replicate 2 (unset v))
  have hcount : (pre++r::post++List.replicate 2 (unset v)).length-3-pre.length = post.length := by
    simp only [List.length_append, List.length_cons, List.length_replicate]
    omega
  rw [hcells] at hm
  simp only [splitRange, ngxArrayPush]
  rw [hcount]
  simp only [List.length_append, List.length_cons, List.length_nil, List.length_replicate,
    List.append_assoc, List.cons_append, List.nil_append] at hm hlen ⊢
  obtain ⟨c,d,rfl⟩ := List.length_eq_two.mp hlen
  rw [hm]
  simp

theorem modify_behind (post : List (Range α)) (c r : Range α) (f : Range α → Range α) :
    (pre++c::r::post).modify (pre.length+1) f = pre++c::f r::post := by
  induction pre with
  | nil => rfl
  | cons x pre ih => simp [ih]

theorem shift_start_eq (post : List (Range α)) (r : Range α) (s e : ℕ) (v : α) :
    shiftStart (pre++r::post) pre.length s e v = pre++⟨s,e,v⟩::{ r with start := e+1 }::post := by
  obtain ⟨cells,hcells,hlen⟩ := take_cells (r::post) (List.replicate 1 (unset v))
  have hm := memmove_open pre (r::post) (List.replicate 1 (unset v))
  have hcount : (pre++r::post++List.replicate 1 (unset v)).length-1-pre.length =
      (r::post).length := by
    simp only [List.length_append, List.length_cons, List.length_replicate]
    omega
  rw [hcells] at hm
  simp only [shiftStart, ngxArrayPush]
  rw [hcount]
  simp only [List.length_cons, List.length_replicate, List.append_assoc, List.cons_append]
    at hm hlen ⊢
  obtain ⟨c,rfl⟩ := List.length_eq_one_iff.mp hlen
  rw [hm, List.cons_append, List.nil_append, modify_behind]
  simp

theorem shift_end_eq (post : List (Range α)) (r : Range α) (s e : ℕ) (v : α) :
    shiftEnd (pre++r::post) pre.length r s e v = pre++{ r with stop := s-1 }::⟨s,e,v⟩::post := by
  have h := add_after_eq pre post r s e v
  simp only [addAfter, shiftEnd] at h ⊢
  rw [h]
  simp

def carve (r : Range α) (s e : ℕ) (v : α) : List (Range α) :=
  (if r.start < s then [⟨r.start,min r.stop (s-1),r.value⟩] else [])++
    ⟨s,e,v⟩::(if e < r.stop then [⟨e+1,r.stop,r.value⟩] else [])

variable (a : List (Range α))

/-- The scan finds the last range that begins before the piece ends, and the
piece lies behind it or within it. -/
theorem add_piece_spec (a' : List (Range α)) (s e : ℕ) (v : α) (pre post : List (Range α))
    (ha : a = pre++post) (hpost : ∀ r ∈ post, e < r.start) (hwf : ∀ r ∈ a, r.start ≤ r.stop)
    (hse : s ≤ e) (h : addPiece a s e v pre.length = some a') :
    (∃ left r right, a = left++r::right ∧ (∀ x ∈ right, e < x.start) ∧ r.start ≤ e ∧
      (r.stop < s ∨ (r.start ≤ s ∧ e ≤ r.stop)) ∧ a' = left++carve r s e v++right) ∨
    ((∀ r ∈ a, e < r.start) ∧ a' = a++[⟨s,e,v⟩]) := by
  induction pre using List.reverseRecOn generalizing post with
  | nil =>
    right
    simp only [List.length_nil, addPiece, Option.some.injEq] at h
    exact ⟨by rw [ha]; exact hpost,h.symm⟩
  | append_singleton pre r ih =>
    have hget : a[pre.length]? = some r := by simp [ha]
    rw [List.length_append, List.length_singleton, addPiece, hget] at h
    simp only at h
    have hsplit : a = pre++r::post := by simp [ha]
    have hr := hwf r (by rw [hsplit]; simp)
    by_cases h1 : e < r.start
    · rw [if_pos h1] at h
      refine ih (r::post) hsplit ?_ h
      intro x hx
      rcases List.mem_cons.mp hx with rfl | hx
      · exact h1
      · exact hpost x hx
    left
    refine ⟨pre,r,post,hsplit,hpost,by omega,?_⟩
    rw [if_neg h1, hsplit] at h
    by_cases h2 : r.stop < s
    · rw [if_pos h2, add_after_eq, Option.some.injEq] at h
      have hmin : min r.stop (s-1) = r.stop := by omega
      exact ⟨Or.inl h2,by simp [← h, carve, show r.start < s by omega,
        show ¬e < r.stop by omega, hmin]⟩
    rw [if_neg h2] at h
    have hmin : min r.stop (s-1) = s-1 := by omega
    by_cases h3 : s = r.start ∧ e = r.stop
    · rw [if_pos h3, Option.some.injEq] at h
      refine ⟨Or.inr (by omega),?_⟩
      obtain ⟨rfl,rfl⟩ := h3
      simp [← h, carve]
    rw [if_neg h3] at h
    by_cases h4 : r.start < s ∧ e < r.stop
    · rw [if_pos h4, split_range_eq, Option.some.injEq] at h
      exact ⟨Or.inr (by omega),by simp [← h, carve, h4.1, h4.2, hmin]⟩
    rw [if_neg h4] at h
    by_cases h5 : s = r.start ∧ e < r.stop
    · rw [if_pos h5, shift_start_eq, Option.some.injEq] at h
      exact ⟨Or.inr (by omega),by simp [← h, carve, h5.2, show ¬r.start < s by omega]⟩
    rw [if_neg h5] at h
    by_cases h6 : r.start < s ∧ e = r.stop
    · rw [if_pos h6, shift_end_eq, Option.some.injEq] at h
      exact ⟨Or.inr (by omega),by simp [← h, carve, h6.1, show ¬e < r.stop by omega, hmin]⟩
    · rw [if_neg h6] at h
      cases h

structure Owner (α : Type*) where
  serial : ℕ
  start : ℕ
  stop : ℕ
  value : α

structure Sound (a : List (Range α)) (owner : ℕ → Option (Owner α)) : Prop where
  sorted : a.Pairwise (fun r x => r.stop < x.start)
  bounds : ∀ r ∈ a, r.start ≤ r.stop ∧ r.stop ≤ 0xffff
  owned : ∀ r ∈ a, ∃ w : Owner α, w.value = r.value ∧
    ∀ n, r.start ≤ n → n ≤ r.stop → owner n = some w
  gap : ∀ n, n ≤ 0xffff → (∀ r ∈ a, ¬(r.start ≤ n ∧ n ≤ r.stop)) → owner n = none
  edge : ∀ r ∈ a, r.stop < 0xffff → owner (r.stop+1) ≠ owner r.stop

def claimed (owner : ℕ → Option (Owner α)) (s e : ℕ) (w : Option (Owner α)) :
    ℕ → Option (Owner α) := fun n => if s ≤ n ∧ n ≤ e then w else owner n

variable (owner : ℕ → Option (Owner α)) (s e n : ℕ)

theorem claimed_in (w : Option (Owner α)) (h1 : s ≤ n) (h2 : n ≤ e) :
    claimed owner s e w n = w := if_pos ⟨h1,h2⟩

theorem claimed_out (w : Option (Owner α)) (h : n < s ∨ e < n) :
    claimed owner s e w n = owner n := if_neg (by omega)

variable (left right : List (Range α)) (r : Range α)

theorem sound_neighbours (owner : ℕ → Option (Owner α)) (h : Sound (left++r::right) owner) :
    (∀ x ∈ left, x.stop < r.start) ∧ (∀ x ∈ right, r.stop < x.start) := by
  obtain ⟨-,hr,hcross⟩ := List.pairwise_append.mp h.sorted
  exact ⟨fun x hx => hcross x hx r (by simp),fun x hx => (List.pairwise_cons.mp hr).1 x hx⟩

theorem owner_some (h : Sound a owner) (r : Range α) (hr : r ∈ a) (n : ℕ) (h1 : r.start ≤ n)
    (h2 : n ≤ r.stop) : ∃ w, owner n = some w ∧ w.value = r.value := by
  obtain ⟨w,hv,how⟩ := h.owned r hr
  exact ⟨w,how n h1 h2,hv⟩

theorem mem_carve (x : Range α) (s e : ℕ) (v : α) :
    x ∈ left++carve r s e v++right ↔ x ∈ left ∨ x ∈ right ∨ x = ⟨s,e,v⟩ ∨
      (r.start < s ∧ x = ⟨r.start,min r.stop (s-1),r.value⟩) ∨
      (e < r.stop ∧ x = ⟨e+1,r.stop,r.value⟩) := by
  unfold carve
  by_cases h1 : r.start < s <;> by_cases h2 : e < r.stop <;>
    simp only [h1, h2, if_true, if_false, List.mem_append, List.mem_cons, List.not_mem_nil] <;>
    tauto

theorem carve_sorted (s e : ℕ) (v : α) (owner : ℕ → Option (Owner α))
    (h : Sound (left++r::right) owner) (hse : s ≤ e) (hright : ∀ x ∈ right, e < x.start)
    (hre : r.start ≤ e) (hin : r.stop < s ∨ (r.start ≤ s ∧ e ≤ r.stop)) :
    (left++carve r s e v++right).Pairwise (fun r x => r.stop < x.start) := by
  obtain ⟨hleft,hr,-⟩ := List.pairwise_append.mp h.sorted
  obtain ⟨hbefore,hafter⟩ := sound_neighbours left right r owner h
  have hwf := (h.bounds r (by simp)).1
  have hmid : (carve r s e v).Pairwise (fun r x => r.stop < x.start) := by
    unfold carve
    by_cases h1 : r.start < s <;> by_cases h2 : e < r.stop <;> simp [h1, h2] <;> omega
  have hmem : ∀ x ∈ carve r s e v, r.start ≤ x.start ∧ x.stop ≤ max e r.stop := by
    intro x hx
    have hx' := (mem_carve [] [] r x s e v).mp (by simpa using hx)
    rcases hx' with hx | hx | rfl | ⟨h1,rfl⟩ | ⟨h1,rfl⟩
    · cases hx
    · cases hx
    · simp only
      omega
    · simp only
      omega
    · simp only
      omega
  refine List.pairwise_append.mpr ⟨List.pairwise_append.mpr ⟨hleft,hmid,?_⟩,
    (List.pairwise_cons.mp hr).2,?_⟩
  · intro x hx y hy
    have := hbefore x hx
    have := (hmem y hy).1
    omega
  · intro x hx y hy
    have h1 := hright y hy
    have h2 := hafter y hy
    rcases List.mem_append.mp hx with hx | hx
    · have := hbefore x hx
      omega
    · have := (hmem x hx).2
      omega

theorem sound_carve (s e : ℕ) (w : Owner α) (owner : ℕ → Option (Owner α))
    (h : Sound (left++r::right) owner) (hse : s ≤ e) (he : e ≤ 0xffff)
    (hright : ∀ x ∈ right, e < x.start) (hre : r.start ≤ e)
    (hin : r.stop < s ∨ (r.start ≤ s ∧ e ≤ r.stop)) (hfresh : ∀ n, owner n ≠ some w) :
    Sound (left++carve r s e w.value++right) (claimed owner s e (some w)) := by
  obtain ⟨hbefore,hafter⟩ := sound_neighbours left right r owner h
  obtain ⟨hrwf,hrmax⟩ := h.bounds r (by simp)
  have hl : ∀ x ∈ left, x ∈ left++r::right := fun x hx => by simp [hx]
  have hr : ∀ x ∈ right, x ∈ left++r::right := fun x hx => by simp [hx]
  refine ⟨carve_sorted left right r s e w.value owner h hse hright hre hin,?_,?_,?_,?_⟩
  · intro x hx
    rcases (mem_carve left right r x s e w.value).mp hx with hx | hx | rfl | ⟨h1,rfl⟩ | ⟨h1,rfl⟩
    · exact h.bounds x (hl x hx)
    · exact h.bounds x (hr x hx)
    · exact ⟨hse,he⟩
    · simp only
      omega
    · simp only
      omega
  · intro x hx
    rcases (mem_carve left right r x s e w.value).mp hx with hx | hx | rfl | ⟨h1,rfl⟩ | ⟨h1,rfl⟩
    · obtain ⟨u,hu,how⟩ := h.owned x (hl x hx)
      have := hbefore x hx
      refine ⟨u,hu,fun n hn1 hn2 => ?_⟩
      rw [claimed_out _ _ _ _ _ (by omega)]
      exact how n hn1 hn2
    · obtain ⟨u,hu,how⟩ := h.owned x (hr x hx)
      have := hright x hx
      refine ⟨u,hu,fun n hn1 hn2 => ?_⟩
      rw [claimed_out _ _ _ _ _ (by omega)]
      exact how n hn1 hn2
    · exact ⟨w,rfl,fun n hn1 hn2 => claimed_in _ _ _ _ _ hn1 hn2⟩
    · obtain ⟨u,hu,how⟩ := h.owned r (by simp)
      refine ⟨u,hu,fun n hn1 hn2 => ?_⟩
      simp only at hn1 hn2
      rw [claimed_out _ _ _ _ _ (by omega)]
      exact how n hn1 (by omega)
    obtain ⟨u,hu,how⟩ := h.owned r (by simp)
    refine ⟨u,hu,fun n hn1 hn2 => ?_⟩
    simp only at hn1 hn2
    rw [claimed_out _ _ _ _ _ (by omega)]
    exact how n (by omega) hn2
  · intro n hn hfree
    have hnew := hfree ⟨s,e,w.value⟩ ((mem_carve left right r _ s e _).mpr (by simp))
    simp only at hnew
    rw [claimed_out _ _ _ _ _ (by omega)]
    refine h.gap n hn ?_
    intro x hx
    simp only [List.mem_append, List.mem_cons] at hx
    rcases hx with hx | rfl | hx
    · exact hfree x ((mem_carve left right r x s e w.value).mpr (Or.inl hx))
    · intro hin'
      by_cases hlow : n < s
      · have hmem : (⟨x.start,min x.stop (s-1),x.value⟩ : Range α) ∈
            left++carve x s e w.value++right :=
          (mem_carve left right x _ s e w.value).mpr (by
            refine Or.inr (Or.inr (Or.inr (Or.inl ⟨by omega,rfl⟩))))
        have hno := hfree _ hmem
        simp only at hno
        omega
      have hmem : (⟨e+1,x.stop,x.value⟩ : Range α) ∈ left++carve x s e w.value++right :=
        (mem_carve left right x _ s e w.value).mpr (by
          refine Or.inr (Or.inr (Or.inr (Or.inr ⟨by omega,rfl⟩))))
      have hno := hfree _ hmem
      simp only at hno
      omega
    · exact hfree x ((mem_carve left right r x s e w.value).mpr (Or.inr (Or.inl hx)))
  · -- the owner changes behind every range, because the new one is nobody else's
    have hnext : ∀ n, n < s ∨ e < n → owner (n+1) ≠ owner n → (∃ u, owner n = some u) →
        claimed owner s e (some w) (n+1) ≠ claimed owner s e (some w) n := by
      intro n hn hne hsome
      obtain ⟨u,hu⟩ := hsome
      rw [claimed_out owner s e n _ hn]
      by_cases hn1 : s ≤ n+1 ∧ n+1 ≤ e
      · rw [claimed_in owner s e _ _ hn1.1 hn1.2]
        exact fun hcon => hfresh n hcon.symm
      · rw [claimed_out owner s e _ _ (by omega)]
        exact hne
    intro x hx hlt
    rcases (mem_carve left right r x s e w.value).mp hx with hx | hx | rfl | ⟨h1,rfl⟩ | ⟨h1,rfl⟩
    · have := hbefore x hx
      obtain ⟨u,hu,-⟩ := owner_some _ owner h x (hl x hx) x.stop
        (h.bounds x (hl x hx)).1 (Nat.le_refl _)
      exact hnext _ (by omega) (h.edge x (hl x hx) hlt) ⟨u,hu⟩
    · have := hright x hx
      have hb := h.bounds x (hr x hx)
      obtain ⟨u,hu,-⟩ := owner_some _ owner h x (hr x hx) x.stop hb.1 (Nat.le_refl _)
      exact hnext _ (by omega) (h.edge x (hr x hx) hlt) ⟨u,hu⟩
    · simp only at hlt ⊢
      rw [claimed_in owner s e e _ hse (Nat.le_refl _), claimed_out owner s e _ _ (by omega)]
      exact hfresh _
    · simp only at hlt ⊢
      by_cases hst : r.stop < s
      · have hmin : min r.stop (s-1) = r.stop := by omega
        rw [hmin] at hlt ⊢
        obtain ⟨u,hu,-⟩ := owner_some _ owner h r (by simp) r.stop hrwf (Nat.le_refl _)
        exact hnext _ (by omega) (h.edge r (by simp) hlt) ⟨u,hu⟩
      have hmin : min r.stop (s-1) = s-1 := by omega
      have hs1 : s-1+1 = s := by omega
      rw [hmin, hs1, claimed_in owner s e s _ (Nat.le_refl _) hse,
        claimed_out owner s e _ _ (by omega)]
      exact fun hcon => hfresh _ hcon.symm
    simp only at hlt ⊢
    obtain ⟨u,hu,-⟩ := owner_some _ owner h r (by simp) r.stop hrwf (Nat.le_refl _)
    exact hnext _ (by omega) (h.edge r (by simp) hlt) ⟨u,hu⟩

theorem sound_first (w : Owner α) (owner : ℕ → Option (Owner α)) (h : Sound [] owner) (hse : s ≤ e)
    (he : e ≤ 0xffff) : Sound [⟨s,e,w.value⟩] (claimed owner s e (some w)) := by
  have hnone : ∀ n, n ≤ 0xffff → owner n = none := fun n hn => h.gap n hn (by simp)
  refine ⟨List.pairwise_singleton _ _,?_,?_,?_,?_⟩
  · simpa using ⟨hse,he⟩
  · intro r hr
    rw [List.mem_singleton.mp hr]
    exact ⟨w,rfl,fun n h1 h2 => claimed_in _ _ _ _ _ h1 h2⟩
  · intro n hn hfree
    have hno := hfree _ (List.mem_singleton_self _)
    simp only at hno
    rw [claimed_out _ _ _ _ _ (by omega)]
    exact hnone n hn
  · intro r hr hlt
    rw [List.mem_singleton.mp hr] at hlt ⊢
    simp only at hlt ⊢
    rw [claimed_in owner s e e _ hse (Nat.le_refl _), claimed_out owner s e _ _ (by omega),
      hnone _ (by omega)]
    simp

theorem sound_remove (owner : ℕ → Option (Owner α)) (h : Sound (left++r::right) owner) :
    Sound (left++right) (claimed owner r.start r.stop none) := by
  obtain ⟨hbefore,hafter⟩ := sound_neighbours left right r owner h
  obtain ⟨hrwf,hrmax⟩ := h.bounds r (by simp)
  have hin : ∀ x ∈ left++right, x ∈ left++r::right ∧ (x.stop < r.start ∨ r.stop < x.start) := by
    intro x hx
    rcases List.mem_append.mp hx with hx | hx
    · exact ⟨by simp [hx],Or.inl (hbefore x hx)⟩
    · exact ⟨by simp [hx],Or.inr (hafter x hx)⟩
  refine ⟨h.sorted.sublist (by simp),fun x hx => h.bounds x (hin x hx).1,?_,?_,?_⟩
  · intro x hx
    obtain ⟨u,hu,how⟩ := h.owned x (hin x hx).1
    have hside := (hin x hx).2
    refine ⟨u,hu,fun n h1 h2 => ?_⟩
    rw [claimed_out _ _ _ _ _ (by omega)]
    exact how n h1 h2
  · intro n hn hfree
    by_cases hr : r.start ≤ n ∧ n ≤ r.stop
    · exact claimed_in _ _ _ _ _ hr.1 hr.2
    rw [claimed_out _ _ _ _ _ (by omega)]
    refine h.gap n hn ?_
    intro x hx
    simp only [List.mem_append, List.mem_cons] at hx
    rcases hx with hx | rfl | hx
    · exact hfree x (by simp [hx])
    · exact hr
    · exact hfree x (by simp [hx])
  · intro x hx hlt
    have hside := (hin x hx).2
    have hb := h.bounds x (hin x hx).1
    obtain ⟨u,hu,-⟩ := owner_some _ owner h x (hin x hx).1 x.stop hb.1 (Nat.le_refl _)
    rw [claimed_out owner _ _ x.stop _ (by omega)]
    by_cases hr : r.start ≤ x.stop+1 ∧ x.stop+1 ≤ r.stop
    · rw [claimed_in _ _ _ _ _ hr.1 hr.2, hu]
      simp
    · rw [claimed_out _ _ _ _ _ (by omega)]
      exact h.edge x (hin x hx).1 hlt

theorem sound_congr (owner' : ℕ → Option (Owner α)) (h : Sound a owner)
    (hsame : ∀ n, n ≤ 0xffff → owner' n = owner n) : Sound a owner' := by
  refine ⟨h.sorted,h.bounds,?_,?_,?_⟩
  · intro r hr
    obtain ⟨w,hv,how⟩ := h.owned r hr
    have hb := h.bounds r hr
    exact ⟨w,hv,fun n h1 h2 => by rw [hsame n (by omega), how n h1 h2]⟩
  · intro n hn hfree
    rw [hsame n hn, h.gap n hn hfree]
  · intro r hr hlt
    have hb := h.bounds r hr
    rw [hsame _ (by omega), hsame _ (by omega)]
    exact h.edge r hr hlt

theorem walk_ranges_owner (h : Sound a owner) (n : ℕ) (hn : n ≤ 0xffff) :
    walkRanges n a = (owner n).map Owner.value := by
  by_cases hfree : ∀ r ∈ a, ¬(r.start ≤ n ∧ n ≤ r.stop)
  · rw [h.gap n hn hfree]
    clear h
    induction a with
    | nil => rfl
    | cons r a ih =>
      rw [walkRanges, if_neg (hfree r (by simp))]
      exact ih (fun x hx => hfree x (by simp [hx]))
  simp only [not_forall, not_not] at hfree
  obtain ⟨r,hr,hin⟩ := hfree
  obtain ⟨w,how,hv⟩ := owner_some a owner h r hr n hin.1 hin.2
  have hval : ∀ x ∈ a, x.start ≤ n ∧ n ≤ x.stop → x.value = w.value := by
    intro x hx hxn
    obtain ⟨u,hu,hxv⟩ := owner_some a owner h x hx n hxn.1 hxn.2
    rw [how, Option.some.injEq] at hu
    rw [hu, hxv]
  rw [how, Option.map_some]
  clear h how
  induction a with
  | nil => cases hr
  | cons x a ih =>
    rw [walkRanges]
    by_cases hx : x.start ≤ n ∧ n ≤ x.stop
    · rw [if_pos hx, hval x (by simp) hx]
    rw [if_neg hx]
    rcases List.mem_cons.mp hr with rfl | hr
    · exact absurd hin hx
    · exact ih hr (fun y hy => hval y (by simp [hy]))

end Nginx.GeoRangesMap
