import Nginx.RbtreeKept
import Mathlib.Data.List.Lex
import Mathlib.Data.Prod.Lex
import Mathlib.Algebra.Order.Group.Nat

/-!
# Searching a tree with byte string keys

The modules that count requests put nodes with a hash and a byte string into a
red-black tree. Their insert functions and their lookups compare the hashes first
and the strings with `ngx_memn2cmp` then, which is the lexicographic order.
-/

set_option autoImplicit false

namespace Nginx.RbtreeSearch
open Nginx.RedBlackTree Nginx.NgxRbtree Nginx.RbtreeShape Nginx.RbtreeKept

def ngxCrc32Table16 : List ℕ :=
  [0x00000000, 0x1db71064, 0x3b6e20c8, 0x26d930ac, 0x76dc4190, 0x6b6b51f4, 0x4db26158, 0x5005713c,
   0xedb88320, 0xf00f9344, 0xd6d6a3e8, 0xcb61b38c, 0x9b64c2b0, 0x86d3d2d4, 0xa00ae278, 0xbdbdf21c]

def ngxCrc32Short (p : List ℕ) : ℕ :=
  p.foldl (fun crc c =>
    let crc := ngxCrc32Table16.getD ((crc ^^^ (c &&& 0xf)) &&& 0xf) 0 ^^^ (crc >>> 4)
    ngxCrc32Table16.getD ((crc ^^^ (c >>> 4)) &&& 0xf) 0 ^^^ (crc >>> 4)) 0xffffffff ^^^ 0xffffffff

@[grind =] def ngxMemcmp : ℕ → List ℕ → List ℕ → Ordering
  | n+1, a::s1, b::s2 => if a < b then .lt else if b < a then .gt else ngxMemcmp n s1 s2
  | _, _, _ => .eq

def ngxMemn2cmp (s1 s2 : List ℕ) : Ordering :=
  let n := if s1.length ≤ s2.length then s1.length else s2.length
  let z : Ordering := if s1.length ≤ s2.length then .lt else .gt
  let m := ngxMemcmp n s1 s2
  if m ≠ .eq ∨ s1.length = s2.length then m else z

def lookupCmp (hash : ℕ) (value : List ℕ) (hash' : ℕ) (value' : List ℕ) : Ordering :=
  if hash < hash' then .lt else if hash' < hash then .gt else ngxMemn2cmp value value'

/-- The comparison of the insert functions, for nodes with the strings `data`. -/
def dataGoesLeft (data : ℕ → List ℕ) (t : Rbtree) (node temp : ℕ) : Bool :=
  if t.key node < t.key temp then true
  else if t.key temp < t.key node then false
  else ngxMemn2cmp (data node) (data temp) = .lt

@[grind =] def search (t : Rbtree) (cmp : ℕ → Ordering) : ℕ → ℕ → Option (Option ℕ)
  | 0, _ => none
  | fuel+1, node =>
    if node = t.sentinel then some none
    else match cmp node with
      | .lt => search t cmp fuel (t.link node .left)
      | .gt => search t cmp fuel (t.link node .right)
      | .eq => some (some node)

def nodeKey (hash : ℕ) (value : List ℕ) : ℕ ×ₗ List ℕ := toLex (hash, value)

theorem memn2cmp_cons (a b : ℕ) (s1 s2 : List ℕ) : ngxMemn2cmp (a::s1) (b::s2) =
    if a < b then .lt else if b < a then .gt else ngxMemn2cmp s1 s2 := by
  simp only [ngxMemn2cmp, List.length_cons, Nat.add_le_add_iff_right, Nat.add_right_cancel_iff]
  by_cases hle : s1.length ≤ s2.length
  · simp only [hle, if_true, ngxMemcmp]
    by_cases h1 : a < b
    · simp [h1]
    · by_cases h2 : b < a <;> simp [h1, h2]
  simp only [hle, if_false, ngxMemcmp]
  by_cases h1 : a < b
  · simp [h1]
  · by_cases h2 : b < a <;> simp [h1, h2]

theorem memn2cmp_order (s1 s2 : List ℕ) :
    (ngxMemn2cmp s1 s2 = .lt ↔ s1 < s2) ∧ (ngxMemn2cmp s1 s2 = .gt ↔ s2 < s1) ∧
      (ngxMemn2cmp s1 s2 = .eq ↔ s1 = s2) := by
  induction s1 generalizing s2 with
  | nil =>
    cases s2 with
    | nil => simp [ngxMemn2cmp, ngxMemcmp]
    | cons b s2 => simp [ngxMemn2cmp, ngxMemcmp]
  | cons a s1 ih =>
    cases s2 with
    | nil => simp [ngxMemn2cmp, ngxMemcmp]
    | cons b s2 =>
      obtain ⟨h1,h2,h3⟩ := ih s2
      rw [memn2cmp_cons, List.cons_lt_cons_iff, List.cons_lt_cons_iff, List.cons.injEq, ← h1, ← h2,
        ← h3]
      rcases lt_trichotomy a b with hab | rfl | hab
      · simp [hab, hab.ne, hab.ne', hab.le]
      · simp
      · simp [hab, hab.not_gt, hab.ne, hab.ne']

theorem lookup_cmp_order (hash hash' : ℕ) (value value' : List ℕ) :
    (lookupCmp hash value hash' value' = .lt ↔ nodeKey hash value < nodeKey hash' value') ∧
      (lookupCmp hash value hash' value' = .gt ↔ nodeKey hash' value' < nodeKey hash value) ∧
      (lookupCmp hash value hash' value' = .eq ↔ nodeKey hash value = nodeKey hash' value') := by
  obtain ⟨h1,h2,h3⟩ := memn2cmp_order value value'
  simp only [nodeKey, Prod.Lex.toLex_lt_toLex, lookupCmp, EmbeddingLike.apply_eq_iff_eq,
    Prod.mk.injEq, ← h1, ← h2, ← h3]
  rcases lt_trichotomy hash hash' with h | rfl | h
  · simp [h, h.ne, h.ne', h.le]
  · simp
  · simp [h, h.not_gt, h.ne, h.ne']

theorem data_goes_left (data : ℕ → List ℕ) (t : Rbtree) (node x : ℕ) :
    dataGoesLeft data t node x = true ↔
      nodeKey (t.key node) (data node) < nodeKey (t.key x) (data x) := by
  rw [← (lookup_cmp_order (t.key node) (t.key x) (data node) (data x)).1, dataGoesLeft, lookupCmp]
  split_ifs <;> simp

section Search
variable {κ : Type*} [LinearOrder κ] (t : Rbtree) (key : ℕ → κ) (k : κ) (cmp : ℕ → Ordering)

theorem search_tree (fuel parent : ℕ) (T : RedBlackTree.Tree ℕ) (h : TreeAt t parent T)
    (hsorted : T.ids.Pairwise (fun x y => key x ≤ key y))
    (hcmp : ∀ x, (cmp x = .lt ↔ k < key x) ∧ (cmp x = .gt ↔ key x < k) ∧ (cmp x = .eq ↔ k = key x))
    (hfuel : T.ids.length < fuel) : ∃ r, search t cmp fuel (ptr t.sentinel T) = some r ∧
      (∀ x, r = some x → x ∈ T.ids ∧ key x = k) ∧ (r = none → ∀ x ∈ T.ids, key x ≠ k) := by
  induction T generalizing parent fuel with
  | leaf =>
    cases fuel with
    | zero => exact absurd hfuel (Nat.not_lt_zero _)
    | succ fuel => exact ⟨none,if_pos rfl,by rintro _ ⟨⟩,by rintro _ _ ⟨⟩⟩
  | node red l x r ihl ihr =>
    obtain ⟨hx,-,-,hl,hr,htl,htr⟩ := h
    cases fuel with
    | zero => exact absurd hfuel (Nat.not_lt_zero _)
    | succ fuel =>
      rw [RedBlackTree.Tree.ids, List.pairwise_append, List.pairwise_cons] at hsorted
      obtain ⟨hsl,⟨hxr,hsr⟩,hcross⟩ := hsorted
      simp only [RedBlackTree.Tree.ids, List.length_append, List.length_cons] at hfuel
      rw [ptr, search, if_neg hx]
      obtain ⟨hlt,hgt,heq⟩ := hcmp x
      cases hc : cmp x with
      | lt =>
        have hk := hlt.mp hc
        obtain ⟨res,hrun,hsome,hnone⟩ := ihl fuel x htl hsl (by omega)
        refine ⟨res,by rw [← hrun, ← hl],fun y hy => ?_,fun hn y hy => ?_⟩
        · exact ⟨List.mem_append_left _ (hsome y hy).1,(hsome y hy).2⟩
        · rcases List.mem_append.mp hy with hy | hy
          · exact hnone hn y hy
          rcases List.mem_cons.mp hy with rfl | hy
          · exact hk.ne'
          · exact (lt_of_lt_of_le hk (hxr y hy)).ne'
      | gt =>
        have hk := hgt.mp hc
        obtain ⟨res,hrun,hsome,hnone⟩ := ihr fuel x htr hsr (by omega)
        refine ⟨res,by rw [← hrun, ← hr],fun y hy => ?_,fun hn y hy => ?_⟩
        · exact ⟨List.mem_append_right _ (List.mem_cons_of_mem _ (hsome y hy).1),(hsome y hy).2⟩
        · rcases List.mem_append.mp hy with hy | hy
          · exact (lt_of_le_of_lt (hcross y hy x List.mem_cons_self) hk).ne
          rcases List.mem_cons.mp hy with rfl | hy
          · exact hk.ne
          · exact hnone hn y hy
      | eq =>
        refine ⟨some x,rfl,fun y hy => ?_,by rintro ⟨⟩⟩
        rw [← Option.some.inj hy]
        exact ⟨by simp [RedBlackTree.Tree.ids],(heq.mp hc).symm⟩

theorem search_more (fuel node : ℕ) (r : Option ℕ) (h : search t cmp fuel node = some r) :
    search t cmp (fuel+1) node = some r := by
  induction fuel generalizing node with
  | zero => cases h
  | succ fuel ih =>
    rw [search] at h ⊢
    by_cases hs : node = t.sentinel
    · rw [if_pos hs] at h ⊢
      exact h
    rw [if_neg hs] at h ⊢
    cases hc : cmp node with
    | lt =>
      rw [hc] at h
      exact ih _ h
    | gt =>
      rw [hc] at h
      exact ih _ h
    | eq =>
      rw [hc] at h
      exact h

end Search

end Nginx.RbtreeSearch
