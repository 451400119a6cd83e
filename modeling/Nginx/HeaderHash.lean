import Mathlib.Algebra.Order.Ring.Int
import Mathlib.Data.List.Basic

/-!
# Header names in a hash

`ngx_hash_init` puts each name, in lower case, into the bucket of its key, and
`ngx_hash_find` looks through the bucket of the key it is given.
-/

set_option autoImplicit false

namespace Nginx.HeaderHash

def ngxTolower (ch : UInt8) : UInt8 := if 65 ≤ ch ∧ ch ≤ 90 then ch ||| 0x20 else ch

def ngxStrlow (s : List UInt8) : List UInt8 := s.map ngxTolower

def ngxHash (key : ℕ) (ch : UInt8) : ℕ := (key*31+ch.toNat)%2^64

def ngxHashKey (s : List UInt8) : ℕ := s.foldl ngxHash 0

/-- The names given to `ngx_hash_init` and the number of buckets it chooses -/
structure NgxHash where
  size : ℕ
  names : List (List UInt8)

/-- The names in a bucket; `ngx_hash_key_lc` is the key of the lower-case name. -/
def NgxHash.bucket (t : NgxHash) (i : ℕ) : List (List UInt8) :=
  (t.names.map ngxStrlow).filter fun name => ngxHashKey name%t.size = i

def ngxHashFind (t : NgxHash) (key : ℕ) (name : List UInt8) : Bool :=
  (t.bucket (key%t.size)).contains name

theorem mem_of_find {t : NgxHash} {key : ℕ} {name : List UInt8}
    (h : ngxHashFind t key name = true) : name ∈ t.names.map ngxStrlow := by
  rw [ngxHashFind, List.contains_iff_mem] at h
  exact List.mem_of_mem_filter h

theorem find_iff (t : NgxHash) (name : List UInt8) :
    ngxHashFind t (ngxHashKey name) name = true ↔ name ∈ t.names.map ngxStrlow := by
  refine ⟨mem_of_find,fun h => ?_⟩
  rw [ngxHashFind, List.contains_iff_mem]
  exact List.mem_filter.mpr ⟨h,decide_eq_true rfl⟩

end Nginx.HeaderHash
