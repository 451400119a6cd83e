import Mathlib.Data.Nat.Digits.Lemmas
import Nginx.RbtreeSearch
import Nginx.Runs

/-!
# The trees that are searched by name

Three modules put nodes with a number and a string into a red-black tree, with an insert
function and a lookup of their own. Each pair descends by one order: the number first, then
the strings as bytes, or their lengths before the bytes. The numbers of different strings may
be equal.
-/

set_option autoImplicit false

namespace Nginx.KeyedTrees
open Nginx.RedBlackTree NgxRbtree RbtreeInsert RbtreeAddition RbtreeKept RbtreeSearch

/-! The order behind an insert function and a lookup -/

/-- An insert function and the comparison of a lookup, with the order that both follow. -/
structure Callbacks (ν κ : Type) [LinearOrder κ] where
  order : ℕ → ν → κ
  goesLeft : (ℕ → ν) → Rbtree → ℕ → ℕ → Bool
  compare : ℕ → ν → ℕ → ν → Ordering
  left : ∀ data t node x, goesLeft data t node x = true ↔
    order (t.key node) (data node) < order (t.key x) (data x)
  less : ∀ hash value hash' value', compare hash value hash' value' = .lt ↔
    order hash value < order hash' value'
  greater : ∀ hash value hash' value', compare hash value hash' value' = .gt ↔
    order hash' value' < order hash value
  equal : ∀ hash value hash' value', order hash value = order hash' value' ↔
    hash = hash' ∧ value = value'

section Trees
variable {ν κ : Type} [LinearOrder κ] (c : Callbacks ν κ)

theorem compare_equal (hash hash' : ℕ) (value value' : ν) :
    c.compare hash value hash' value' = .eq ↔ c.order hash value = c.order hash' value' := by
  have hless := c.less hash value hash' value'
  have hgreater := c.greater hash value hash' value'
  rcases lt_trichotomy (c.order hash value) (c.order hash' value') with h | h | h
  · rw [hless.mpr h]
    exact iff_of_false (by decide) h.ne
  · refine iff_of_true ?_ h
    cases hcmp : c.compare hash value hash' value' with
    | lt => exact absurd (hless.mp hcmp) h.not_lt
    | eq => rfl
    | gt => exact absurd (hgreater.mp hcmp) h.not_gt
  · rw [hgreater.mpr h]
    exact iff_of_false (by decide) h.ne'

def lookup (t : Rbtree) (data : ℕ → ν) (fuel hash : ℕ) (value : ν) : Option (Option ℕ) :=
  search t (fun node => c.compare hash value (t.key node) (data node)) fuel t.root

/-- The trees that insertions of keys that are not there and deletions lead to, with the
nodes in them. Other nodes may be written. -/
inductive Reached : Rbtree → (ℕ → ν) → List ℕ → Prop where
  | init (nodes : ℕ → Node) (s : ℕ) (data : ℕ → ν) : Reached (ngxRbtreeInit nodes s) data []
  | write {t : Rbtree} {data : ℕ → ν} {xs : List ℕ} (x : ℕ) (node : Node) (value : ν)
      (h : Reached t data xs) (hx : x ∉ xs) (hs : x ≠ t.sentinel) :
      Reached (t.set x node) (Function.update data x value) xs
  | insert {t t' : Rbtree} {data : ℕ → ν} {xs : List ℕ} (x : ℕ) (h : Reached t data xs)
      (hx : x ∉ xs) (hs : x ≠ t.sentinel)
      (hnew : ∀ y ∈ xs, ¬ (t.key y = t.key x ∧ data y = data x))
      (hrun : Inserts (c.goesLeft data) t x t') : Reached t' data (x::xs)
  | delete {t t' : Rbtree} {data : ℕ → ν} {xs : List ℕ} (x : ℕ) (h : Reached t data xs)
      (hx : x ∈ xs) (hrun : Deletes t x t') : Reached t' data (xs.erase x)

def keyOf (t : Rbtree) (data : ℕ → ν) (x : ℕ) : κ := c.order (t.key x) (data x)

structure Inv (t : Rbtree) (data : ℕ → ν) (xs : List ℕ) : Prop where
  kept : ∃ T, Kept t (keyOf c t data) T ∧ T.ids.Perm xs
  single : ∀ x ∈ xs, ∀ y ∈ xs, t.key x = t.key y → data x = data y → x = y

/-- What the tree does for its users: a lookup ends and finds the node with the key if there
is one, every new key can be inserted, and every node can be deleted. -/
structure Serves (t : Rbtree) (data : ℕ → ν) (xs : List ℕ) : Prop where
  lookup : ∀ (fuel hash : ℕ) (value : ν), xs.length < fuel → ∃ r,
    lookup c t data fuel hash value = some r ∧
      ∀ x, r = some x ↔ x ∈ xs ∧ t.key x = hash ∧ data x = value
  insert : ∀ x ∉ xs, x ≠ t.sentinel → ∃ t', Inserts (c.goesLeft data) t x t'
  delete : ∀ x ∈ xs, ∃ t', Deletes t x t'

theorem inv_write (t : Rbtree) (data : ℕ → ν) (xs : List ℕ) (x : ℕ) (node : Node) (value : ν)
    (h : Inv c t data xs) (hx : x ∉ xs) (hs : x ≠ t.sentinel) :
    Inv c (t.set x node) (Function.update data x value) xs := by
  obtain ⟨T,hkept,hperm⟩ := h.kept
  have hother : ∀ y ∈ xs, (t.set x node).key y = t.key y ∧
      Function.update data x value y = data y := by
    intro y hy
    have hyx : y ≠ x := fun he => hx (he ▸ hy)
    exact ⟨by simp [Rbtree.key, Rbtree.set, hyx],Function.update_of_ne hyx ..⟩
  refine ⟨⟨T,?_,hperm⟩,fun y hy z hz => ?_⟩
  · have hout : x ∉ T.ids := fun hT => hx (hperm.subset hT)
    have hwritten := kept_write t (keyOf c t data) T x node hkept hout hs
    refine kept_congr _ _ _ T hwritten (fun y hy => ?_)
    rw [keyOf, (hother y (hperm.subset hy)).1, (hother y (hperm.subset hy)).2, keyOf]
  · rw [(hother y hy).1, (hother y hy).2, (hother z hz).1, (hother z hz).2]
    exact h.single y hy z hz

theorem inv_insert (t t' : Rbtree) (data : ℕ → ν) (xs : List ℕ) (x : ℕ) (h : Inv c t data xs)
    (hx : x ∉ xs) (hs : x ≠ t.sentinel) (hnew : ∀ y ∈ xs, ¬ (t.key y = t.key x ∧ data y = data x))
    (hrun : Inserts (c.goesLeft data) t x t') : Inv c t' data (x::xs) := by
  obtain ⟨T,hkept,hperm⟩ := h.kept
  obtain ⟨⟨-,hkeys⟩,T',before,after,hkept',⟨hids,-,-⟩,hids'⟩ :=
    (insert_kept _ _ _ T x hkept (fun hT => hx (hperm.subset hT)) hs
      (fun y => c.left data t x y)).2 t' hrun
  refine ⟨⟨T',kept_congr t' _ _ T' hkept' (fun y _ => ?_),?_⟩,fun y hy z hz => ?_⟩
  · rw [keyOf, hkeys, keyOf]
  · rw [hids']
    rw [hids] at hperm
    exact List.perm_middle.trans (hperm.cons x)
  · rw [hkeys, hkeys]
    intro hkey hdata
    rcases List.mem_cons.mp hy with hyx | hyin <;> rcases List.mem_cons.mp hz with hzx | hzin
    · rw [hyx, hzx]
    · rw [hyx] at hkey hdata
      exact absurd ⟨hkey.symm,hdata.symm⟩ (hnew z hzin)
    · rw [hzx] at hkey hdata
      exact absurd ⟨hkey,hdata⟩ (hnew y hyin)
    · exact h.single y hyin z hzin hkey hdata

theorem inv_delete (t t' : Rbtree) (data : ℕ → ν) (xs : List ℕ) (x : ℕ) (h : Inv c t data xs)
    (hx : x ∈ xs) (hrun : Deletes t x t') : Inv c t' data (xs.erase x) := by
  obtain ⟨T,hkept,hperm⟩ := h.kept
  obtain ⟨-,hkeys,T',hkept',hids⟩ :=
    (delete_kept t _ T x hkept (hperm.symm.subset hx)).2 t' hrun
  have hnodup : xs.Nodup := hperm.nodup_iff.mp (kept_nodup t _ T hkept)
  have hother : ∀ y ∈ xs.erase x, y ∈ xs ∧ t'.key y = t.key y := by
    intro y hy
    obtain ⟨hyx,hy⟩ := hnodup.mem_erase_iff.mp hy
    exact ⟨hy,hkeys y hyx⟩
  have hperm' : T'.ids.Perm (xs.erase x) := by
    rw [hids]
    exact hperm.erase x
  refine ⟨⟨T',kept_congr t' _ _ T' hkept' (fun y hy => ?_),hperm'⟩,fun y hy z hz => ?_⟩
  · rw [keyOf, (hother y (hperm'.subset hy)).2, keyOf]
  · rw [(hother y hy).2, (hother z hz).2]
    exact h.single y (hother y hy).1 z (hother z hz).1

theorem reached_inv (t : Rbtree) (data : ℕ → ν) (xs : List ℕ) (h : Reached c t data xs) :
    Inv c t data xs := by
  induction h with
  | init nodes s data => exact ⟨⟨.leaf,kept_init nodes s _,List.Perm.refl _⟩,nofun⟩
  | write x node value _ hx hs ih => exact inv_write c _ _ _ x node value ih hx hs
  | insert x _ hx hs hnew hrun ih => exact inv_insert c _ _ _ _ x ih hx hs hnew hrun
  | delete x _ hx hrun ih => exact inv_delete c _ _ _ _ x ih hx hrun

theorem inv_serves (t : Rbtree) (data : ℕ → ν) (xs : List ℕ) (h : Inv c t data xs) :
    Serves c t data xs := by
  obtain ⟨T,hkept,hperm⟩ := h.kept
  refine ⟨fun fuel hash value hfuel => ?_,fun x hx hs => ?_,fun x hx => ?_⟩
  · obtain ⟨above,hat⟩ := hkept.holds
    obtain ⟨r,hrun,hsome,hnone⟩ := search_tree t (keyOf c t data) (c.order hash value)
      (fun node => c.compare hash value (t.key node) (data node)) fuel _ T hat.tree_at hkept.sorted
      (fun x => ⟨c.less ..,c.greater ..,compare_equal c ..⟩) (by rwa [hperm.length_eq])
    have hroot : t.root = RbtreeShape.ptr t.sentinel T := hat.path_at
    refine ⟨r,by rw [lookup, hroot]; exact hrun,fun x => ⟨fun hr => ?_,fun hx => ?_⟩⟩
    · obtain ⟨hx,hkey⟩ := hsome x hr
      exact ⟨hperm.subset hx,(c.equal ..).mp hkey⟩
    · obtain ⟨hx,hkey,hdata⟩ := hx
      cases r with
      | none => exact absurd ((c.equal ..).mpr ⟨hkey,hdata⟩) (hnone rfl x (hperm.symm.subset hx))
      | some y =>
        obtain ⟨hy,hkey'⟩ := hsome y rfl
        obtain ⟨hykey,hydata⟩ := (c.equal ..).mp hkey'
        rw [h.single y (hperm.subset hy) x hx (hykey.trans hkey.symm) (hydata.trans hdata.symm)]
  · exact (insert_kept _ _ _ T x hkept (fun hT => hx (hperm.subset hT)) hs
      (fun y => c.left data t x y)).1
  · exact (delete_kept t _ T x hkept (hperm.symm.subset hx)).1

end Trees

/-! The three pairs -/

/-- `ngx_resolver_rbtree_insert_value`, for nodes with the names `name`. -/
def ngxResolverRbtreeInsertValue (name : ℕ → List ℕ) (t : Rbtree) (node temp : ℕ) : Bool :=
  if t.key node < t.key temp then true
  else if t.key node > t.key temp then false
  else ngxMemn2cmp (name node) (name temp) = .lt

/-- The comparison of `ngx_resolver_lookup_name`. -/
def ngxResolverLookupName (hash : ℕ) (name : List ℕ) (key : ℕ) (name' : List ℕ) : Ordering :=
  if hash < key then .lt
  else if hash > key then .gt
  else ngxMemn2cmp name name'

def ngxStrRbtreeInsertValue (str : ℕ → List ℕ) (t : Rbtree) (node temp : ℕ) : Bool :=
  if t.key node ≠ t.key temp then t.key node < t.key temp
  else if (str node).length ≠ (str temp).length then (str node).length < (str temp).length
  else ngxMemcmp (str node).length (str node) (str temp) = .lt

/-- The comparison of `ngx_str_rbtree_lookup`. -/
def ngxStrRbtreeLookup (hash : ℕ) (val : List ℕ) (key : ℕ) (str : List ℕ) : Ordering :=
  if hash ≠ key then if hash < key then .lt else .gt
  else if val.length ≠ str.length then if val.length < str.length then .lt else .gt
  else ngxMemcmp val.length val str

/-- The bytes of a cache key past those that are the number of the node. -/
abbrev Rest := { rest : List ℕ // rest.length = 16-8 }

def ngxHttpFileCacheRbtreeInsertValue (key : ℕ → Rest) (t : Rbtree) (node temp : ℕ) : Bool :=
  if t.key node < t.key temp then true
  else if t.key node > t.key temp then false
  else ngxMemcmp (16-8) (key node).val (key temp).val = .lt

/-- The comparison of `ngx_http_file_cache_lookup`. -/
def ngxHttpFileCacheLookup (nodeKey : ℕ) (key : Rest) (nodeKey' : ℕ) (key' : Rest) : Ordering :=
  if nodeKey < nodeKey' then .lt
  else if nodeKey > nodeKey' then .gt
  else ngxMemcmp (16-8) key.val key'.val

theorem memcmp_same_length (s1 s2 : List ℕ) (h : s1.length = s2.length) :
    ngxMemcmp s1.length s1 s2 = ngxMemn2cmp s1 s2 := by
  simp [ngxMemn2cmp, h]

theorem rest_memcmp (a b : Rest) : ngxMemcmp (16-8) a.val b.val = ngxMemn2cmp a.val b.val := by
  rw [← memcmp_same_length _ _ (a.property.trans b.property.symm), a.property]

theorem nodeKey_equal (hash hash' : ℕ) (value value' : List ℕ) :
    nodeKey hash value = nodeKey hash' value' ↔ hash = hash' ∧ value = value' := by
  rw [nodeKey, nodeKey, EmbeddingLike.apply_eq_iff_eq, Prod.mk.injEq]

def resolverTree : Callbacks (List ℕ) (ℕ ×ₗ List ℕ) where
  order := nodeKey
  goesLeft := ngxResolverRbtreeInsertValue
  compare := ngxResolverLookupName
  left := data_goes_left
  less hash name hash' name' := (lookup_cmp_order hash hash' name name').1
  greater hash name hash' name' := (lookup_cmp_order hash hash' name name').2.1
  equal hash name hash' name' := nodeKey_equal hash hash' name name'

theorem file_cache_compare (hash hash' : ℕ) (key key' : Rest) :
    ngxHttpFileCacheLookup hash key hash' key' = lookupCmp hash key.val hash' key'.val := by
  rw [ngxHttpFileCacheLookup, rest_memcmp]
  rfl

def fileCacheTree : Callbacks Rest (ℕ ×ₗ List ℕ) where
  order hash key := nodeKey hash key.val
  goesLeft := ngxHttpFileCacheRbtreeInsertValue
  compare := ngxHttpFileCacheLookup
  left key t node x := by
    rw [← data_goes_left (fun y => (key y).val), ngxHttpFileCacheRbtreeInsertValue, rest_memcmp]
    rfl
  less hash key hash' key' := by
    rw [file_cache_compare]
    exact (lookup_cmp_order hash hash' key.val key'.val).1
  greater hash key hash' key' := by
    rw [file_cache_compare]
    exact (lookup_cmp_order hash hash' key.val key'.val).2.1
  equal hash key hash' key' := by rw [nodeKey_equal, Subtype.ext_iff]

/-- The order of the strings of `ngx_str_rbtree`. -/
def strKey (hash : ℕ) (value : List ℕ) : ℕ ×ₗ ℕ ×ₗ List ℕ :=
  toLex (hash, nodeKey value.length value)

theorem str_compare_order (hash key : ℕ) (val str : List ℕ) :
    (ngxStrRbtreeLookup hash val key str = .lt ↔ strKey hash val < strKey key str) ∧
      (ngxStrRbtreeLookup hash val key str = .gt ↔ strKey key str < strKey hash val) := by
  obtain ⟨hless,hgreater,-⟩ := memn2cmp_order val str
  simp only [strKey, nodeKey, Prod.Lex.toLex_lt_toLex, ngxStrRbtreeLookup]
  rcases lt_trichotomy hash key with h | rfl | h
  · simp [h, h.ne, h.ne', h.not_gt]
  · rcases lt_trichotomy val.length str.length with hl | hl | hl
    · simp [hl, hl.ne, hl.ne', hl.not_gt]
    · have hmemcmp := memcmp_same_length val str hl
      rw [hl] at hmemcmp
      simp [hmemcmp, hl, hless, hgreater]
    · simp [hl, hl.ne, hl.ne', hl.not_gt]
  · simp [h, h.ne, h.ne', h.not_gt]

theorem str_goes_left (str : ℕ → List ℕ) (t : Rbtree) (node temp : ℕ) :
    ngxStrRbtreeInsertValue str t node temp = true ↔
      ngxStrRbtreeLookup (t.key node) (str node) (t.key temp) (str temp) = .lt := by
  rw [ngxStrRbtreeInsertValue, ngxStrRbtreeLookup]
  split_ifs with hkey hlen <;> simp_all

def strTree : Callbacks (List ℕ) (ℕ ×ₗ ℕ ×ₗ List ℕ) where
  order := strKey
  goesLeft := ngxStrRbtreeInsertValue
  compare := ngxStrRbtreeLookup
  left str t node x := by
    rw [str_goes_left]
    exact (str_compare_order (t.key node) (t.key x) (str node) (str x)).1
  less hash val hash' val' := (str_compare_order hash hash' val val').1
  greater hash val hash' val' := (str_compare_order hash hash' val val').2
  equal hash val hash' val' := by
    rw [strKey, strKey, EmbeddingLike.apply_eq_iff_eq, Prod.mk.injEq, nodeKey_equal]
    exact and_congr_right (fun _ => and_iff_right_of_imp (congrArg List.length))

structure CacheKey where
  bytes : List ℕ
  length : bytes.length = 16
  small : ∀ b ∈ bytes, b < 2^8

/-- The number that `ngx_memcpy` makes of the first eight bytes. -/
def CacheKey.nodeKey (key : CacheKey) : ℕ := Nat.ofDigits (2^8) (key.bytes.take 8)

def CacheKey.rest (key : CacheKey) : Rest := ⟨key.bytes.drop 8,by
  rw [List.length_drop, key.length]⟩

theorem cache_key_parts (key key' : CacheKey) :
    key.nodeKey = key'.nodeKey ∧ key.rest = key'.rest ↔ key.bytes = key'.bytes := by
  constructor
  · rintro ⟨hnode,hrest⟩
    have hfirst : key.bytes.take 8 = key'.bytes.take 8 :=
      Nat.ofDigits_inj_of_len_eq (by decide) (by simp [key.length, key'.length])
        (fun b hb => key.small b (List.mem_of_mem_take hb))
        (fun b hb => key'.small b (List.mem_of_mem_take hb)) hnode
    have hlast : key.bytes.drop 8 = key'.bytes.drop 8 := congrArg Subtype.val hrest
    rw [← List.take_append_drop 8 key.bytes, hfirst, hlast, List.take_append_drop]
  · intro h
    exact ⟨congrArg (fun bytes : List ℕ => Nat.ofDigits (2^8) (bytes.take 8)) h,
      Subtype.ext (congrArg (List.drop 8) h)⟩

/-- In every run each of the three trees finds what is in it and nothing else, whatever the
numbers of the keys are. -/
theorem keyed_trees :
    (∀ t str xs, Reached strTree t str xs → Serves strTree t str xs) ∧
    (∀ t name xs, Reached resolverTree t name xs → Serves resolverTree t name xs) ∧
    (∀ t key xs, Reached fileCacheTree t key xs → Serves fileCacheTree t key xs) ∧
    ∀ key key' : CacheKey, key.nodeKey = key'.nodeKey ∧ key.rest = key'.rest ↔
      key.bytes = key'.bytes := by
  refine ⟨fun t str xs h => ?_,fun t name xs h => ?_,fun t key xs h => ?_,cache_key_parts⟩
  · exact inv_serves strTree t str xs (reached_inv strTree t str xs h)
  · exact inv_serves resolverTree t name xs (reached_inv resolverTree t name xs h)
  · exact inv_serves fileCacheTree t key xs (reached_inv fileCacheTree t key xs h)

section Run
variable {ν κ : Type} [LinearOrder κ] [DecidableEq ν] (c : Callbacks ν κ) (data : ℕ → ν)

def runCheck (s : Rbtree × List ℕ) : Step → Bool
  | .insert x => decide (x ∉ s.2 ∧ x ≠ s.1.sentinel) &&
      s.2.all fun y => !(s.1.key y = s.1.key x ∧ data y = data x)
  | .delete x => decide (x ∈ s.2)

theorem growing_reached (h : ((Runs.run (runStep (c.goesLeft data)) (runCheck data) (numbered, [])
    growing).any fun s => decide (s.2 = [6,5,4,2])) = true) : ∃ t, Reached c t data [6,5,4,2] := by
  obtain ⟨s,hs,hlast⟩ := Runs.run_reaches _ _ (fun s => Reached c s.1 data s.2)
    (fun s a s' hs ha h => by
      cases a with
      | insert x =>
        obtain ⟨t,hrun,rfl⟩ := Option.map_eq_some_iff.mp h
        obtain ⟨hx,hnew⟩ := Bool.and_eq_true_iff.mp ha
        obtain ⟨hx,hsentinel⟩ := of_decide_eq_true hx
        exact hs.insert x hx hsentinel (fun y hy => by
          simpa [imp_iff_not_or] using List.all_eq_true.mp hnew y hy) ⟨9,hrun⟩
      | delete x =>
        obtain ⟨t,hrun,rfl⟩ := Option.map_eq_some_iff.mp h
        exact hs.delete x (of_decide_eq_true ha) ⟨9,hrun⟩) growing (numbered, [])
    (Reached.init _ 1 data) _ h
  rw [of_decide_eq_true hlast] at hs
  exact ⟨s.1,hs⟩

end Run

/-- Trees of four nodes, one having been deleted. -/
theorem keyed_trees_growing : (∃ t str, Reached strTree t str [6,5,4,2] ∧ Serves strTree t str [6,5,4,2]) ∧
    (∃ t name, Reached resolverTree t name [6,5,4,2] ∧ Serves resolverTree t name [6,5,4,2]) ∧
    ∃ t key, Reached fileCacheTree t key [6,5,4,2] ∧ Serves fileCacheTree t key [6,5,4,2] := by
  obtain ⟨hstr,hresolver,hcache,-⟩ := keyed_trees
  obtain ⟨t1,h1⟩ := growing_reached strTree (fun x => [x % 2]) (by decide +kernel)
  obtain ⟨t2,h2⟩ := growing_reached resolverTree (fun x => [x % 2]) (by decide +kernel)
  obtain ⟨t3,h3⟩ := growing_reached fileCacheTree (fun x => ⟨[0,1,2,3,4,5,6,x % 2],rfl⟩)
    (by decide +kernel)
  exact ⟨⟨t1,_,h1,hstr _ _ _ h1⟩,⟨t2,_,h2,hresolver _ _ _ h2⟩,⟨t3,_,h3,hcache _ _ _ h3⟩⟩

end Nginx.KeyedTrees
