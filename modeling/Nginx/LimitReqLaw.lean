import Nginx.LimitReq

/-!
# The leaky bucket limits short keys

A node keeps the length of its key in one byte. For keys of up to 255 bytes a lookup
finds the node that the first request made, and the admitted requests of a key
are bounded by the burst and the rate. A request of a longer key is found by no later
one.
-/

set_option autoImplicit false

namespace Nginx.LimitReqLaw
open Nginx.RedBlackTree Nginx.NgxRbtree Nginx.RbtreeShape Nginx.RbtreeAddition Nginx.RbtreeKept
open Nginx.RbtreeSearch Nginx.RbtreeLaw Nginx.LimitReq

structure State where
  zone : Zone
  clock : ℕ

/-- Time does not run backwards, and the allocator gives a node that is not in use. -/
structure Valid (s : State) (r : Request) : Prop where
  clock : s.clock ≤ r.now
  now : r.now < 2^63
  alloc : ∀ (z : Zone) (node : ℕ), r.alloc z = some node → node ≠ z.rbtree.sentinel ∧
    ∀ xs, InOrder z.rbtree z.rbtree.root xs → node ∉ xs

inductive Reached (allowed : Request → Prop) : State → Prop where
  | init (nodes : ℕ → Node) (sentinel rate clock : ℕ) (len : ℕ → ℕ) (data : ℕ → List ℕ)
      (last excess : ℕ → ℕ) : Reached allowed
        ⟨⟨rate,ngxRbtreeInit nodes sentinel,len,data,last,excess,[]⟩,clock⟩
  | step (s : State) (r : Request) (fuel : ℕ) (o : Outcome) (h : Reached allowed s)
      (hvalid : Valid s r) (hr : allowed r)
      (hrun : ngxHttpLimitReqHandler fuel s.zone r = some o) : Reached allowed ⟨o.zone,r.now⟩

def zoneKey (z : Zone) (x : ℕ) : ℕ ×ₗ List ℕ := nodeKey (z.rbtree.key x) (z.stored x)

def valueKey (value : List ℕ) : ℕ ×ₗ List ℕ := nodeKey (ngxCrc32Short value) value

/-- A run in which `n` requests of a key have been admitted since `first`, the last one
at `last` against the given burst, and no request has removed the key's node. -/
inductive Counted (allowed : Request → Prop) (key : List ℕ) :
    State → ℕ → ℕ → ℕ → ℕ → Prop where
  | first (s : State) (r : Request) (fuel : ℕ) (o : Outcome) (burst : ℕ) (h : Reached allowed s)
      (hvalid : Valid s r) (hr : allowed r)
      (hrun : ngxHttpLimitReqHandler fuel s.zone r = some o) (hkey : r.value = some key)
      (hburst : r.burst = some burst) (hadmitted : o.admitted = true) :
      Counted allowed key ⟨o.zone,r.now⟩ r.now 1 r.now burst
  | next (s : State) (first n last old : ℕ) (r : Request) (fuel : ℕ) (o : Outcome) (burst : ℕ)
      (h : Counted allowed key s first n last old) (hvalid : Valid s r) (hr : allowed r)
      (hrun : ngxHttpLimitReqHandler fuel s.zone r = some o) (hkey : r.value = some key)
      (hburst : r.burst = some burst) (hadmitted : o.admitted = true)
      (hkept : ∀ x ∈ o.expired, zoneKey s.zone x ≠ valueKey key) :
      Counted allowed key ⟨o.zone,r.now⟩ first (n+1) r.now burst
  | other (s : State) (first n last burst : ℕ) (r : Request) (fuel : ℕ) (o : Outcome)
      (h : Counted allowed key s first n last burst) (hvalid : Valid s r) (hr : allowed r)
      (hrun : ngxHttpLimitReqHandler fuel s.zone r = some o)
      (hother : r.value ≠ some key ∨ o.admitted = false)
      (hkept : ∀ x ∈ o.expired, zoneKey s.zone x ≠ valueKey key) :
      Counted allowed key ⟨o.zone,r.now⟩ first n last burst

/-- The requests that leave the bucket of a key alone: bursts do not overflow, and no
other key looks like it once its length is cut to one byte. -/
structure Distinct (key : List ℕ) (r : Request) : Prop where
  burst : ∀ burst, r.burst = some burst → burst+1000 < 2^63
  value : ∀ value, r.value = some value → value ≠ key →
    nodeKey (ngxCrc32Short value) (value.take (value.length % 2^8)) ≠ valueKey key

theorem signed_eq (x : ℤ) (hl : -2^63 ≤ x) (hr : x < 2^63) : signed x = x := by
  rw [signed]
  omega

variable (now last : ℕ)

theorem elapsed_eq (h : last ≤ now) (hn : now < 2^63) : elapsed now last = now-last := by
  rw [elapsed, signed_eq _ (by omega) (by omega)]
  omega

theorem leaked_le (rate ms : ℕ) : leaked rate ms ≤ rate*ms/1000 ∧ leaked rate ms < 2^62 := by
  have h : rate*ms % 2^64 ≤ rate*ms := Nat.mod_le _ _
  have hlt : rate*ms % 2^64 < 2^64 := Nat.mod_lt _ (by decide)
  rw [leaked]
  omega

theorem leak_add (rate a b c : ℕ) (hab : a ≤ b) (hbc : b ≤ c) :
    rate*(b-a)/1000+rate*(c-b)/1000 ≤ rate*(c-a)/1000 := by
  have h : rate*(c-a) = rate*(b-a)+rate*(c-b) := by
    rw [← Nat.mul_add]
    congr 1
    omega
  rw [h]
  omega

section Charge
variable (z : Zone) (burst now x : ℕ)

theorem charge_spec (hx : z.excess x+1000 < 2^63) (hlast : z.last x ≤ now) (hnow : now < 2^63) :
    (charge z burst now x).2.2.rbtree = z.rbtree ∧ (charge z burst now x).2.2.rate = z.rate ∧
    (charge z burst now x).2.2.stored = z.stored ∧
    (charge z burst now x).2.2.queue = x::z.queue.erase x ∧
    (charge z burst now x).1 ≠ .declined ∧
    (∀ y, y ≠ x → (charge z burst now x).2.2.excess y = z.excess y ∧
      (charge z burst now x).2.2.last y = z.last y) ∧
    ((charge z burst now x).1 = .busy → (charge z burst now x).2.2.excess x = z.excess x ∧
      (charge z burst now x).2.2.last x = z.last x) ∧
    ((charge z burst now x).1 ≠ .busy → (charge z burst now x).2.2.excess x ≤ burst ∧
      (charge z burst now x).2.2.last x = now ∧
      z.excess x+1000 ≤ (charge z burst now x).2.2.excess x+z.rate*(now-z.last x)/1000) := by
  obtain ⟨hle,hlt⟩ := leaked_le z.rate (elapsed now (z.last x))
  rw [elapsed_eq now _ hlast hnow] at hle hlt
  have hsigned : signed ((z.excess x : ℤ)-leaked z.rate (elapsed now (z.last x))+1000) =
      (z.excess x : ℤ)-leaked z.rate (now-z.last x)+1000 := by
    rw [elapsed_eq now _ hlast hnow]
    exact signed_eq _ (by omega) (by omega)
  have hcharge : charge z burst now x =
      let z := { z with queue := x::z.queue.erase x }
      let excess := if (z.excess x : ℤ)-leaked z.rate (now-z.last x)+1000 < 0 then 0
        else ((z.excess x : ℤ)-leaked z.rate (now-z.last x)+1000).toNat
      if excess > burst then (.busy, excess, z)
      else (if excess ≠ 0 then .again else .ok, excess,
        { z with excess := Function.update z.excess x excess,
                 last := Function.update z.last x now }) := by
    simp only [charge, hsigned]
  have hexcess : z.excess x+1000 ≤ (if (z.excess x : ℤ)-leaked z.rate (now-z.last x)+1000 < 0 then 0
      else ((z.excess x : ℤ)-leaked z.rate (now-z.last x)+1000).toNat)+
        z.rate*(now-z.last x)/1000 := by
    split_ifs <;> omega
  rw [hcharge]
  simp only
  generalize (if (z.excess x : ℤ)-leaked z.rate (now-z.last x)+1000 < 0 then 0
    else ((z.excess x : ℤ)-leaked z.rate (now-z.last x)+1000).toNat) = excess at hexcess ⊢
  by_cases hbusy : excess > burst
  · rw [if_pos hbusy]
    exact ⟨rfl,rfl,rfl,rfl,nofun,fun y _ => ⟨rfl,rfl⟩,fun _ => ⟨rfl,rfl⟩,
      fun h => absurd rfl h⟩
  rw [if_neg hbusy]
  refine ⟨rfl,rfl,rfl,rfl,?_,fun y hy => ?_,fun h => ?_,fun _ => ?_⟩
  · split_ifs <;> exact nofun
  · exact ⟨Function.update_of_ne hy _ _,Function.update_of_ne hy _ _⟩
  · split_ifs at h
  · simp only [Function.update_self]
    exact ⟨by omega,trivial,hexcess⟩

end Charge

/-- The queue lists the nodes of a sorted tree, and no excess can overflow. -/
structure Inv (z : Zone) (clock : ℕ) (T : RedBlackTree.Tree ℕ) : Prop where
  kept : Kept z.rbtree (zoneKey z) T
  queue : z.queue.Perm T.ids
  bounded : ∀ x ∈ T.ids, z.excess x+1000 < 2^63 ∧ z.last x ≤ clock

/-- What `Inv` says of the tree and the queue alone. -/
structure Listed (z : Zone) (T : RedBlackTree.Tree ℕ) : Prop where
  kept : Kept z.rbtree (zoneKey z) T
  queue : z.queue.Perm T.ids

variable (z : Zone) (clock : ℕ) (T : RedBlackTree.Tree ℕ)

theorem inv_listed (h : Inv z clock T) : Listed z T :=
  ⟨h.kept,h.queue⟩

/-- `z'` is `z` without the nodes `removed`. -/
structure Shrunk (z : Zone) (T : RedBlackTree.Tree ℕ) (removed : List ℕ) (z' : Zone) (T' : RedBlackTree.Tree ℕ) : Prop where
  ids : ∀ y, y ∈ T'.ids ↔ y ∈ T.ids ∧ y ∉ removed
  key : ∀ y ∈ T'.ids, zoneKey z' y = zoneKey z y
  excess : z'.excess = z.excess
  last : z'.last = z.last
  rate : z'.rate = z.rate

theorem shrunk_refl : Shrunk z T [] z T :=
  ⟨fun y => by simp,fun y _ => rfl,rfl,rfl,rfl⟩

variable (z' : Zone)

theorem shrunk_trans (z'' : Zone) (T T' T'' : RedBlackTree.Tree ℕ) (xs ys : List ℕ)
    (h : Shrunk z T xs z' T') (h' : Shrunk z' T' ys z'' T'') : Shrunk z T (xs++ys) z'' T'' := by
  refine ⟨fun y => ?_,fun y hy => ?_,h'.excess.trans h.excess,h'.last.trans h.last,
    h'.rate.trans h.rate⟩
  · rw [h'.ids, h.ids, List.mem_append, not_or, and_assoc]
  · rw [h'.key y hy, h.key y ((h'.ids y).mp hy).1]

theorem remove_spec (lr : ℕ) (T : RedBlackTree.Tree ℕ) (h : Listed z T) (hlr : lr ∈ z.queue) :
    (∃ t, Deletes z.rbtree lr t) ∧ ∀ t, Deletes z.rbtree lr t →
      ∃ T', Listed { z with queue := z.queue.erase lr, rbtree := t } T' ∧
        Shrunk z T [lr] { z with queue := z.queue.erase lr, rbtree := t } T' := by
  have hin : lr ∈ T.ids := h.queue.mem_iff.mp hlr
  have hnodup := kept_nodup _ _ T h.kept
  obtain ⟨hends,hall⟩ := delete_kept z.rbtree (zoneKey z) T lr h.kept hin
  refine ⟨hends,fun t ht => ?_⟩
  obtain ⟨-,hkeys,T',hkept',hids⟩ := hall t ht
  have hmem : ∀ y, y ∈ T'.ids ↔ y ∈ T.ids ∧ y ∉ [lr] := by
    intro y
    rw [hids, List.Nodup.mem_erase_iff hnodup, List.mem_singleton, and_comm]
  have hkey : ∀ y ∈ T'.ids, zoneKey { z with queue := z.queue.erase lr, rbtree := t } y =
      zoneKey z y := by
    intro y hy
    have hne := ((hmem y).mp hy).2
    rw [List.mem_singleton] at hne
    show nodeKey (t.key y) _ = nodeKey _ _
    rw [hkeys y hne]
    rfl
  refine ⟨T',⟨kept_congr t _ _ T' hkept' hkey,?_⟩,hmem,hkey,rfl,rfl,rfl⟩
  rw [hids]
  exact h.queue.erase lr

variable (fuel : ℕ)

theorem expire_listed (now k : ℕ) (z z' : Zone) (T : RedBlackTree.Tree ℕ) (removed : List ℕ)
    (h : Listed z T) (hrun : expireLoop fuel now k z = some (z', removed)) :
    ∃ T', Listed z' T' ∧ Shrunk z T removed z' T' := by
  induction k generalizing z T removed with
  | zero =>
    cases hrun
    exact ⟨T,h,shrunk_refl _ T⟩
  | succ k ih =>
    rw [expireLoop] at hrun
    cases hlast : z.queue.getLast? with
    | none =>
      rw [hlast] at hrun
      cases hrun
      exact ⟨T,h,shrunk_refl _ T⟩
    | some lr =>
      rw [hlast] at hrun
      simp only at hrun
      have hlr : lr ∈ z.queue := List.mem_of_getLast? hlast
      split_ifs at hrun with hyoung
      · cases hrun
        exact ⟨T,h,shrunk_refl _ T⟩
      · obtain ⟨t,ht,hrest⟩ := Option.bind_eq_some_iff.mp hrun
        obtain ⟨⟨z1,rest⟩,hloop,hpair⟩ := Option.map_eq_some_iff.mp hrest
        cases hpair
        obtain ⟨T1,h1,hshrunk1⟩ := (remove_spec z lr T h hlr).2 t ⟨fuel,ht⟩
        obtain ⟨T2,h2,hshrunk2⟩ := ih _ T1 rest h1 hloop
        exact ⟨T2,h2,shrunk_trans _ _ _ _ _ _ _ _ hshrunk1 hshrunk2⟩

theorem expire_spec (now clock k : ℕ) (z z' : Zone) (T : RedBlackTree.Tree ℕ) (removed : List ℕ)
    (h : Inv z clock T) (hrun : expireLoop fuel now k z = some (z', removed)) :
    ∃ T', Inv z' clock T' ∧ Shrunk z T removed z' T' := by
  obtain ⟨T',hlisted,hs⟩ := expire_listed fuel now k z z' T removed (inv_listed z clock T h) hrun
  refine ⟨T',⟨hlisted.kept,hlisted.queue,fun x hx => ?_⟩,hs⟩
  rw [hs.excess, hs.last]
  exact h.bounded x ((hs.ids x).mp hx).1

def Sole (z : Zone) (T : RedBlackTree.Tree ℕ) (key : List ℕ) : Prop :=
  ∀ x ∈ T.ids, ∀ y ∈ T.ids, zoneKey z x = valueKey key → zoneKey z y = valueKey key → x = y

theorem inv_later (now : ℕ) (T : RedBlackTree.Tree ℕ) (h : Inv z clock T) (hle : clock ≤ now) :
    Inv z now T :=
  ⟨h.kept,h.queue,fun x hx => ⟨(h.bounded x hx).1,(h.bounded x hx).2.trans hle⟩⟩

theorem listed_in_order (h : Listed z T) : InOrder z.rbtree z.rbtree.root T.ids := by
  obtain ⟨⟨above,hat⟩,hsound,-⟩ := h.kept
  exact (holds_balanced _ above T hat hsound).inOrder

variable (burst : ℕ)

theorem lookup_spec (now : ℕ) (z z' : Zone) (T : RedBlackTree.Tree ℕ) (value : List ℕ) (rc : Rc)
    (e : ℕ) (h : Listed z T)
    (hrun : ngxHttpLimitReqLookup fuel z burst (ngxCrc32Short value) value now = some (rc, e, z')) :
    (∃ x ∈ T.ids, zoneKey z x = valueKey value ∧ charge z burst now x = (rc, e, z')) ∨
      (rc = .declined ∧ z' = z ∧ ∀ x ∈ T.ids, zoneKey z x ≠ valueKey value) := by
  obtain ⟨⟨above,hat⟩,-,hsorted⟩ := h.kept
  have hroot : z.rbtree.root = ptr z.rbtree.sentinel T := hat.path_at
  obtain ⟨found,hsearch,hsome,hnone⟩ := search_tree z.rbtree (zoneKey z) (valueKey value)
    (fun node => lookupCmp (ngxCrc32Short value) value (z.rbtree.key node) (z.stored node))
    (T.ids.length+1) _ T hat.tree_at hsorted (fun x => lookup_cmp_order _ _ _ _)
    (Nat.lt_succ_self _)
  rw [← hroot] at hsearch
  obtain ⟨found',hfound,hrest⟩ := Option.map_eq_some_iff.mp hrun
  have heq : found = found' := runs_agree (fun n => search z.rbtree _ n z.rbtree.root)
    (fun n u hu => search_more _ _ n _ u hu) _ _ _ _ hsearch hfound
  subst heq
  cases found with
  | some x =>
    obtain ⟨hx,hkey⟩ := hsome x rfl
    exact Or.inl ⟨x,hx,hkey,hrest⟩
  | none =>
    cases hrest
    exact Or.inr ⟨rfl,rfl,hnone rfl⟩

theorem charge_inv (now x : ℕ) (z : Zone) (T : RedBlackTree.Tree ℕ) (h : Inv z clock T)
    (hx : x ∈ T.ids) (hburst : burst+1000 < 2^63) (hclock : clock ≤ now) (hnow : now < 2^63) :
    Inv (charge z burst now x).2.2 now T ∧
      ∀ y, zoneKey (charge z burst now x).2.2 y = zoneKey z y := by
  obtain ⟨hexcess,hlast⟩ := h.bounded x hx
  obtain ⟨htree,-,hstored,hqueue,-,hothers,hbusy,hpaid⟩ :=
    charge_spec z burst now x hexcess (hlast.trans hclock) hnow
  have hkey : ∀ y, zoneKey (charge z burst now x).2.2 y = zoneKey z y := by
    intro y
    rw [zoneKey, htree, hstored]
    rfl
  refine ⟨⟨?_,?_,fun y hy => ?_⟩,hkey⟩
  · rw [htree]
    exact kept_congr _ (zoneKey z) _ T h.kept (fun y _ => hkey y)
  · rw [hqueue]
    exact (List.perm_cons_erase (h.queue.mem_iff.mpr hx)).symm.trans h.queue
  · obtain ⟨hexcessy,hlasty⟩ := h.bounded y hy
    by_cases hyx : y = x
    · subst hyx
      by_cases hrc : (charge z burst now y).1 = .busy
      · rw [(hbusy hrc).1, (hbusy hrc).2]
        exact ⟨hexcessy,hlasty.trans hclock⟩
      obtain ⟨hle,hl,-⟩ := hpaid hrc
      rw [hl]
      exact ⟨by omega,Nat.le_refl _⟩
    · rw [(hothers y hyx).1, (hothers y hyx).2]
      exact ⟨hexcessy,hlasty.trans hclock⟩

def enrolled (z : Zone) (node hash now : ℕ) (value : List ℕ) : Zone :=
  { z with rbtree := z.rbtree.setKey node hash,
           len := Function.update z.len node (value.length % 2^8),
           last := Function.update z.last node now,
           excess := Function.update z.excess node 0,
           data := Function.update z.data node value }

variable (node : ℕ)

theorem enrolled_key (hash now : ℕ) (value : List ℕ) (y : ℕ) :
    zoneKey (enrolled z node hash now value) y =
      if y = node then nodeKey hash (value.take (value.length % 2^8)) else zoneKey z y := by
  by_cases hy : y = node
  · subst hy
    simp [zoneKey, enrolled, Zone.stored]
  · simp [zoneKey, enrolled, Zone.stored, hy]

theorem new_bucket_listed (now node : ℕ) (z : Zone) (T : RedBlackTree.Tree ℕ) (value : List ℕ)
    (expired : List ℕ) (o : Outcome) (h : Listed z T) (hn : node ∉ T.ids)
    (hs : node ≠ z.rbtree.sentinel)
    (hrun : newBucket fuel z (ngxCrc32Short value) value now expired node = some o) :
    ∃ T', Listed o.zone T' ∧ (∀ y, y ∈ T'.ids ↔ y = node ∨ y ∈ T.ids) ∧
      zoneKey o.zone node = nodeKey (ngxCrc32Short value) (value.take (value.length % 2^8)) ∧
      o.zone.excess node = 0 ∧ o.zone.last node = now ∧
      ∀ y ∈ T.ids, zoneKey o.zone y = zoneKey z y ∧ o.zone.excess y = z.excess y ∧
        o.zone.last y = z.last y := by
  obtain ⟨t,ht,rfl⟩ := Option.map_eq_some_iff.mp hrun
  have hne : ∀ y ∈ T.ids, y ≠ node := fun y hy he => hn (he ▸ hy)
  have hkept : Kept (enrolled z node (ngxCrc32Short value) now value).rbtree
      (zoneKey (enrolled z node (ngxCrc32Short value) now value)) T :=
    kept_congr _ (zoneKey z) _ T (kept_write _ _ T node _ h.kept hn hs)
      (fun y hy => by rw [enrolled_key, if_neg (hne y hy)])
  obtain ⟨hkeys,T',before,after,hkept',⟨hids,-,-⟩,hids'⟩ := (insert_kept _ _ _ T node hkept
    hn hs (fun x => data_goes_left _ _ node x)).2 t ⟨fuel,ht⟩
  have hmem : ∀ y, y ∈ T'.ids ↔ y = node ∨ y ∈ T.ids := by
    intro y
    rw [hids', hids]
    simp only [List.mem_append, List.mem_cons]
    tauto
  have hkey : ∀ y, nodeKey (t.key y) ((enrolled z node (ngxCrc32Short value) now value).stored y) =
      zoneKey (enrolled z node (ngxCrc32Short value) now value) y := by
    intro y
    rw [hkeys.2]
    rfl
  refine ⟨T',⟨kept_congr t _ _ T' hkept' (fun y _ => hkey y),?_⟩,hmem,?_,
    Function.update_self ..,Function.update_self ..,fun y hy => ⟨?_,
      Function.update_of_ne (hne y hy) _ _,Function.update_of_ne (hne y hy) _ _⟩⟩
  · have hperm : (node::z.queue).Perm (node::(before++after)) := by
      rw [← hids]
      exact h.queue.cons node
    rw [hids']
    exact hperm.trans List.perm_middle.symm
  · refine (hkey node).trans ?_
    rw [enrolled_key, if_pos rfl]
  · refine (hkey y).trans ?_
    rw [enrolled_key, if_neg (hne y hy)]

theorem new_bucket_outcome (now node : ℕ) (z : Zone) (value : List ℕ) (expired : List ℕ)
    (o : Outcome) (hrun : newBucket fuel z (ngxCrc32Short value) value now expired node = some o) :
    o.answer = .declined ∧ o.limitReqSet = true ∧ o.admitted = true ∧ o.expired = expired ∧
      o.zone.rate = z.rate := by
  obtain ⟨t,-,rfl⟩ := Option.map_eq_some_iff.mp hrun
  exact ⟨rfl,rfl,rfl,rfl,rfl⟩

theorem new_bucket_inv (clock now node : ℕ) (z : Zone) (T : RedBlackTree.Tree ℕ) (value : List ℕ)
    (expired : List ℕ) (o : Outcome) (h : Inv z clock T) (hn : node ∉ T.ids)
    (hs : node ≠ z.rbtree.sentinel) (hclock : clock ≤ now)
    (hrun : newBucket fuel z (ngxCrc32Short value) value now expired node = some o) :
    ∃ T', Inv o.zone now T' ∧ (∀ y, y ∈ T'.ids ↔ y = node ∨ y ∈ T.ids) ∧
      zoneKey o.zone node = nodeKey (ngxCrc32Short value) (value.take (value.length % 2^8)) ∧
      o.zone.excess node = 0 ∧ o.zone.last node = now ∧
      ∀ y ∈ T.ids, zoneKey o.zone y = zoneKey z y ∧ o.zone.excess y = z.excess y ∧
        o.zone.last y = z.last y := by
  obtain ⟨T',hlisted,hmem,hknode,hexcess,hlast,hold⟩ :=
    new_bucket_listed fuel now node z T value expired o (inv_listed z clock T h) hn hs hrun
  refine ⟨T',⟨hlisted.kept,hlisted.queue,fun y hy => ?_⟩,hmem,hknode,hexcess,hlast,hold⟩
  rcases (hmem y).mp hy with rfl | hy
  · rw [hexcess, hlast]
    exact ⟨by decide,Nat.le_refl _⟩
  · rw [(hold y hy).2.1, (hold y hy).2.2]
    exact ⟨(h.bounded y hy).1,(h.bounded y hy).2.trans hclock⟩

variable (value key : List ℕ)

theorem value_key_ne (h : value ≠ key) : valueKey value ≠ valueKey key :=
  fun he => h (congrArg (fun k => (ofLex k).2) he)

structure Serves (z : Zone) (T : RedBlackTree.Tree ℕ) (r : Request) (key : List ℕ) (o : Outcome)
    (T' : RedBlackTree.Tree ℕ) : Prop where
  inv : Inv o.zone r.now T'
  sole : Sole o.zone T' key
  rate : o.zone.rate = z.rate
  admitted : r.value = some key → o.admitted = true → ∃ x ∈ T'.ids,
    zoneKey o.zone x = valueKey key ∧ o.zone.last x = r.now ∧
    (∀ burst, r.burst = some burst → o.zone.excess x ≤ burst) ∧
    ∀ y ∈ T.ids, zoneKey z y = valueKey key → y ∉ o.expired →
      z.excess y+1000 ≤ o.zone.excess x+z.rate*(r.now-z.last y)/1000
  other : r.value ≠ some key ∨ o.admitted = false → ∀ x ∈ T.ids, zoneKey z x = valueKey key →
    x ∉ o.expired → x ∈ T'.ids ∧ zoneKey o.zone x = valueKey key ∧
      o.zone.excess x = z.excess x ∧ o.zone.last x = z.last x

section Serve
variable (clock fuel burst : ℕ) (z z1 : Zone) (T T1 : RedBlackTree.Tree ℕ) (r : Request) (key value : List ℕ)
  (removed : List ℕ)

theorem sole_shrunk (h : Sole z T key) (hs : Shrunk z T removed z1 T1) : Sole z1 T1 key := by
  intro x hx y hy hkx hky
  rw [hs.key x hx] at hkx
  rw [hs.key y hy] at hky
  exact h x ((hs.ids x).mp hx).1 y ((hs.ids y).mp hy).1 hkx hky

theorem serves_quiet (h : Inv z1 clock T1) (hsole : Sole z T key) (hs : Shrunk z T removed z1 T1)
    (hclock : clock ≤ r.now) (a : Answer) (set : Bool) :
    Serves z T r key ⟨a,set,z1,false,removed⟩ T1 := by
  refine ⟨inv_later z1 clock r.now T1 h hclock,sole_shrunk z z1 T T1 key removed hsole hs,hs.rate,
    nofun,fun _ x hx hkx hr => ?_⟩
  have hx1 := (hs.ids x).mpr ⟨hx,hr⟩
  exact ⟨hx1,by rw [hs.key x hx1, hkx],by rw [hs.excess],by rw [hs.last]⟩

theorem serves_found (h : Inv z1 clock T1) (hsole : Sole z T key)
    (hs : Shrunk z T removed z1 T1) (hclock : clock ≤ r.now) (hnow : r.now < 2^63)
    (hvalue : r.value = some value) (hburst : r.burst = some burst) (hb : burst+1000 < 2^63)
    (x : ℕ) (hx : x ∈ T1.ids) (hkx : zoneKey z1 x = valueKey value) (a : Answer) :
    Serves z T r key ⟨a,true,(charge z1 burst r.now x).2.2,
      (charge z1 burst r.now x).1 ≠ .busy,removed⟩ T1 := by
  obtain ⟨hinv,hkey⟩ := charge_inv clock burst r.now x z1 T1 h hx hb hclock hnow
  obtain ⟨hexcess,hlast⟩ := h.bounded x hx
  obtain ⟨-,hrate,-,-,-,hothers,hbusy,hpaid⟩ :=
    charge_spec z1 burst r.now x hexcess (hlast.trans hclock) hnow
  have hsole1 := sole_shrunk z z1 T T1 key removed hsole hs
  refine ⟨hinv,fun y hy w hw hky hkw => ?_,hrate.trans hs.rate,fun hv hadm => ?_,
    fun hother y hy hky hr => ?_⟩
  · rw [hkey] at hky hkw
    exact hsole1 y hy w hw hky hkw
  · rw [hvalue] at hv
    have hvk : value = key := Option.some.inj hv
    subst hvk
    obtain ⟨hle,hl,hcharge⟩ := hpaid (of_decide_eq_true hadm)
    refine ⟨x,hx,by rw [hkey, hkx],hl,fun b hbb => ?_,fun y hy hky hr => ?_⟩
    · rw [hburst] at hbb
      rw [← Option.some.inj hbb]
      exact hle
    · have hy1 := (hs.ids y).mpr ⟨hy,hr⟩
      have hyx : y = x := hsole1 y hy1 x hx (by rw [hs.key y hy1, hky]) hkx
      rw [hyx, ← hs.excess, ← hs.rate, ← hs.last]
      exact hcharge
  · have hy1 := (hs.ids y).mpr ⟨hy,hr⟩
    have hky1 : zoneKey z1 y = valueKey key := by rw [hs.key y hy1, hky]
    refine ⟨hy1,by rw [hkey, hky1],?_⟩
    rw [← hs.excess, ← hs.last]
    rcases hother with hv | hadm
    · refine hothers y (fun he => ?_)
      rw [he, hkx] at hky1
      refine value_key_ne value key (fun hvk => hv ?_) hky1
      rw [hvalue, hvk]
    by_cases hyx : y = x
    · rw [hyx]
      exact hbusy (not_not.mp (of_decide_eq_false hadm))
    · exact hothers y hyx

theorem serves_new (h : Inv z1 clock T1) (hs : Shrunk z T removed z1 T1) (hsole : Sole z T key)
    (hclock : clock ≤ r.now) (hvalue : r.value = some value) (hd : Distinct key r)
    (hlen : key.length ≤ 255) (hnone : ∀ x ∈ T1.ids, zoneKey z1 x ≠ valueKey value) (node : ℕ)
    (hn : node ∉ T1.ids) (hsn : node ≠ z1.rbtree.sentinel) (o : Outcome)
    (hrun : newBucket fuel z1 (ngxCrc32Short value) value r.now removed node = some o) :
    ∃ T', Serves z T r key o T' := by
  obtain ⟨-,-,-,hexp,hrate⟩ := new_bucket_outcome fuel r.now node z1 value removed o hrun
  obtain ⟨T',hinv,hids,hknode,hexcess,hlast,hold⟩ :=
    new_bucket_inv fuel clock r.now node z1 T1 value removed o h hn hsn hclock hrun
  have hsole1 := sole_shrunk z z1 T T1 key removed hsole hs
  have hnode : value = key → zoneKey o.zone node = valueKey key := by
    rintro rfl
    rw [hknode, Nat.mod_eq_of_lt (by omega), List.take_length, valueKey]
  have hnot : value ≠ key → zoneKey o.zone node ≠ valueKey key := by
    intro hne
    rw [hknode]
    exact hd.value value hvalue hne
  refine ⟨T',hinv,fun x hx y hy hkx hky => ?_,hrate.trans hs.rate,fun hv _ => ?_,
    fun hother x hx hkx hr => ?_⟩
  · rcases (hids x).mp hx with hxn | hx <;> rcases (hids y).mp hy with hyn | hy
    · rw [hxn, hyn]
    · by_cases hvk : value = key
      · rw [(hold y hy).1, ← hvk] at hky
        exact absurd hky (hnone y hy)
      · exact absurd (hxn ▸ hkx) (hnot hvk)
    · by_cases hvk : value = key
      · rw [(hold x hx).1, ← hvk] at hkx
        exact absurd hkx (hnone x hx)
      · exact absurd (hyn ▸ hky) (hnot hvk)
    · rw [(hold x hx).1] at hkx
      rw [(hold y hy).1] at hky
      exact hsole1 x hx y hy hkx hky
  · rw [hvalue] at hv
    have hvk : value = key := Option.some.inj hv
    refine ⟨node,(hids node).mpr (Or.inl rfl),hnode hvk,hlast,fun b _ => ?_,
      fun y hy hky hr => ?_⟩
    · rw [hexcess]
      exact Nat.zero_le b
    · rw [hexp] at hr
      have hy1 := (hs.ids y).mpr ⟨hy,hr⟩
      rw [← hvk, ← hs.key y hy1] at hky
      exact absurd hky (hnone y hy1)
  · rw [hexp] at hr
    have hx1 := (hs.ids x).mpr ⟨hx,hr⟩
    obtain ⟨hk,he,hl⟩ := hold x hx1
    exact ⟨(hids x).mpr (Or.inr hx1),by rw [hk, hs.key x hx1, hkx],by rw [he, hs.excess],
      by rw [hl, hs.last]⟩

end Serve

theorem enter_serves (z : Zone) (T : RedBlackTree.Tree ℕ) (r : Request) (key value : List ℕ)
    (o : Outcome) (h : Inv z clock T) (hsole : Sole z T key) (hv : Valid ⟨z,clock⟩ r)
    (hd : Distinct key r) (hlen : key.length ≤ 255) (hvalue : r.value = some value)
    (hburst : r.burst = some burst)
    (hrun : enterZone fuel z r burst (ngxCrc32Short value) value = some o) :
    ∃ T', Serves z T r key o T' := by
  have hclock : clock ≤ r.now := hv.clock
  obtain ⟨⟨z1,removed⟩,hexpire,hfound⟩ := Option.bind_eq_some_iff.mp hrun
  obtain ⟨T1,h1,hs1⟩ := expire_spec fuel r.now clock _ z z1 T removed h hexpire
  obtain ⟨⟨rc,e,z2⟩,hlookup,hrest⟩ := Option.bind_eq_some_iff.mp hfound
  rcases lookup_spec fuel burst r.now z1 z2 T1 value rc e (inv_listed z1 clock T1 h1) hlookup with
    ⟨x,hx,hkx,hcharge⟩ | ⟨rfl,rfl,hnone⟩
  · have hne : rc ≠ .declined := by
      have hspec := charge_spec z1 burst r.now x (h1.bounded x hx).1
        ((h1.bounded x hx).2.trans hclock) hv.now
      rw [hcharge] at hspec
      exact hspec.2.2.2.2.1
    simp only [if_neg hne] at hrest
    have hserves := serves_found clock burst z z1 T T1 r key value removed h1 hsole hs1 hclock
      hv.now hvalue hburst (hd.burst burst hburst) x hx hkx (answer r rc)
    rw [hcharge] at hserves
    rw [← Option.some.inj hrest]
    exact ⟨T1,hserves⟩
  simp only [if_true] at hrest
  cases halloc : r.alloc z2 with
  | some node =>
    simp only [halloc] at hrest
    obtain ⟨hsn,hfree⟩ := hv.alloc z2 node halloc
    exact serves_new clock fuel z z2 T T1 r key value removed h1 hs1 hsole hclock hvalue hd hlen
      hnone node (hfree T1.ids (listed_in_order z2 T1 (inv_listed z2 clock T1 h1))) hsn o hrest
  | none =>
    simp only [halloc] at hrest
    obtain ⟨⟨z3,forced⟩,hexpire',hrest⟩ := Option.bind_eq_some_iff.mp hrest
    obtain ⟨T3,h3,hs3⟩ := expire_spec fuel r.now clock _ z2 z3 T1 forced h1 hexpire'
    have hs := shrunk_trans z z2 z3 T T1 T3 removed forced hs1 hs3
    have hnone3 : ∀ x ∈ T3.ids, zoneKey z3 x ≠ valueKey value := by
      intro x hx
      rw [hs3.key x hx]
      exact hnone x ((hs3.ids x).mp hx).1
    simp only at hrest
    cases halloc3 : r.alloc z3 with
    | some node =>
      simp only [halloc3] at hrest
      obtain ⟨hsn,hfree⟩ := hv.alloc z3 node halloc3
      exact serves_new clock fuel z z3 T T3 r key value _ h3 hs hsole hclock hvalue hd hlen
        hnone3 node (hfree T3.ids (listed_in_order z3 T3 (inv_listed z3 clock T3 h3))) hsn o hrest
    | none =>
      simp only [halloc3] at hrest
      rw [← Option.some.inj hrest]
      exact ⟨T3,serves_quiet clock z z3 T T3 r key _ h3 hsole hs hclock _ _⟩

variable (s : State)

theorem handler_serves (T : RedBlackTree.Tree ℕ) (r : Request) (key : List ℕ) (o : Outcome)
    (h : Inv s.zone s.clock T) (hsole : Sole s.zone T key) (hv : Valid s r) (hd : Distinct key r)
    (hlen : key.length ≤ 255) (hrun : ngxHttpLimitReqHandler fuel s.zone r = some o) :
    ∃ T', Serves s.zone T r key o T' := by
  have hquiet : Serves s.zone T r key ⟨.declined,r.limitReqSet,s.zone,false,[]⟩ T :=
    serves_quiet s.clock s.zone s.zone T T r key [] h hsole (shrunk_refl s.zone T) hv.clock _ _
  simp only [ngxHttpLimitReqHandler] at hrun
  by_cases hset : r.limitReqSet = true
  · rw [if_pos hset] at hrun
    rw [← Option.some.inj hrun]
    exact ⟨T,hquiet⟩
  rw [if_neg hset] at hrun
  cases hburst : r.burst with
  | none =>
    simp only [hburst] at hrun
    rw [← Option.some.inj hrun]
    exact ⟨T,hquiet⟩
  | some burst =>
    cases hvalue : r.value with
    | none =>
      simp only [hburst, hvalue] at hrun
      rw [← Option.some.inj hrun]
      exact ⟨T,hquiet⟩
    | some value =>
      simp only [hburst, hvalue] at hrun
      split_ifs at hrun with hempty hlong
      · rw [← Option.some.inj hrun]
        exact ⟨T,hquiet⟩
      · rw [← Option.some.inj hrun]
        exact ⟨T,hquiet⟩
      · exact enter_serves s.clock fuel burst s.zone T r key value o h hsole hv hd hlen hvalue
          hburst hrun

theorem reached_inv (hlen : key.length ≤ 255) (s : State) (h : Reached (Distinct key) s) :
    ∃ T, Inv s.zone s.clock T ∧ Sole s.zone T key := by
  induction h with
  | init nodes sentinel rate clock len data last excess =>
    exact ⟨.leaf,⟨kept_init nodes sentinel _,List.Perm.refl _,nofun⟩,nofun⟩
  | step s r fuel o h hvalid hr hrun ih =>
    obtain ⟨T,hinv,hsole⟩ := ih
    obtain ⟨T',hserves⟩ := handler_serves fuel s T r key o hinv hsole hvalid hr hlen hrun
    exact ⟨T',hserves.inv,hserves.sole⟩

/-- The node of a key after `n` admitted requests: each has paid a whole request, less
what has leaked since the first one. -/
structure Bucket (s : State) (T : RedBlackTree.Tree ℕ) (key : List ℕ) (x first n last burst : ℕ) : Prop where
  inv : Inv s.zone s.clock T
  sole : Sole s.zone T key
  mem : x ∈ T.ids
  key : zoneKey s.zone x = valueKey key
  lastAt : s.zone.last x = last
  order : first ≤ last
  within : s.zone.excess x ≤ burst
  count : 1000*n ≤ s.zone.excess x+1000+s.zone.rate*(last-first)/1000

theorem bucket_first (T : RedBlackTree.Tree ℕ) (r : Request) (key : List ℕ) (o : Outcome)
    (burst : ℕ) (T' : RedBlackTree.Tree ℕ) (h : Serves s.zone T r key o T')
    (hkey : r.value = some key) (hburst : r.burst = some burst) (hadmitted : o.admitted = true) :
    ∃ x, Bucket ⟨o.zone,r.now⟩ T' key x r.now 1 r.now burst := by
  obtain ⟨x,hx,hkx,hl,hle,-⟩ := h.admitted hkey hadmitted
  exact ⟨x,h.inv,h.sole,hx,hkx,hl,Nat.le_refl _,hle burst hburst,by
    show 1000*1 ≤ o.zone.excess x+1000+_
    omega⟩

theorem bucket_next (T : RedBlackTree.Tree ℕ) (r : Request) (key : List ℕ) (o : Outcome)
    (x first n last old burst : ℕ) (T' : RedBlackTree.Tree ℕ)
    (hb : Bucket s T key x first n last old) (h : Serves s.zone T r key o T')
    (hclock : s.clock ≤ r.now) (hkey : r.value = some key) (hburst : r.burst = some burst)
    (hadmitted : o.admitted = true) (hkept : ∀ x ∈ o.expired, zoneKey s.zone x ≠ valueKey key) :
    ∃ y, Bucket ⟨o.zone,r.now⟩ T' key y first (n+1) r.now burst := by
  obtain ⟨y,hy,hky,hl,hle,hpaid⟩ := h.admitted hkey hadmitted
  have hstep := hpaid x hb.mem hb.key (fun hx => hkept x hx hb.key)
  have hlast : last ≤ r.now := by
    rw [← hb.lastAt]
    exact (hb.inv.bounded x hb.mem).2.trans hclock
  have hleak := leak_add s.zone.rate first last r.now hb.order hlast
  have hcount := hb.count
  rw [hb.lastAt] at hstep
  refine ⟨y,h.inv,h.sole,hy,hky,hl,hb.order.trans hlast,hle burst hburst,?_⟩
  show 1000*(n+1) ≤ o.zone.excess y+1000+o.zone.rate*(r.now-first)/1000
  rw [h.rate]
  omega

theorem bucket_other (T : RedBlackTree.Tree ℕ) (r : Request) (key : List ℕ) (o : Outcome)
    (x first n last burst : ℕ) (T' : RedBlackTree.Tree ℕ) (hb : Bucket s T key x first n last burst)
    (h : Serves s.zone T r key o T') (hother : r.value ≠ some key ∨ o.admitted = false)
    (hkept : ∀ x ∈ o.expired, zoneKey s.zone x ≠ valueKey key) :
    Bucket ⟨o.zone,r.now⟩ T' key x first n last burst := by
  obtain ⟨hx,hkx,he,hl⟩ := h.other hother x hb.mem hb.key (fun hx => hkept x hx hb.key)
  refine ⟨h.inv,h.sole,hx,hkx,hl.trans hb.lastAt,hb.order,?_,?_⟩
  · show o.zone.excess x ≤ burst
    rw [he]
    exact hb.within
  · show 1000*n ≤ o.zone.excess x+1000+o.zone.rate*(last-first)/1000
    rw [he, h.rate]
    exact hb.count

theorem counted_bucket (hlen : key.length ≤ 255) (s : State) (first n last burst : ℕ)
    (h : Counted (Distinct key) key s first n last burst) :
    ∃ T x, Bucket s T key x first n last burst := by
  induction h with
  | first s r fuel o burst h hvalid hr hrun hkey hburst hadmitted =>
    obtain ⟨T,hinv,hsole⟩ := reached_inv key hlen s h
    obtain ⟨T',hserves⟩ := handler_serves fuel s T r key o hinv hsole hvalid hr hlen hrun
    exact ⟨T',bucket_first s T r key o burst T' hserves hkey hburst hadmitted⟩
  | next s first n last old r fuel o burst h hvalid hr hrun hkey hburst hadmitted hkept ih =>
    obtain ⟨T,x,hb⟩ := ih
    obtain ⟨T',hserves⟩ := handler_serves fuel s T r key o hb.inv hb.sole hvalid hr hlen hrun
    exact ⟨T',bucket_next s T r key o x first n last old burst T' hb hserves hvalid.clock hkey
      hburst hadmitted hkept⟩
  | other s first n last burst r fuel o h hvalid hr hrun hother hkept ih =>
    obtain ⟨T,x,hb⟩ := ih
    obtain ⟨T',hserves⟩ := handler_serves fuel s T r key o hb.inv hb.sole hvalid hr hlen hrun
    exact ⟨T',x,bucket_other s T r key o x first n last burst T' hb hserves hother hkept⟩

/-- While its node stays, a key of up to 255 bytes has no more requests admitted than one,
the burst and what the rate allows in the time since the first of them. -/
theorem limit_req_law (key : List ℕ) (s : State) (first n last burst : ℕ)
    (hlen : key.length ≤ 255) (h : Counted (Distinct key) key s first n last burst) :
    1000*(n-1) ≤ burst+s.zone.rate*(last-first)/1000 := by
  obtain ⟨T,x,hb⟩ := counted_bucket key hlen s first n last burst h
  have hcount := hb.count
  have hexcess := hb.within
  omega

def emptyZone : Zone :=
  ⟨1000,ngxRbtreeInit (fun _ => ⟨0,fun _ => 0,0,true⟩) 1,fun _ => 0,fun _ => [],fun _ => 0,
    fun _ => 0,[]⟩

def twoNodes (z : Zone) : Option ℕ :=
  if z.rbtree.sentinel = 1 ∧ z.rbtree.root = 1 then some 2
  else if z.rbtree.sentinel = 1 ∧ z.rbtree.root = 2 ∧ z.rbtree.link 2 .left = 1 ∧
    z.rbtree.link 2 .right = 1 then some 3
  else none

theorem two_nodes_free (h : twoNodes z = some node) :
    node ≠ z.rbtree.sentinel ∧ ∀ xs, InOrder z.rbtree z.rbtree.root xs → node ∉ xs := by
  have hleaf : InOrder z.rbtree z.rbtree.sentinel [] := InOrder.sentinel
  rw [twoNodes] at h
  split_ifs at h with hempty hsingle
  · cases h
    refine ⟨by omega,fun xs hxs => ?_⟩
    rw [hempty.2, ← hempty.1] at hxs
    rw [in_order_eq _ _ _ _ hxs hleaf]
    exact List.not_mem_nil
  · cases h
    obtain ⟨hs,hroot,hl,hr⟩ := hsingle
    have hnode : InOrder z.rbtree 2 ([]++2::[]) := by
      refine InOrder.node 2 [] [] ?_ ?_ ?_
      · omega
      · rw [hl, ← hs]
        exact hleaf
      · rw [hr, ← hs]
        exact hleaf
    refine ⟨by omega,fun xs hxs => ?_⟩
    rw [hroot] at hxs
    rw [in_order_eq _ _ _ _ hxs hnode]
    decide

def arrival (key : List ℕ) (burst now : ℕ) : Request :=
  ⟨false,some burst,false,some key,now,twoNodes,true⟩

theorem arrival_valid (burst now : ℕ) (s : State) (hclock : s.clock ≤ now) (hnow : now < 2^63) :
    Valid s (arrival key burst now) :=
  ⟨hclock,hnow,two_nodes_free⟩

theorem arrival_distinct (burst now : ℕ) (h : burst+1000 < 2^63) :
    Distinct key (arrival key burst now) := by
  refine ⟨fun b hb => ?_,fun value hv hne => ?_⟩
  · cases hb
    exact h
  · cases hv
    exact absurd rfl hne

/-- Two requests of one key, the second one when half of the first has leaked. -/
theorem limit_req_law_second : ∃ s, Counted (Distinct [97]) [97] s 0 2 500 500 ∧
    1000*(2-1) ≤ 500+s.zone.rate*(500-0)/1000 := by
  have hinit : Reached (Distinct [97]) ⟨emptyZone,0⟩ := Reached.init _ 1 1000 0 _ _ _ _
  have hfirst := Counted.first _ (arrival [97] 500 0) 1 _ 500 hinit
    (arrival_valid _ _ _ _ (Nat.le_refl 0) (by decide)) (arrival_distinct _ _ _ (by decide)) rfl rfl
    rfl rfl
  have hsecond := Counted.next _ 0 1 0 500 (arrival [97] 500 500) 2 _ 500 hfirst
    (arrival_valid _ _ _ _ (by decide) (by decide)) (arrival_distinct _ _ _ (by decide)) rfl rfl
    rfl rfl nofun
  exact ⟨_,hsecond,limit_req_law [97] _ 0 2 500 500 (by decide) hsecond⟩

def longKey : List ℕ := List.replicate 256 97

theorem long_key_run : (ngxHttpLimitReqHandler 1 emptyZone (arrival longKey 0 0)).any (fun o =>
    o.admitted && (ngxHttpLimitReqHandler 2 o.zone (arrival longKey 0 0)).any fun o' =>
      o'.admitted && o'.expired.isEmpty) = true := by
  decide +kernel

/-- The length of a key of 256 bytes is stored as 0, and no request finds its node. -/
theorem long_key_unlimited : ¬ ∀ key s first n last burst, key.length ≤ 65535 →
    Counted (fun _ => True) key s first n last burst →
      1000*(n-1) ≤ burst+s.zone.rate*(last-first)/1000 := by
  intro hall
  have hinit : Reached (fun _ => True) ⟨emptyZone,0⟩ := Reached.init _ 1 1000 0 _ _ _ _
  obtain ⟨first,hfirst,hrun⟩ := (Option.any_eq_true _ _).mp long_key_run
  obtain ⟨hadmitted,hrun⟩ := Bool.and_eq_true_iff.mp hrun
  obtain ⟨second,hsecond,hrun⟩ := (Option.any_eq_true _ _).mp hrun
  obtain ⟨hagain,hempty⟩ := Bool.and_eq_true_iff.mp hrun
  have hexpired : second.expired = [] := List.isEmpty_iff.mp hempty
  have hone : Counted (fun _ => True) longKey ⟨first.zone,0⟩ 0 1 0 0 :=
    Counted.first _ (arrival longKey 0 0) 1 first 0 hinit
      (arrival_valid _ _ _ _ (Nat.le_refl 0) (by decide)) trivial hfirst rfl rfl hadmitted
  have htwo : Counted (fun _ => True) longKey ⟨second.zone,0⟩ 0 2 0 0 :=
    Counted.next ⟨first.zone,0⟩ 0 1 0 0 (arrival longKey 0 0) 2 second 0 hone
      (arrival_valid _ _ _ _ (Nat.le_refl 0) (by decide)) trivial hsecond rfl rfl hagain
      (by rw [hexpired]; nofun)
  have hlength : longKey.length ≤ 65535 := by
    simp only [longKey, List.length_replicate]
    omega
  have hlimit := hall _ _ 0 2 0 0 hlength htwo
  simp at hlimit

end Nginx.LimitReqLaw
