import Nginx.LimitZone
import Nginx.Runs
import Mathlib.Data.List.Count

/-!
# The connections of a key are counted

The counter of a node is the number of pending cleanups that hold it, and a node is
in the tree while there are any.
-/

set_option autoImplicit false

namespace Nginx.LimitZoneLaw
open Nginx.RedBlackTree Nginx.NgxRbtree Nginx.RbtreeShape Nginx.RbtreeAddition Nginx.RbtreeKept
open Nginx.RbtreeSearch Nginx.RbtreeLaw Nginx.LimitZone

def zoneKey (z : Zone) (x : ℕ) : ℕ ×ₗ List ℕ := nodeKey (z.rbtree.key x) (z.data x)

def holders (s : State) (x : ℕ) : ℕ := s.pending.countP (fun p => p.node = x)

structure Inv (s : State) (T : RedBlackTree.Tree ℕ) : Prop where
  kept : Kept s.zone.rbtree (zoneKey s.zone) T
  hash : ∀ x ∈ T.ids, s.zone.rbtree.key x = ngxCrc32Short (s.zone.data x)
  distinct : ∀ x ∈ T.ids, ∀ y ∈ T.ids, s.zone.data x = s.zone.data y → x = y
  held : ∀ p ∈ s.pending, p.node ∈ T.ids ∧ s.zone.data p.node = p.value
  conn : ∀ x ∈ T.ids, s.zone.conn x = holders s x ∧ 0 < holders s x ∧ holders s x ≤ 65535

section Inv
variable (s : State) (T : RedBlackTree.Tree ℕ)

theorem inv_in_order (h : Inv s T) (xs : List ℕ) :
    InOrder s.zone.rbtree s.zone.rbtree.root xs ↔ xs = T.ids := by
  obtain ⟨⟨above,hat⟩,hsound,-⟩ := h.kept
  have hin := (holds_balanced _ above T hat hsound).inOrder
  exact ⟨fun hxs => in_order_eq _ _ _ _ hxs hin,fun he => he ▸ hin⟩

theorem admitted_conn (h : Inv s T) (x : ℕ) (hx : x ∈ T.ids) :
    admitted s (s.zone.data x) = holders s x := by
  refine List.countP_congr (fun p hp => ?_)
  obtain ⟨hin,hvalue⟩ := h.held p hp
  rw [← hvalue, decide_eq_true_eq, decide_eq_true_eq]
  exact ⟨fun he => h.distinct _ hin _ hx he,fun he => by rw [he]⟩

theorem admitted_none (h : Inv s T) (value : List ℕ)
    (hn : ∀ x ∈ T.ids, s.zone.data x ≠ value) : admitted s value = 0 := by
  refine List.countP_eq_zero.mpr (fun p hp => ?_)
  obtain ⟨hin,hvalue⟩ := h.held p hp
  rw [decide_eq_true_eq, ← hvalue]
  exact hn _ hin

theorem zone_search (h : Inv s T) (value : List ℕ) :
    let cmp := fun node => lookupCmp (ngxCrc32Short value) value (s.zone.rbtree.key node) (s.zone.data node)
    (∃ found, search s.zone.rbtree cmp (T.ids.length+1) s.zone.rbtree.root = some found) ∧
    ∀ fuel found, search s.zone.rbtree cmp fuel s.zone.rbtree.root = some found →
      (∀ x, found = some x → x ∈ T.ids ∧ s.zone.data x = value) ∧
      (found = none → ∀ x ∈ T.ids, s.zone.data x ≠ value) := by
  intro cmp
  obtain ⟨⟨above,hat⟩,-,hsorted⟩ := h.kept
  have hroot : s.zone.rbtree.root = ptr s.zone.rbtree.sentinel T := hat.path_at
  obtain ⟨r,hrun,hsome,hnone⟩ := search_tree s.zone.rbtree (zoneKey s.zone)
    (nodeKey (ngxCrc32Short value) value) cmp (T.ids.length+1) _ T hat.tree_at hsorted
    (fun x => lookup_cmp_order _ _ _ _) (Nat.lt_succ_self _)
  rw [← hroot] at hrun
  refine ⟨⟨r,hrun⟩,fun fuel found hfound => ?_⟩
  have heq : r = found := runs_agree (fun n => search s.zone.rbtree cmp n s.zone.rbtree.root)
    (fun n u hu => search_more _ _ n _ u hu) _ _ _ _ hrun hfound
  subst heq
  refine ⟨fun x hx => ?_,fun hr x hx hdata => hnone hr x hx ?_⟩
  · obtain ⟨hin,hkey⟩ := hsome x hx
    refine ⟨hin,?_⟩
    have := congrArg (fun k => (ofLex k).2) hkey
    exact this
  · rw [zoneKey, h.hash x hx, hdata]

theorem admit_held (h : Inv s T) (x : ℕ) (hx : x ∈ T.ids) (hlt : s.zone.conn x < 65535) :
    Inv ⟨{ s.zone with conn := Function.update s.zone.conn x ((s.zone.conn x+1) % 2^16) },
      ⟨x,s.zone.data x⟩::s.pending⟩ T := by
  obtain ⟨hconn,hpos,hle⟩ := h.conn x hx
  refine ⟨h.kept,h.hash,h.distinct,fun p hp => ?_,fun y hy => ?_⟩
  · rcases List.mem_cons.mp hp with rfl | hp
    · exact ⟨hx,rfl⟩
    · exact h.held p hp
  · obtain ⟨hconny,hposy,hley⟩ := h.conn y hy
    simp only [holders, List.countP_cons, decide_eq_true_eq] at hconn hpos hle hconny hposy hley ⊢
    by_cases hyx : y = x
    · subst hyx
      rw [Function.update_self, if_pos rfl]
      omega
    · rw [Function.update_of_ne hyx, if_neg (Ne.symm hyx)]
      exact ⟨hconny,hposy,hley⟩

theorem entered_kept (h : Inv s T) (value : List ℕ) (node : ℕ) (hn : node ∉ T.ids)
    (hs : node ≠ s.zone.rbtree.sentinel) :
    Kept (s.zone.rbtree.setKey node (ngxCrc32Short value)) (fun y => nodeKey
        ((s.zone.rbtree.setKey node (ngxCrc32Short value)).key y) (Function.update s.zone.data node value y)) T ∧
      ∀ y ∈ T.ids, (s.zone.rbtree.setKey node (ngxCrc32Short value)).key y = s.zone.rbtree.key y ∧
        Function.update s.zone.data node value y = s.zone.data y ∧
        Function.update s.zone.conn node 1 y = s.zone.conn y := by
  have hsame : ∀ y ∈ T.ids, (s.zone.rbtree.setKey node (ngxCrc32Short value)).key y = s.zone.rbtree.key y ∧
      Function.update s.zone.data node value y = s.zone.data y ∧
      Function.update s.zone.conn node 1 y = s.zone.conn y := by
    intro y hy
    have hne : y ≠ node := fun he => hn (he ▸ hy)
    exact ⟨by simp [hne],Function.update_of_ne hne _ _,Function.update_of_ne hne _ _⟩
  refine ⟨kept_congr _ (zoneKey s.zone) _ T (kept_write _ _ T node _ h.kept hn hs)
    (fun y hy => ?_),hsame⟩
  obtain ⟨hkey,hdata,-⟩ := hsame y hy
  rw [hkey, hdata]
  rfl

theorem admit_new (h : Inv s T) (value : List ℕ) (node : ℕ) (t : Rbtree) (hn : node ∉ T.ids)
    (hs : node ≠ s.zone.rbtree.sentinel) (hvalue : ∀ x ∈ T.ids, s.zone.data x ≠ value)
    (hrun : Inserts (dataGoesLeft (Function.update s.zone.data node value))
      (s.zone.rbtree.setKey node (ngxCrc32Short value)) node t) :
    ∃ T', Inv ⟨⟨t,Function.update s.zone.data node value,
      Function.update s.zone.conn node 1⟩,⟨node,value⟩::s.pending⟩ T' := by
  obtain ⟨hkept,hsame⟩ := entered_kept s T h value node hn hs
  obtain ⟨hkeys,T',before,after,hkept',⟨hids,-,-⟩,hids'⟩ := (insert_kept _ _ _ T node hkept
    hn hs (fun x => data_goes_left _ _ node x)).2 t hrun
  have hmem : ∀ y, y ∈ T'.ids ↔ y = node ∨ y ∈ T.ids := by
    intro y
    rw [hids', hids]
    simp only [List.mem_append, List.mem_cons]
    tauto
  have hfresh : ∀ p ∈ s.pending, p.node ≠ node := fun p hp he => hn (he ▸ (h.held p hp).1)
  have hdata : Function.update s.zone.data node value node = value := Function.update_self ..
  have hnew : t.key node = ngxCrc32Short value := by
    rw [hkeys.2]
    simp
  have hkey : ∀ y ∈ T.ids, t.key y = s.zone.rbtree.key y := by
    intro y hy
    rw [hkeys.2]
    exact (hsame y hy).1
  refine ⟨T',kept_congr t _ _ T' hkept' (fun y _ => ?_),fun y hy => ?_,fun y hy z hz he => ?_,
    fun p hp => ?_,fun y hy => ?_⟩
  · show nodeKey (t.key y) _ = nodeKey _ _
    rw [hkeys.2]
  · rcases (hmem y).mp hy with rfl | hy
    · show t.key y = ngxCrc32Short (Function.update s.zone.data y value y)
      rw [hnew, hdata]
    show t.key y = ngxCrc32Short (Function.update s.zone.data node value y)
    rw [hkey y hy, (hsame y hy).2.1]
    exact h.hash y hy
  · have he' : Function.update s.zone.data node value y = Function.update s.zone.data node value z :=
      he
    rcases (hmem y).mp hy with hyn | hy <;> rcases (hmem z).mp hz with hzn | hz
    · rw [hyn, hzn]
    · rw [hyn, hdata, (hsame z hz).2.1] at he'
      exact absurd he'.symm (hvalue z hz)
    · rw [hzn, hdata, (hsame y hy).2.1] at he'
      exact absurd he' (hvalue y hy)
    · rw [(hsame y hy).2.1, (hsame z hz).2.1] at he'
      exact h.distinct y hy z hz he'
  · rcases List.mem_cons.mp hp with rfl | hp
    · exact ⟨(hmem node).mpr (Or.inl rfl),hdata⟩
    · obtain ⟨hin,hval⟩ := h.held p hp
      exact ⟨(hmem _).mpr (Or.inr hin),(hsame _ hin).2.1.trans hval⟩
  · have hzero : s.pending.countP (fun p => decide (p.node = node)) = 0 :=
      List.countP_eq_zero.mpr (fun p hp => by simpa using hfresh p hp)
    simp only [holders, List.countP_cons, decide_eq_true_eq]
    rcases (hmem y).mp hy with rfl | hy
    · rw [Function.update_self, hzero, if_pos rfl]
      omega
    have hne : node ≠ y := fun he => hn (he ▸ hy)
    rw [(hsame y hy).2.2, if_neg hne]
    exact h.conn y hy

theorem erase_holders (p : Pending) (hp : p ∈ s.pending) (y : ℕ) :
    (s.pending.erase p).countP (fun q => decide (q.node = y)) =
      holders s y-if y = p.node then 1 else 0 := by
  rw [List.countP_erase]
  simp only [hp, true_and, decide_eq_true_eq, @eq_comm _ p.node y]
  rfl

/-- The counters of the other nodes are not touched by a cleanup. -/
theorem erase_others (h : Inv s T) (p : Pending) (hp : p ∈ s.pending) (n y : ℕ) (hy : y ∈ T.ids)
    (hne : y ≠ p.node) :
    Function.update s.zone.conn p.node n y = (s.pending.erase p).countP (fun q => q.node = y) ∧
      0 < (s.pending.erase p).countP (fun q => q.node = y) ∧
      (s.pending.erase p).countP (fun q => q.node = y) ≤ 65535 := by
  rw [Function.update_of_ne hne, erase_holders s p hp, if_neg hne, Nat.sub_zero]
  exact h.conn y hy

theorem cleanup_held (h : Inv s T) (p : Pending) (hp : p ∈ s.pending)
    (hlast : holders s p.node-1 ≠ 0) :
    Inv ⟨{ s.zone with conn := Function.update s.zone.conn p.node (holders s p.node-1) },
      s.pending.erase p⟩ T := by
  refine ⟨h.kept,h.hash,h.distinct,fun q hq => h.held q (List.mem_of_mem_erase hq),
    fun y hy => ?_⟩
  by_cases hne : y = p.node
  · obtain ⟨hconn,hpos,hle⟩ := h.conn y hy
    subst hne
    simp only [holders] at hpos hle hlast ⊢
    rw [Function.update_self, erase_holders s p hp, if_pos rfl]
    exact ⟨rfl,Nat.pos_of_ne_zero hlast,(Nat.sub_le _ _).trans hle⟩
  · exact erase_others s T h p hp _ y hy hne

theorem cleanup_last (h : Inv s T) (p : Pending) (hp : p ∈ s.pending)
    (hlast : holders s p.node-1 = 0) (t : Rbtree) (hrun : Deletes s.zone.rbtree p.node t) :
    ∃ T', Inv ⟨⟨t,s.zone.data,Function.update s.zone.conn p.node (holders s p.node-1)⟩,
      s.pending.erase p⟩ T' := by
  obtain ⟨hin,-⟩ := h.held p hp
  obtain ⟨-,hkeys,T',hkept',hids⟩ := (delete_kept s.zone.rbtree (zoneKey s.zone) T p.node h.kept
    hin).2 t hrun
  have hmem : ∀ y, y ∈ T'.ids ↔ y ≠ p.node ∧ y ∈ T.ids := by
    intro y
    rw [hids]
    exact List.Nodup.mem_erase_iff (kept_nodup _ _ T h.kept)
  refine ⟨T',kept_congr t _ _ T' hkept' (fun y hy => ?_),fun y hy => ?_,
    fun y hy z hz => h.distinct y ((hmem y).mp hy).2 z ((hmem z).mp hz).2,fun q hq => ?_,
    fun y hy => ?_⟩
  · show nodeKey (t.key y) _ = nodeKey _ _
    rw [hkeys y ((hmem y).mp hy).1]
  · rw [← h.hash y ((hmem y).mp hy).2]
    exact hkeys y ((hmem y).mp hy).1
  · obtain ⟨hq',hval⟩ := h.held q (List.mem_of_mem_erase hq)
    refine ⟨(hmem _).mpr ⟨fun he => ?_,hq'⟩,hval⟩
    have hpos : 0 < (s.pending.erase p).countP (fun q => decide (q.node = p.node)) :=
      List.countP_pos_iff.mpr ⟨q,hq,decide_eq_true he⟩
    rw [erase_holders s p hp, if_pos rfl] at hpos
    omega
  · exact erase_others s T h p hp _ y ((hmem y).mp hy).2 ((hmem y).mp hy).1

theorem cleanup_inv (h : Inv s T) (p : Pending) (hp : p ∈ s.pending) :
    (∃ fuel z, ngxHttpLimitZoneCleanup fuel s.zone p.node = some z) ∧
    ∀ fuel z, ngxHttpLimitZoneCleanup fuel s.zone p.node = some z →
      ∃ T', Inv ⟨z,s.pending.erase p⟩ T' := by
  obtain ⟨hin,-⟩ := h.held p hp
  obtain ⟨hconn,hpos,hle⟩ := h.conn _ hin
  have hless : (s.zone.conn p.node+(2^16-1)) % 2^16 = holders s p.node-1 := by
    omega
  simp only [ngxHttpLimitZoneCleanup, Function.update_self, hless]
  by_cases hlast : holders s p.node-1 = 0
  · simp only [if_pos hlast]
    obtain ⟨t,fuel,hrun⟩ := (delete_kept s.zone.rbtree (zoneKey s.zone) T p.node h.kept hin).1
    refine ⟨⟨fuel,_,by rw [hrun]; rfl⟩,fun fuel z hz => ?_⟩
    obtain ⟨t,hrun,rfl⟩ := Option.map_eq_some_iff.mp hz
    exact cleanup_last s T h p hp hlast t ⟨fuel,hrun⟩
  · simp only [if_neg hlast]
    refine ⟨⟨0,_,rfl⟩,fun fuel z hz => ?_⟩
    cases hz
    exact ⟨T,cleanup_held s T h p hp hlast⟩

/-- A request that comes to the zone with a limit and a value of its key. -/
structure Limited (r : Request) (conn : ℕ) (value : List ℕ) : Prop where
  first : r.limitZoneSet = false
  limit : r.conn = some conn
  key : r.value = some value
  length : 0 < value.length ∧ value.length ≤ 255

/-- The request is counted exactly when it is let through, which it is below the limit if there is
memory for its cleanup and, for the first of its key, for a node. -/
structure Decides (r : Request) (conn : ℕ) (value : List ℕ) (o : Outcome) : Prop where
  set : o.limitZoneSet = true
  answer : o.answer = if r.cleanup = false then .internalServerError
    else if admitted s value < conn ∧ (admitted s value = 0 → r.alloc ≠ none) then .declined
    else .serviceUnavailable
  counted : o.node ≠ none ↔ o.answer = .declined
  refused : o.node = none → o.zone = s.zone

def Answers (r : Request) (o : Outcome) : Prop :=
  ((∀ conn value, ¬Limited r conn value) → o = ⟨.declined,r.limitZoneSet,s.zone,none⟩) ∧
    ∀ conn value, Limited r conn value → Decides s r conn value o

def Admits (r : Request) (o : Outcome) : Prop := (∃ T', Inv (s.after r o) T') ∧ Answers s r o

theorem passed_admits (h : Inv s T) (r : Request) (hfree : ∀ conn value, ¬Limited r conn value) :
    Admits s r ⟨.declined,r.limitZoneSet,s.zone,none⟩ :=
  ⟨⟨T,h⟩,fun _ => rfl,fun conn value hr => absurd hr (hfree conn value)⟩

theorem limited_answers (r : Request) (conn : ℕ) (value : List ℕ) (o : Outcome)
    (hr : Limited r conn value) (hdecides : Decides s r conn value o) : Answers s r o := by
  refine ⟨fun hfree => absurd hr (hfree conn value),fun conn' value' hr' => ?_⟩
  cases hr.limit.symm.trans hr'.limit
  cases hr.key.symm.trans hr'.key
  exact hdecides

theorem refused_admits (h : Inv s T) (r : Request) (conn : ℕ) (value : List ℕ)
    (hr : Limited r conn value) (hcleanup : r.cleanup = true)
    (hno : ¬(admitted s value < conn ∧ (admitted s value = 0 → r.alloc ≠ none))) :
    Admits s r ⟨.serviceUnavailable,true,s.zone,none⟩ := by
  refine ⟨⟨T,h⟩,limited_answers s r conn value _ hr ⟨rfl,?_,?_,fun _ => rfl⟩⟩
  · rw [hcleanup, if_neg (by decide), if_neg hno]
  · exact iff_of_false (fun hn => hn rfl) nofun

theorem counted_answers (r : Request) (conn : ℕ) (value : List ℕ) (node : ℕ) (z : Zone)
    (hr : Limited r conn value) (hcleanup : r.cleanup = true) (hlt : admitted s value < conn)
    (hnode : admitted s value = 0 → r.alloc ≠ none) :
    Answers s r ⟨.declined,true,z,some node⟩ := by
  refine limited_answers s r conn value _ hr ⟨rfl,?_,?_,nofun⟩
  · rw [hcleanup, if_neg (by decide), if_pos ⟨hlt,hnode⟩]
  · exact iff_of_true nofun rfl

theorem alloc_fresh (h : Inv s T) (r : Request) (hvalid : Valid s.zone r) (node : ℕ)
    (ha : r.alloc = some node) : node ∉ T.ids ∧ node ≠ s.zone.rbtree.sentinel :=
  ⟨(hvalid.alloc node ha).2 T.ids ((inv_in_order s T h T.ids).mpr rfl),(hvalid.alloc node ha).1⟩

theorem enter_returns (h : Inv s T) (r : Request) (conn : ℕ) (value : List ℕ)
    (hvalid : Valid s.zone r) :
    ∃ fuel o, enterZone fuel s.zone r conn (ngxCrc32Short value) value = some o := by
  obtain ⟨⟨found,hfound⟩,-⟩ := zone_search s T h value
  cases found with
  | some x =>
    refine ⟨T.ids.length+1,?_⟩
    rw [enterZone, hfound, Option.bind_some]
    by_cases hlt : s.zone.conn x < conn
    · exact ⟨_,if_pos hlt⟩
    · exact ⟨_,if_neg hlt⟩
  | none =>
    cases ha : r.alloc with
    | none =>
      refine ⟨T.ids.length+1,⟨.serviceUnavailable,true,s.zone,none⟩,?_⟩
      rw [enterZone, hfound, Option.bind_some]
      simp only [ha]
    | some node =>
      obtain ⟨hn,hs⟩ := alloc_fresh s T h r hvalid node ha
      obtain ⟨hkept,-⟩ := entered_kept s T h value node hn hs
      obtain ⟨⟨t,fuel,hins⟩,-⟩ := insert_kept
        (dataGoesLeft (Function.update s.zone.data node value)) _ _ T node hkept hn hs
        (fun x => data_goes_left _ _ node x)
      have hsearch := runs_more (fun n => search s.zone.rbtree _ n s.zone.rbtree.root)
        (fun n u hu => search_more _ _ n _ u hu) _ fuel _ hfound
      have hinsert := runs_more (fun n => ngxRbtreeInsert _ n _ node)
        (fun n u hu => rbtree_insert_more _ _ node n u hu) _ (T.ids.length+1) _ hins
      rw [Nat.add_comm] at hinsert
      refine ⟨T.ids.length+1+fuel,?_⟩
      rw [enterZone, hsearch, Option.bind_some]
      simp only [ha]
      exact ⟨_,Option.map_eq_some_iff.mpr ⟨t,hinsert,rfl⟩⟩

theorem enter_admits (h : Inv s T) (r : Request) (conn : ℕ) (value : List ℕ)
    (hvalid : Valid s.zone r) (hr : Limited r conn value) (hcleanup : r.cleanup = true)
    (fuel : ℕ) (o : Outcome)
    (hrun : enterZone fuel s.zone r conn (ngxCrc32Short value) value = some o) :
    Admits s r o := by
  obtain ⟨hpos,hle⟩ := hvalid.conn conn hr.limit
  have hsome : r.value.getD [] = value := by
    rw [hr.key]
    rfl
  rw [enterZone] at hrun
  obtain ⟨found,hfound,hrest⟩ := Option.bind_eq_some_iff.mp hrun
  obtain ⟨hin,hnone⟩ := (zone_search s T h value).2 fuel found hfound
  cases found with
  | some x =>
    obtain ⟨hx,hdata⟩ := hin x rfl
    have hcount := admitted_conn s T h x hx
    rw [hdata, ← (h.conn x hx).1] at hcount
    have hsome' := (h.conn x hx).2.1
    rw [← (h.conn x hx).1, ← hcount] at hsome'
    by_cases hlt : s.zone.conn x < conn
    · simp only [if_pos hlt] at hrest
      cases hrest
      refine ⟨⟨T,?_⟩,counted_answers s r conn value x _ hr hcleanup (by omega) (by omega)⟩
      have := admit_held s T h x hx (by omega)
      rw [hdata, ← hsome] at this
      exact this
    simp only [if_neg hlt] at hrest
    cases hrest
    exact refused_admits s T h r conn value hr hcleanup (fun hc => hlt (by omega))
  | none =>
    have hzero := admitted_none s T h value (hnone rfl)
    cases ha : r.alloc with
    | none =>
      simp only [ha] at hrest
      cases hrest
      exact refused_admits s T h r conn value hr hcleanup (fun hc => hc.2 hzero ha)
    | some node =>
      simp only [ha] at hrest
      obtain ⟨t,hins,rfl⟩ := Option.map_eq_some_iff.mp hrest
      obtain ⟨hn,hs⟩ := alloc_fresh s T h r hvalid node ha
      obtain ⟨T',hinv⟩ := admit_new s T h value node t hn hs (hnone rfl) ⟨fuel,hins⟩
      refine ⟨⟨T',?_⟩,counted_answers s r conn value node _ hr hcleanup (by omega)
        (fun _ hno => ?_)⟩
      · simp only [State.after, hsome]
        exact hinv
      · rw [ha] at hno
        cases hno

theorem handler_admits (h : Inv s T) (r : Request) (hvalid : Valid s.zone r) :
    (∃ fuel o, ngxHttpLimitZoneHandler fuel s.zone r = some o) ∧
    ∀ fuel o, ngxHttpLimitZoneHandler fuel s.zone r = some o → Admits s r o := by
  have hends : ∀ o, (∀ fuel, ngxHttpLimitZoneHandler fuel s.zone r = some o) → Admits s r o →
      (∃ fuel o, ngxHttpLimitZoneHandler fuel s.zone r = some o) ∧
        ∀ fuel o, ngxHttpLimitZoneHandler fuel s.zone r = some o → Admits s r o := by
    intro o hrun ho
    refine ⟨⟨0,o,hrun 0⟩,fun fuel o' ho' => ?_⟩
    rw [← Option.some.inj ((hrun fuel).symm.trans ho')]
    exact ho
  have hpass : (∀ conn value, ¬Limited r conn value) → (∀ fuel,
      ngxHttpLimitZoneHandler fuel s.zone r = some ⟨.declined,r.limitZoneSet,s.zone,none⟩) →
      (∃ fuel o, ngxHttpLimitZoneHandler fuel s.zone r = some o) ∧
        ∀ fuel o, ngxHttpLimitZoneHandler fuel s.zone r = some o → Admits s r o :=
    fun hfree hrun => hends _ hrun (passed_admits s T h r hfree)
  by_cases hset : r.limitZoneSet = true
  · refine hpass (fun conn value hr => ?_) (fun fuel => by
      rw [ngxHttpLimitZoneHandler, if_pos hset])
    rw [hr.first] at hset
    cases hset
  cases hconn : r.conn with
  | none =>
    refine hpass (fun conn value hr => ?_) (fun fuel => by
      rw [ngxHttpLimitZoneHandler, if_neg hset, hconn])
    cases hconn.symm.trans hr.limit
  | some conn =>
    cases hvalue : r.value with
    | none =>
      refine hpass (fun conn value hr => ?_) (fun fuel => by
        rw [ngxHttpLimitZoneHandler, if_neg hset, hconn, hvalue])
      cases hvalue.symm.trans hr.key
    | some value =>
      have hrun : ∀ fuel, ngxHttpLimitZoneHandler fuel s.zone r =
          if value.length = 0 then some ⟨.declined,r.limitZoneSet,s.zone,none⟩
          else if value.length > 255 then some ⟨.declined,r.limitZoneSet,s.zone,none⟩
          else if !r.cleanup then some ⟨.internalServerError,true,s.zone,none⟩
          else enterZone fuel s.zone r conn (ngxCrc32Short value) value := fun fuel => by
        rw [ngxHttpLimitZoneHandler, if_neg hset, hconn, hvalue]
      by_cases h0 : value.length = 0
      · refine hpass (fun conn value' hr => ?_) (fun fuel => by rw [hrun, if_pos h0])
        cases hvalue.symm.trans hr.key
        have := hr.length
        omega
      by_cases h255 : value.length > 255
      · refine hpass (fun conn value' hr => ?_) (fun fuel => by rw [hrun, if_neg h0, if_pos h255])
        cases hvalue.symm.trans hr.key
        have := hr.length
        omega
      have hr : Limited r conn value := ⟨Bool.eq_false_iff.mpr hset,hconn,hvalue,by omega⟩
      cases hcleanup : r.cleanup with
      | false =>
        refine hends ⟨.internalServerError,true,s.zone,none⟩ (fun fuel => ?_) ⟨⟨T,h⟩,
          limited_answers s r conn value _ hr ⟨rfl,by rw [if_pos hcleanup],
            iff_of_false (fun hn => hn rfl) nofun,fun _ => rfl⟩⟩
        rw [hrun, if_neg h0, if_neg h255, hcleanup]
        rfl
      | true =>
        have henter : ∀ fuel, ngxHttpLimitZoneHandler fuel s.zone r =
            enterZone fuel s.zone r conn (ngxCrc32Short value) value := fun fuel => by
          rw [hrun, if_neg h0, if_neg h255, hcleanup]
          rfl
        simp only [henter]
        exact ⟨enter_returns s T h r conn value hvalid,
          enter_admits s T h r conn value hvalid hr hcleanup⟩

theorem reached_inv (h : Reached s) : ∃ T, Inv s T := by
  induction h with
  | init nodes sentinel data conn =>
    exact ⟨.leaf,kept_init nodes sentinel _,nofun,nofun,nofun,nofun⟩
  | request s r fuel o _ hvalid hrun ih =>
    obtain ⟨T,hT⟩ := ih
    exact ((handler_admits s T hT r hvalid).2 fuel o hrun).1
  | cleanup s p fuel z _ hp hrun ih =>
    obtain ⟨T,hT⟩ := ih
    exact (cleanup_inv s T hT p hp).2 fuel z hrun

end Inv

/-- In every state that requests and cleanups lead to, a node's counter is the number of
admitted requests with its key, and the keys with such requests are the keys of the
nodes, each of one node. A request that comes to the zone is let through and counted below its
limit, and refused without a change at it; the others pass. Handlers and cleanups return. -/
theorem limit_zone_law (s : State) (h : Reached s) :
    ∃ xs, InOrder s.zone.rbtree s.zone.rbtree.root xs ∧
      (∀ x ∈ xs, s.zone.conn x = admitted s (s.zone.data x)) ∧
      (∀ value, (∃ x ∈ xs, s.zone.data x = value) ↔ 0 < admitted s value) ∧
      (∀ x ∈ xs, ∀ y ∈ xs, s.zone.data x = s.zone.data y → x = y) ∧
      (∀ r, Valid s.zone r → (∃ fuel o, ngxHttpLimitZoneHandler fuel s.zone r = some o) ∧
        ∀ fuel o, ngxHttpLimitZoneHandler fuel s.zone r = some o → Answers s r o) ∧
      ∀ p ∈ s.pending, ∃ fuel z, ngxHttpLimitZoneCleanup fuel s.zone p.node = some z := by
  obtain ⟨T,hT⟩ := reached_inv s h
  refine ⟨T.ids,(inv_in_order s T hT _).mpr rfl,fun x hx => ?_,fun value => ?_,hT.distinct,
    fun r hvalid => ?_,fun p hp => (cleanup_inv s T hT p hp).1⟩
  · rw [admitted_conn s T hT x hx]
    exact (hT.conn x hx).1
  · constructor
    · rintro ⟨x,hx,rfl⟩
      rw [admitted_conn s T hT x hx]
      exact (hT.conn x hx).2.1
    · intro hpos
      obtain ⟨p,hp,hvalue⟩ := List.countP_pos_iff.mp hpos
      obtain ⟨hin,hdata⟩ := hT.held p hp
      exact ⟨p.node,hin,hdata.trans (of_decide_eq_true hvalue)⟩
  · obtain ⟨hends,hall⟩ := handler_admits s T hT r hvalid
    exact ⟨hends,fun fuel o hrun => (hall fuel o hrun).2⟩

theorem unheld_valid (s : State) (h : Reached s) (r : Request)
    (hconn : ∀ conn, r.conn = some conn → 0 < conn ∧ conn ≤ 65535)
    (halloc : ∀ node, r.alloc = some node → node ≠ s.zone.rbtree.sentinel ∧
      ∀ p ∈ s.pending, p.node ≠ node) : Valid s.zone r := by
  obtain ⟨T,hT⟩ := reached_inv s h
  refine ⟨hconn,fun node ha => ⟨(halloc node ha).1,fun xs hxs hn => ?_⟩⟩
  rw [(inv_in_order s T hT xs).mp hxs] at hn
  obtain ⟨p,hp,hnode⟩ := List.countP_pos_iff.mp (hT.conn node hn).2.1
  exact (halloc node ha).2 p hp (of_decide_eq_true hnode)

/-- Requests and cleanups of a run on given ones. -/
def runStep (s : State) : Request ⊕ Pending → Option State
  | .inl r => (ngxHttpLimitZoneHandler 9 s.zone r).map (s.after r)
  | .inr p => (ngxHttpLimitZoneCleanup 9 s.zone p.node).map (fun z => ⟨z,s.pending.erase p⟩)

def runCheck (s : State) : Request ⊕ Pending → Bool
  | .inl r => r.conn.all (fun conn => 0 < conn ∧ conn ≤ 65535) &&
      r.alloc.all (fun node => node ≠ s.zone.rbtree.sentinel ∧ ∀ p ∈ s.pending, p.node ≠ node)
  | .inr p => p ∈ s.pending

theorem run_reached (s t : State) (a : Request ⊕ Pending) (h : Reached s)
    (hcheck : runCheck s a = true) (hstep : runStep s a = some t) : Reached t := by
  cases a with
  | inl r =>
    obtain ⟨o,hrun,rfl⟩ := Option.map_eq_some_iff.mp hstep
    obtain ⟨hconn,halloc⟩ := Bool.and_eq_true_iff.mp hcheck
    refine h.request s r 9 o (unheld_valid s h r (fun conn hc => ?_) (fun node hn => ?_)) hrun
    · rw [hc] at hconn
      exact of_decide_eq_true hconn
    · rw [hn] at halloc
      exact of_decide_eq_true halloc
  | inr p =>
    obtain ⟨z,hrun,rfl⟩ := Option.map_eq_some_iff.mp hstep
    exact h.cleanup s p 9 z (of_decide_eq_true hcheck) hrun

/-- Two keys are entered, one of them twice, at its limit a request is refused, and the cleanup
of the other key frees its node. -/
theorem limit_zone_law_cleaned : ∃ s xs, s.pending = [⟨2,[97]⟩,⟨2,[97]⟩] ∧
    InOrder s.zone.rbtree s.zone.rbtree.root xs ∧
    ∀ x ∈ xs, s.zone.conn x = admitted s (s.zone.data x) := by
  obtain ⟨s,h,hlast⟩ := Runs.run_reaches runStep runCheck Reached
    (fun s a t hs hcheck hstep => run_reached s t a hs hcheck hstep)
    [.inl ⟨false,some 2,some [97],true,some 2⟩, .inl ⟨false,some 1,some [98],true,some 3⟩,
      .inl ⟨false,some 2,some [97],true,none⟩, .inl ⟨false,some 2,some [97],true,none⟩,
      .inr ⟨3,[98]⟩]
    ⟨⟨ngxRbtreeInit (fun _ => ⟨0,fun _ => 0,0,true⟩) 1,fun _ => [],fun _ => 0⟩,[]⟩
    (Reached.init _ 1 _ _) (fun s => s.pending = [⟨2,[97]⟩,⟨2,[97]⟩]) (by decide +kernel)
  obtain ⟨xs,hxs,hconn,-⟩ := limit_zone_law s h
  exact ⟨s,xs,of_decide_eq_true hlast,hxs,hconn⟩

end Nginx.LimitZoneLaw
