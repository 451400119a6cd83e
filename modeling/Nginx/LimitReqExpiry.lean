import Nginx.LimitReqLaw
import Nginx.Runs
import Mathlib.Data.Set.Insert

/-!
# What the unforced expiry of buckets changes

Two runs over the same requests are compared, one with and one without the pass that
starts each request and drops old buckets. The pass drops a node when its excess
has leaked, and a fresh node admits its first request without a charge. The decisions agree
when a minute is enough to leak the burst and a request more: a dropped bucket, had it been
kept, would then be a whole request below empty when the next request of its key comes.
-/

set_option autoImplicit false

namespace Nginx.LimitReqExpiry
open Nginx.RedBlackTree Nginx.NgxRbtree Nginx.RbtreeSearch Nginx.RbtreeLaw Nginx.RbtreeKept
open Nginx.LimitReq Nginx.LimitReqLaw

def serve (fuel : ℕ) (r : Request) (burst hash : ℕ) (value : List ℕ) (z : Zone)
    (expired : List ℕ) : Option Outcome :=
  (ngxHttpLimitReqLookup fuel z burst hash value r.now).bind (fun (rc, _, z) =>
    if rc = .declined then
      match r.alloc z with
      | some node => newBucket fuel z hash value r.now expired node
      | none =>
        (ngxHttpLimitReqExpire fuel r.now 0 z).bind (fun (z, forced) =>
          match r.alloc z with
          | some node => newBucket fuel z hash value r.now (expired++forced) node
          | none => some ⟨.serviceUnavailable,true,z,false,expired++forced⟩)
    else some ⟨answer r rc,true,z,rc ≠ .busy,expired⟩)

theorem enter_zone_serve (fuel : ℕ) (z : Zone) (r : Request) (burst hash : ℕ) (value : List ℕ) :
    enterZone fuel z r burst hash value = (ngxHttpLimitReqExpire fuel r.now 1 z).bind
      (fun (z, expired) => serve fuel r burst hash value z expired) := rfl

def keepingHandler (fuel : ℕ) (z : Zone) (r : Request) : Option Outcome :=
  let declined : Outcome := ⟨.declined,r.limitReqSet,z,false,[]⟩
  if r.limitReqSet then some declined
  else
    match r.burst, r.value with
    | some burst, some value =>
      if value.length = 0 then some declined
      else if value.length > 65535 then some declined
      else serve fuel r burst (ngxCrc32Short value) value z []
    | _, _ => some declined

/-- No value looks like another one once its length is cut to one byte. -/
def Apart (P : Set (List ℕ)) : Prop :=
  ∀ u ∈ P, ∀ v ∈ P, u ≠ v →
    nodeKey (ngxCrc32Short u) (u.take (u.length % 2^8)) ≠ valueKey v

/-- One request in both runs, with room for a node in either zone. -/
structure Paired (P : Set (List ℕ)) (a b : Zone) (clock : ℕ) (r : Request) (oa ob : Outcome) :
    Prop where
  valid : Valid ⟨a,clock⟩ r
  value : ∀ value, r.value = some value → value ∈ P
  first : ∃ fuel, ngxHttpLimitReqHandler fuel a r = some oa ∧
    ∀ z expired, ngxHttpLimitReqExpire fuel r.now 1 a = some (z, expired) → r.alloc z ≠ none
  second : ∃ fuel, keepingHandler fuel b r = some ob ∧ r.alloc b ≠ none

/-- From an empty zone of the given rate, at the time `start`. -/
inductive Runs (P : Set (List ℕ)) (rate start : ℕ) (allowed : Request → Prop) :
    Zone → Zone → ℕ → Prop where
  | init (nodes : ℕ → NgxRbtree.Node) (sentinel : ℕ) (len : ℕ → ℕ) (data : ℕ → List ℕ)
      (last excess : ℕ → ℕ) : Runs P rate start allowed
        ⟨rate,ngxRbtreeInit nodes sentinel,len,data,last,excess,[]⟩
        ⟨rate,ngxRbtreeInit nodes sentinel,len,data,last,excess,[]⟩ start
  | step (a b : Zone) (clock : ℕ) (r : Request) (oa ob : Outcome)
      (h : Runs P rate start allowed a b clock) (hp : Paired P a b clock r oa ob)
      (hr : allowed r) : Runs P rate start allowed oa.zone ob.zone r.now

/-- The bursts of the locations that use the zone, and the time up to which `ctx->rate * ms`
does not overflow. -/
structure Within (rate burst start : ℕ) (r : Request) : Prop where
  burst : ∀ own, r.burst = some own → own ≤ burst
  time : rate*(r.now-start) < 2^64

section Charge
variable (z : Zone) (burst now x : ℕ)

/-- The excess of the bucket with the request at hand. -/
def due : ℕ :=
  let excess := signed ((z.excess x : ℤ)-leaked z.rate (elapsed now (z.last x))+1000)
  if excess < 0 then 0 else excess.toNat

theorem charge_busy (h : due z now x > burst) : charge z burst now x =
    (.busy, due z now x, { z with queue := x::z.queue.erase x }) := if_pos h

theorem charge_passed (h : ¬due z now x > burst) : charge z burst now x =
    (if due z now x ≠ 0 then .again else .ok, due z now x,
      { z with queue := x::z.queue.erase x, excess := Function.update z.excess x (due z now x),
               last := Function.update z.last x now }) := if_neg h

theorem charge_frame : (charge z burst now x).2.2.rbtree = z.rbtree ∧
    (charge z burst now x).2.2.rate = z.rate ∧ (charge z burst now x).2.2.stored = z.stored ∧
    (charge z burst now x).2.2.queue = x::z.queue.erase x ∧
    (charge z burst now x).1 ≠ .declined ∧
    ∀ y, y ≠ x → (charge z burst now x).2.2.excess y = z.excess y ∧
      (charge z burst now x).2.2.last y = z.last y := by
  by_cases hbusy : due z now x > burst
  · rw [charge_busy z burst now x hbusy]
    exact ⟨rfl,rfl,rfl,rfl,by rintro ⟨⟩,fun y _ => ⟨rfl,rfl⟩⟩
  rw [charge_passed z burst now x hbusy]
  refine ⟨rfl,rfl,rfl,rfl,?_,fun y hy => ?_⟩
  · dsimp only
    split_ifs <;> rintro ⟨⟩
  · exact ⟨Function.update_of_ne hy _ _,Function.update_of_ne hy _ _⟩

theorem charge_paid :
    ((charge z burst now x).2.2.excess x ≤ burst ∧ (charge z burst now x).2.2.last x = now) ∨
    ((charge z burst now x).2.2.excess x = z.excess x ∧
      (charge z burst now x).2.2.last x = z.last x) := by
  by_cases hbusy : due z now x > burst
  · rw [charge_busy z burst now x hbusy]
    exact Or.inr ⟨rfl,rfl⟩
  rw [charge_passed z burst now x hbusy]
  simp only [Function.update_self]
  exact Or.inl ⟨not_lt.mp hbusy,trivial⟩

theorem charge_key (y : ℕ) : zoneKey (charge z burst now x).2.2 y = zoneKey z y := by
  obtain ⟨htree,-,hstored,-⟩ := charge_frame z burst now x
  rw [zoneKey, htree, hstored]
  rfl

theorem charge_listed (T : RedBlackTree.Tree ℕ) (h : Listed z T) (hx : x ∈ T.ids) :
    Listed (charge z burst now x).2.2 T := by
  obtain ⟨htree,-,-,hqueue,-⟩ := charge_frame z burst now x
  refine ⟨?_,?_⟩
  · rw [htree]
    exact kept_congr _ (zoneKey z) _ T h.kept (fun y _ => charge_key z burst now x y)
  · rw [hqueue]
    exact (List.perm_cons_erase (h.queue.mem_iff.mpr hx)).symm.trans h.queue

theorem charge_same (b : Zone) (y : ℕ) (hrate : z.rate = b.rate) (hexcess : b.excess y = z.excess x)
    (hlast : b.last y = z.last x) : (charge b burst now y).1 = (charge z burst now x).1 ∧
      (charge b burst now y).2.2.excess y = (charge z burst now x).2.2.excess x ∧
      (charge b burst now y).2.2.last y = (charge z burst now x).2.2.last x := by
  have hdue : due b now y = due z now x := by rw [due, due, hexcess, hlast, hrate]
  by_cases hbusy : due z now x > burst
  · rw [charge_busy z burst now x hbusy, charge_busy b burst now y (hdue ▸ hbusy), hdue]
    exact ⟨rfl,hexcess,hlast⟩
  rw [charge_passed z burst now x hbusy, charge_passed b burst now y (hdue ▸ hbusy), hdue]
  simp only [Function.update_self]
  exact ⟨trivial,trivial,trivial⟩

theorem charge_leaked (h : z.excess x+1000 ≤ leaked z.rate (elapsed now (z.last x))) :
    (charge z burst now x).1 = .ok ∧ (charge z burst now x).2.2.excess x = 0 ∧
      (charge z burst now x).2.2.last x = now := by
  have hlt := (leaked_le z.rate (elapsed now (z.last x))).2
  have hsigned : signed ((z.excess x : ℤ)-leaked z.rate (elapsed now (z.last x))+1000) =
      (z.excess x : ℤ)-leaked z.rate (elapsed now (z.last x))+1000 :=
    signed_eq _ (by omega) (by omega)
  have hzero : due z now x = 0 := by
    rw [due, hsigned]
    split_ifs <;> omega
  rw [charge_passed z burst now x (by omega), hzero]
  simp only [Function.update_self]
  exact ⟨rfl,trivial,trivial⟩

end Charge

/-- A request of `value` has left the buckets of other values alone, and a bucket of
its own holds `excess` and `last`. -/
structure Touched (P : Set (List ℕ)) (z : Zone) (T : RedBlackTree.Tree ℕ) (value : List ℕ) (z' : Zone)
    (T' : RedBlackTree.Tree ℕ) (excess last : ℕ) : Prop where
  listed : Listed z' T'
  rate : z'.rate = z.rate
  other : ∀ u ∈ P, u ≠ value → ∀ x, x ∈ T'.ids ∧ zoneKey z' x = valueKey u ↔
    x ∈ T.ids ∧ zoneKey z x = valueKey u
  same : ∀ u ∈ P, u ≠ value → ∀ x ∈ T.ids, zoneKey z x = valueKey u →
    z'.excess x = z.excess x ∧ z'.last x = z.last x
  own : ∀ x ∈ T'.ids, zoneKey z' x = valueKey value → z'.excess x = excess ∧ z'.last x = last
  sole : Sole z' T' value

theorem touched_charge (P : Set (List ℕ)) (z : Zone) (T : RedBlackTree.Tree ℕ) (value : List ℕ)
    (burst now x : ℕ) (h : Listed z T) (hsole : Sole z T value) (hx : x ∈ T.ids)
    (hkx : zoneKey z x = valueKey value) :
    Touched P z T value (charge z burst now x).2.2 T ((charge z burst now x).2.2.excess x)
      ((charge z burst now x).2.2.last x) := by
  obtain ⟨-,hrate,-,-,-,hothers⟩ := charge_frame z burst now x
  refine ⟨charge_listed z burst now x T h hx,hrate,fun u _ _ y => ?_,fun u _ hu y _ hky => ?_,
    fun y hy hky => ?_,fun y hy w hw hky hkw => ?_⟩
  · rw [charge_key]
  · refine hothers y (fun he => value_key_ne u value hu ?_)
    rw [← hky, he, hkx]
  · rw [charge_key] at hky
    rw [hsole y hy x hx hky hkx]
    exact ⟨rfl,rfl⟩
  · rw [charge_key] at hky hkw
    exact hsole y hy w hw hky hkw

theorem touched_new (P : Set (List ℕ)) (hP : Apart P) (z : Zone) (T : RedBlackTree.Tree ℕ) (value : List ℕ)
    (hv : value ∈ P) (fuel now node : ℕ) (expired : List ℕ) (o : Outcome) (h : Listed z T)
    (hnone : ∀ x ∈ T.ids, zoneKey z x ≠ valueKey value) (hn : node ∉ T.ids)
    (hs : node ≠ z.rbtree.sentinel)
    (hrun : newBucket fuel z (ngxCrc32Short value) value now expired node = some o) :
    ∃ T', Touched P z T value o.zone T' 0 now ∧ ((∃ x ∈ T'.ids, zoneKey o.zone x = valueKey value) ↔
      nodeKey (ngxCrc32Short value) (value.take (value.length % 2^8)) = valueKey value) := by
  obtain ⟨-,-,-,-,hrate⟩ := new_bucket_outcome fuel now node z value expired o hrun
  obtain ⟨T',hlisted,hmem,hknode,hexcess,hlast,hold⟩ :=
    new_bucket_listed fuel now node z T value expired o h hn hs hrun
  have hown : ∀ x ∈ T'.ids, zoneKey o.zone x = valueKey value → x = node := by
    intro x hx hkx
    rcases (hmem x).mp hx with hxn | hx
    · exact hxn
    · rw [(hold x hx).1] at hkx
      exact absurd hkx (hnone x hx)
  refine ⟨T',⟨hlisted,hrate,fun u hu hne x => ⟨fun hx => ?_,fun hx => ?_⟩,
    fun u _ _ x hx _ => (hold x hx).2,fun x hx hkx => ?_,fun x hx y hy hkx hky => ?_⟩,
    fun ⟨x,hx,hkx⟩ => ?_,fun hkey => ?_⟩
  · rcases (hmem x).mp hx.1 with hxn | hxT
    · rw [hxn, hknode] at hx
      exact absurd hx.2 (hP value hv u hu hne.symm)
    · rw [← (hold x hxT).1]
      exact ⟨hxT,hx.2⟩
  · rw [(hold x hx.1).1]
    exact ⟨(hmem x).mpr (Or.inr hx.1),hx.2⟩
  · rw [hown x hx hkx]
    exact ⟨hexcess,hlast⟩
  · rw [hown x hx hkx, hown y hy hky]
  · rw [← hkx, hown x hx hkx, hknode]
  · exact ⟨node,(hmem node).mpr (Or.inl rfl),hknode.trans hkey⟩

/-- Each bucket of the first zone has one of equal contents in the second zone. -/
structure Agree (P : Set (List ℕ)) (a b : Zone) (A B : RedBlackTree.Tree ℕ) : Prop where
  first : Listed a A
  second : Listed b B
  rate : a.rate = b.rate
  soleFirst : ∀ v ∈ P, Sole a A v
  soleSecond : ∀ v ∈ P, Sole b B v
  covered : ∀ v ∈ P, ∀ x ∈ A.ids, zoneKey a x = valueKey v →
    ∃ y ∈ B.ids, zoneKey b y = valueKey v ∧ b.excess y = a.excess x ∧ b.last y = a.last x

theorem sole_touched (P : Set (List ℕ)) (z z' : Zone) (T T' : RedBlackTree.Tree ℕ) (value v : List ℕ)
    (excess last : ℕ) (hv : v ∈ P) (h : Sole z T v)
    (ht : Touched P z T value z' T' excess last) : Sole z' T' v := by
  by_cases hvalue : v = value
  · rw [hvalue]
    exact ht.sole
  intro x hx y hy hkx hky
  obtain ⟨hx,hkx⟩ := (ht.other v hv hvalue x).mp ⟨hx,hkx⟩
  obtain ⟨hy,hky⟩ := (ht.other v hv hvalue y).mp ⟨hy,hky⟩
  exact h x hx y hy hkx hky

theorem agree_touched (P : Set (List ℕ)) (a b a' b' : Zone) (A B A' B' : RedBlackTree.Tree ℕ)
    (value : List ℕ) (excess last : ℕ) (h : Agree P a b A B)
    (ha : Touched P a A value a' A' excess last) (hb : Touched P b B value b' B' excess last)
    (hcovers : (∃ x ∈ A'.ids, zoneKey a' x = valueKey value) →
      ∃ y ∈ B'.ids, zoneKey b' y = valueKey value) : Agree P a' b' A' B' := by
  refine ⟨ha.listed,hb.listed,(ha.rate.trans h.rate).trans hb.rate.symm,
    fun v hv => sole_touched P a a' A A' value v excess last hv (h.soleFirst v hv) ha,
    fun v hv => sole_touched P b b' B B' value v excess last hv (h.soleSecond v hv) hb,
    fun v hv x hx hkx => ?_⟩
  by_cases hvalue : v = value
  · subst hvalue
    obtain ⟨y,hy,hky⟩ := hcovers ⟨x,hx,hkx⟩
    obtain ⟨hex,hlx⟩ := ha.own x hx hkx
    obtain ⟨hey,hly⟩ := hb.own y hy hky
    exact ⟨y,hy,hky,hey.trans hex.symm,hly.trans hlx.symm⟩
  obtain ⟨hxA,hkxA⟩ := (ha.other v hv hvalue x).mp ⟨hx,hkx⟩
  obtain ⟨y,hy,hky,he,hl⟩ := h.covered v hv x hxA hkxA
  obtain ⟨hyB,hkyB⟩ := (hb.other v hv hvalue y).mpr ⟨hy,hky⟩
  obtain ⟨hex,hlx⟩ := ha.same v hv hvalue x hxA hkxA
  obtain ⟨hey,hly⟩ := hb.same v hv hvalue y hy hky
  exact ⟨y,hyB,hkyB,by rw [hey, he, hex],by rw [hly, hl, hlx]⟩

theorem agree_shrunk (P : Set (List ℕ)) (a a1 b : Zone) (A A1 B : RedBlackTree.Tree ℕ) (removed : List ℕ)
    (h : Agree P a b A B) (h1 : Listed a1 A1) (hs : Shrunk a A removed a1 A1) :
    Agree P a1 b A1 B := by
  refine ⟨h1,h.second,hs.rate.trans h.rate,
    fun v hv => sole_shrunk a a1 A A1 v removed (h.soleFirst v hv) hs,h.soleSecond,
    fun v hv x hx hkx => ?_⟩
  rw [hs.key x hx] at hkx
  rw [hs.excess, hs.last]
  exact h.covered v hv x ((hs.ids x).mp hx).1 hkx

theorem serve_spec (fuel burst clock : ℕ) (z : Zone) (T : RedBlackTree.Tree ℕ) (r : Request)
    (value expired : List ℕ) (o : Outcome) (h : Listed z T) (hvalid : Valid ⟨z,clock⟩ r)
    (hroom : r.alloc z ≠ none)
    (hrun : serve fuel r burst (ngxCrc32Short value) value z expired = some o) :
    (∃ x ∈ T.ids, zoneKey z x = valueKey value ∧
      o = ⟨answer r (charge z burst r.now x).1,true,(charge z burst r.now x).2.2,
        (charge z burst r.now x).1 ≠ .busy,expired⟩) ∨
    ((∀ x ∈ T.ids, zoneKey z x ≠ valueKey value) ∧ ∃ node, node ∉ T.ids ∧
      node ≠ z.rbtree.sentinel ∧
      newBucket fuel z (ngxCrc32Short value) value r.now expired node = some o) := by
  obtain ⟨⟨rc,e,z'⟩,hlookup,hrest⟩ := Option.bind_eq_some_iff.mp hrun
  rcases lookup_spec fuel burst r.now z z' T value rc e h hlookup with
    ⟨x,hx,hkx,hcharge⟩ | ⟨rfl,rfl,hnone⟩
  · have hne : rc ≠ .declined := by
      have hspec := (charge_frame z burst r.now x).2.2.2.2.1
      rw [hcharge] at hspec
      exact hspec
    simp only [if_neg hne] at hrest
    refine Or.inl ⟨x,hx,hkx,?_⟩
    rw [hcharge]
    exact (Option.some.inj hrest).symm
  simp only [if_true] at hrest
  cases halloc : r.alloc z' with
  | none => exact absurd halloc hroom
  | some node =>
    simp only [halloc] at hrest
    obtain ⟨hsn,hfree⟩ := hvalid.alloc z' node halloc
    exact Or.inr ⟨hnone,node,hfree T.ids (listed_in_order z' T h),hsn,hrest⟩

structure SameDecision (oa ob : Outcome) : Prop where
  answer : oa.answer = ob.answer
  limitReqSet : oa.limitReqSet = ob.limitReqSet
  admitted : oa.admitted = ob.admitted

/-- The key of a node that a request of `value` would add is the one its lookups look for. -/
def Short (value : List ℕ) : Prop :=
  nodeKey (ngxCrc32Short value) (value.take (value.length % 2^8)) = valueKey value

/-- What the second zone holds: each bucket within the burst, and one that the first zone
has no more has not been used for a minute. -/
structure Aged (P : Set (List ℕ)) (rate burst start clock : ℕ) (a b : Zone)
    (A B : RedBlackTree.Tree ℕ) : Prop where
  rate : b.rate = rate
  short : ∀ v ∈ P, ∀ y ∈ B.ids, zoneKey b y = valueKey v → Short v
  bounded : ∀ v ∈ P, ∀ y ∈ B.ids, zoneKey b y = valueKey v →
    b.excess y ≤ burst ∧ start ≤ b.last y ∧ b.last y ≤ clock
  dropped : ∀ v ∈ P, ∀ y ∈ B.ids, zoneKey b y = valueKey v →
    (∀ x ∈ A.ids, zoneKey a x ≠ valueKey v) → b.last y+60000 ≤ clock

/-- Both zones as a request of `value` leaves them: its buckets hold the same, charged or
as they were. -/
structure Served (P : Set (List ℕ)) (burst now : ℕ) (a b : Zone) (A B : RedBlackTree.Tree ℕ)
    (value : List ℕ) (a' b' : Zone) (A' B' : RedBlackTree.Tree ℕ) (excess last : ℕ) : Prop where
  first : Touched P a A value a' A' excess last
  second : Touched P b B value b' B' excess last
  both : (∃ x ∈ A'.ids, zoneKey a' x = valueKey value) ↔
    ∃ y ∈ B'.ids, zoneKey b' y = valueKey value
  short : (∃ y ∈ B'.ids, zoneKey b' y = valueKey value) → Short value
  paid : (excess ≤ burst ∧ last = now) ∨
    ∃ y ∈ B.ids, zoneKey b y = valueKey value ∧ b.excess y = excess ∧ b.last y = last

theorem served_agree (P : Set (List ℕ)) (burst now : ℕ) (a b a' b' : Zone)
    (A B A' B' : RedBlackTree.Tree ℕ) (value : List ℕ) (excess last : ℕ) (h : Agree P a b A B)
    (hs : Served P burst now a b A B value a' b' A' B' excess last) : Agree P a' b' A' B' :=
  agree_touched P a b a' b' A B A' B' value excess last h hs.first hs.second hs.both.mp

theorem served_aged (P : Set (List ℕ)) (rate burst own start now : ℕ) (a b a' b' : Zone)
    (A B A' B' : RedBlackTree.Tree ℕ) (value : List ℕ) (excess last : ℕ) (hv : value ∈ P)
    (hstart : start ≤ now) (hown : own ≤ burst) (h : Aged P rate burst start now a b A B)
    (hs : Served P own now a b A B value a' b' A' B' excess last) :
    Aged P rate burst start now a' b' A' B' := by
  have hpaid : excess ≤ burst ∧ start ≤ last ∧ last ≤ now := by
    rcases hs.paid with ⟨he,hl⟩ | ⟨y,hy,hky,he,hl⟩
    · omega
    · have := h.bounded value hv y hy hky
      omega
  refine ⟨hs.second.rate.trans h.rate,fun v hvP y hy hky => ?_,fun v hvP y hy hky => ?_,
    fun v hvP y hy hky hnone => ?_⟩ <;> by_cases hvalue : v = value
  · rw [hvalue] at hky ⊢
    exact hs.short ⟨y,hy,hky⟩
  · obtain ⟨hyB,hkyB⟩ := (hs.second.other v hvP hvalue y).mp ⟨hy,hky⟩
    exact h.short v hvP y hyB hkyB
  · rw [hvalue] at hky
    obtain ⟨he,hl⟩ := hs.second.own y hy hky
    rw [he, hl]
    exact hpaid
  · obtain ⟨hyB,hkyB⟩ := (hs.second.other v hvP hvalue y).mp ⟨hy,hky⟩
    obtain ⟨he,hl⟩ := hs.second.same v hvP hvalue y hyB hkyB
    rw [he, hl]
    exact h.bounded v hvP y hyB hkyB
  · rw [hvalue] at hky hnone
    obtain ⟨x,hx,hkx⟩ := hs.both.mpr ⟨y,hy,hky⟩
    exact absurd hkx (hnone x hx)
  · obtain ⟨hyB,hkyB⟩ := (hs.second.other v hvP hvalue y).mp ⟨hy,hky⟩
    rw [(hs.second.same v hvP hvalue y hyB hkyB).2]
    refine h.dropped v hvP y hyB hkyB (fun x hx hkx => ?_)
    obtain ⟨hx',hkx'⟩ := (hs.first.other v hvP hvalue x).mpr ⟨hx,hkx⟩
    exact hnone x hx' hkx'

theorem aged_leaks (P : Set (List ℕ)) (rate burst start now : ℕ) (a b : Zone)
    (A B : RedBlackTree.Tree ℕ) (v : List ℕ) (y : ℕ) (hrate : burst+1000 ≤ 60*rate)
    (htime : rate*(now-start) < 2^64) (hnow : now < 2^63)
    (h : Aged P rate burst start now a b A B) (hv : v ∈ P) (hy : y ∈ B.ids)
    (hky : zoneKey b y = valueKey v) (hnone : ∀ x ∈ A.ids, zoneKey a x ≠ valueKey v) :
    b.excess y+1000 ≤ leaked b.rate (elapsed now (b.last y)) := by
  obtain ⟨hexcess,hstart,hlast⟩ := h.bounded v hv y hy hky
  have hold := h.dropped v hv y hy hky hnone
  have hless : rate*(now-b.last y) ≤ rate*(now-start) := Nat.mul_le_mul_left _ (by omega)
  have hminute : rate*60000 ≤ rate*(now-b.last y) := Nat.mul_le_mul_left _ (by omega)
  rw [h.rate, elapsed_eq now _ hlast hnow, leaked, Nat.mod_eq_of_lt (by omega)]
  omega

theorem serve_agree (P : Set (List ℕ)) (hP : Apart P) (fa fb burst clock : ℕ) (a b : Zone)
    (A B : RedBlackTree.Tree ℕ) (r : Request) (value expired : List ℕ) (oa ob : Outcome)
    (h : Agree P a b A B) (hv : value ∈ P) (hvalid : Valid ⟨a,clock⟩ r)
    (hrooma : r.alloc a ≠ none) (hroomb : r.alloc b ≠ none)
    (hshort : ∀ y ∈ B.ids, zoneKey b y = valueKey value → Short value)
    (hleaks : ∀ y ∈ B.ids, zoneKey b y = valueKey value →
      (∀ x ∈ A.ids, zoneKey a x ≠ valueKey value) →
        b.excess y+1000 ≤ leaked b.rate (elapsed r.now (b.last y)))
    (ha : serve fa r burst (ngxCrc32Short value) value a expired = some oa)
    (hb : serve fb r burst (ngxCrc32Short value) value b [] = some ob) :
    SameDecision oa ob ∧ oa.expired = expired ∧ ∃ A' B' excess last,
      Served P burst r.now a b A B value oa.zone ob.zone A' B' excess last := by
  have hvalidb : Valid ⟨b,clock⟩ r := ⟨hvalid.clock,hvalid.now,hvalid.alloc⟩
  rcases serve_spec fa burst clock a A r value expired oa h.first hvalid hrooma ha with
    ⟨x,hx,hkx,rfl⟩ | ⟨hnonea,nodea,hna,hsa,hnewa⟩ <;>
  rcases serve_spec fb burst clock b B r value [] ob h.second hvalidb hroomb hb with
    ⟨y,hy,hky,rfl⟩ | ⟨hnoneb,nodeb,hnb,hsb,hnewb⟩
  · obtain ⟨y',hy',hky',hexcess,hlast⟩ := h.covered value hv x hx hkx
    have hyy : y' = y := h.soleSecond value hv y' hy' y hy hky' hky
    subst hyy
    obtain ⟨hrc,he,hl⟩ := charge_same a burst r.now x b y' h.rate hexcess hlast
    have hta := touched_charge P a A value burst r.now x h.first (h.soleFirst value hv) hx hkx
    have htb := touched_charge P b B value burst r.now y' h.second (h.soleSecond value hv) hy hky
    have hkxa := (charge_key a burst r.now x x).trans hkx
    have hkyb := (charge_key b burst r.now y' y').trans hky
    have hpaid := charge_paid b burst r.now y'
    rw [he, hl] at htb hpaid
    refine ⟨⟨?_,rfl,?_⟩,rfl,A,B,_,_,hta,htb,⟨fun _ => ⟨y',hy,hkyb⟩,fun _ => ⟨x,hx,hkxa⟩⟩,
      fun _ => hshort y' hy hky,
      hpaid.imp_right fun hsame => ⟨y',hy,hky,hsame.1.symm,hsame.2.symm⟩⟩
    · rw [hrc]
    · rw [hrc]
  · obtain ⟨y,hy,hky,-⟩ := h.covered value hv x hx hkx
    exact absurd hky (hnoneb y hy)
  · obtain ⟨hrc,he,hl⟩ := charge_leaked b burst r.now y (hleaks y hy hky hnonea)
    obtain ⟨hans,hset,hadm,hexp,-⟩ := new_bucket_outcome fa r.now nodea a value expired oa hnewa
    obtain ⟨A',hta,hka⟩ := touched_new P hP a A value hv fa r.now nodea expired oa h.first hnonea
      hna hsa hnewa
    have htb := touched_charge P b B value burst r.now y h.second (h.soleSecond value hv) hy hky
    have hkyb := (charge_key b burst r.now y y).trans hky
    rw [he, hl] at htb
    refine ⟨⟨?_,hset,?_⟩,hexp,A',B,0,r.now,hta,htb,
      ⟨fun _ => ⟨y,hy,hkyb⟩,fun _ => hka.mpr (hshort y hy hky)⟩,fun _ => hshort y hy hky,
      Or.inl ⟨Nat.zero_le _,rfl⟩⟩
    · rw [hans, hrc]
      rfl
    · rw [hadm, hrc]
      rfl
  obtain ⟨hansa,hseta,hadma,hexp,-⟩ :=
    new_bucket_outcome fa r.now nodea a value expired oa hnewa
  obtain ⟨hansb,hsetb,hadmb,-,-⟩ := new_bucket_outcome fb r.now nodeb b value [] ob hnewb
  obtain ⟨A',hta,hka⟩ := touched_new P hP a A value hv fa r.now nodea expired oa h.first hnonea
    hna hsa hnewa
  obtain ⟨B',htb,hkb⟩ := touched_new P hP b B value hv fb r.now nodeb [] ob h.second hnoneb
    hnb hsb hnewb
  exact ⟨⟨hansa.trans hansb.symm,hseta.trans hsetb.symm,hadma.trans hadmb.symm⟩,hexp,A',B',0,
    r.now,hta,htb,hka.trans hkb.symm,hkb.mp,Or.inl ⟨Nat.zero_le _,rfl⟩⟩

theorem pass_drops (fuel now k : ℕ) (z z' : Zone) (removed : List ℕ) (hk : k ≤ 2)
    (hrun : expireLoop fuel now k z = some (z', removed)) :
    ∀ x ∈ removed, 60000 ≤ elapsed now (z.last x) ∧
      signed ((z.excess x : ℤ)-leaked z.rate (elapsed now (z.last x))) ≤ 0 := by
  induction k generalizing z removed with
  | zero =>
    cases hrun
    exact nofun
  | succ k ih =>
    rw [expireLoop] at hrun
    cases hlast : z.queue.getLast? with
    | none =>
      rw [hlast] at hrun
      cases hrun
      exact nofun
    | some lr =>
      rw [hlast] at hrun
      simp only at hrun
      split_ifs at hrun with hyoung
      · cases hrun
        exact nofun
      · obtain ⟨t,-,hrest⟩ := Option.bind_eq_some_iff.mp hrun
        obtain ⟨⟨z1,rest⟩,hloop,hpair⟩ := Option.map_eq_some_iff.mp hrest
        cases hpair
        intro x hx
        rcases List.mem_cons.mp hx with rfl | hx
        · rw [not_and_or, not_or] at hyoung
          rcases hyoung with hforced | ⟨hold,hleaked⟩
          · exact absurd (by omega) hforced
          · exact ⟨by omega,by omega⟩
        · exact ih _ rest (by omega) hloop x hx

theorem aged_shrunk (P : Set (List ℕ)) (rate burst start clock now : ℕ) (a a1 b : Zone)
    (A A1 B : RedBlackTree.Tree ℕ) (removed : List ℕ) (h : Agree P a b A B)
    (haged : Aged P rate burst start clock a b A B) (hclock : clock ≤ now) (hnow : now < 2^63)
    (hs : Shrunk a A removed a1 A1) (hold : ∀ x ∈ removed, 60000 ≤ elapsed now (a.last x)) :
    Aged P rate burst start now a1 b A1 B := by
  refine ⟨haged.rate,haged.short,fun v hv y hy hky => ?_,fun v hv y hy hky hnone => ?_⟩
  · obtain ⟨he,hfrom,hto⟩ := haged.bounded v hv y hy hky
    exact ⟨he,hfrom,hto.trans hclock⟩
  by_cases hx : ∃ x ∈ A.ids, zoneKey a x = valueKey v
  · obtain ⟨x,hx,hkx⟩ := hx
    obtain ⟨y',hy',hky',-,hlast⟩ := h.covered v hv x hx hkx
    rw [h.soleSecond v hv y' hy' y hy hky' hky] at hlast
    obtain ⟨-,-,hto⟩ := haged.bounded v hv y hy hky
    have hgone : x ∈ removed := by
      by_contra hx1
      have hxA := (hs.ids x).mpr ⟨hx,hx1⟩
      exact hnone x hxA (by rw [hs.key x hxA, hkx])
    have hminute := hold x hgone
    rw [← hlast, elapsed_eq now _ (hto.trans hclock) hnow] at hminute
    omega
  · exact (haged.dropped v hv y hy hky (fun x hxA hkx => hx ⟨x,hxA,hkx⟩)).trans hclock

/-- Both handlers let a request pass that the zone is not for, and take the others to it. -/
theorem handler_cases (r : Request) :
    ((∀ fuel z, ngxHttpLimitReqHandler fuel z r = some ⟨.declined,r.limitReqSet,z,false,[]⟩) ∧
      ∀ fuel z, keepingHandler fuel z r = some ⟨.declined,r.limitReqSet,z,false,[]⟩) ∨
    ∃ own value, r.burst = some own ∧ r.value = some value ∧
      (∀ fuel z, ngxHttpLimitReqHandler fuel z r =
        enterZone fuel z r own (ngxCrc32Short value) value) ∧
      ∀ fuel z, keepingHandler fuel z r = serve fuel r own (ngxCrc32Short value) value z [] := by
  unfold ngxHttpLimitReqHandler keepingHandler
  by_cases hset : r.limitReqSet = true
  · exact .inl ⟨fun _ _ => if_pos hset,fun _ _ => if_pos hset⟩
  cases r.burst with
  | none => exact .inl ⟨fun _ _ => if_neg hset,fun _ _ => if_neg hset⟩
  | some own =>
    cases r.value with
    | none => exact .inl ⟨fun _ _ => if_neg hset,fun _ _ => if_neg hset⟩
    | some value =>
      simp only [if_neg hset]
      by_cases hempty : value.length = 0
      · exact .inl ⟨fun _ _ => if_pos hempty,fun _ _ => if_pos hempty⟩
      simp only [if_neg hempty]
      by_cases hlong : value.length > 65535
      · exact .inl ⟨fun _ _ => if_pos hlong,fun _ _ => if_pos hlong⟩
      exact .inr ⟨own,value,rfl,rfl,fun _ _ => if_neg hlong,fun _ _ => if_neg hlong⟩

section Pairs
variable (P : Set (List ℕ)) (hP : Apart P) (rate burst start : ℕ) (hrate : burst+1000 ≤ 60*rate)
include hP hrate

theorem paired_agree (a b : Zone) (clock : ℕ) (A B : RedBlackTree.Tree ℕ) (r : Request)
    (oa ob : Outcome) (h : Agree P a b A B) (haged : Aged P rate burst start clock a b A B)
    (hstart : start ≤ clock) (hp : Paired P a b clock r oa ob)
    (hr : Within rate burst start r) :
    SameDecision oa ob ∧ (∀ x ∈ oa.expired, 60000 ≤ elapsed r.now (a.last x) ∧
      signed ((a.excess x : ℤ)-leaked a.rate (elapsed r.now (a.last x))) ≤ 0) ∧
      ∃ A' B', Agree P oa.zone ob.zone A' B' ∧
        Aged P rate burst start r.now oa.zone ob.zone A' B' := by
  obtain ⟨fa,ha,hroom⟩ := hp.first
  obtain ⟨fb,hb,hroomb⟩ := hp.second
  have hclock : clock ≤ r.now := hp.valid.clock
  rcases handler_cases r with ⟨hfirst,hsecond⟩ | ⟨own,value,hburst,hvalue,hfirst,hsecond⟩
  · rw [hfirst] at ha
    rw [hsecond] at hb
    cases ha
    cases hb
    exact ⟨⟨rfl,rfl,rfl⟩,nofun,A,B,h,aged_shrunk P rate burst start clock r.now a a b A A B []
      h haged hclock hp.valid.now (shrunk_refl a A) nofun⟩
  · rw [hfirst] at ha
    rw [hsecond] at hb
    rw [enter_zone_serve] at ha
    obtain ⟨⟨a1,removed⟩,hexpire,ha⟩ := Option.bind_eq_some_iff.mp ha
    obtain ⟨A1,h1,hs1⟩ := expire_listed fa r.now _ a a1 A removed h.first hexpire
    have hagree := agree_shrunk P a a1 b A A1 B removed h h1 hs1
    have hdrops := pass_drops fa r.now _ a a1 removed (Nat.le_refl 2) hexpire
    have haged1 := aged_shrunk P rate burst start clock r.now a a1 b A A1 B removed h haged
      hclock hp.valid.now hs1 (fun x hx => (hdrops x hx).1)
    have hv := hp.value value hvalue
    have hvalid1 : Valid ⟨a1,clock⟩ r := ⟨hp.valid.clock,hp.valid.now,hp.valid.alloc⟩
    obtain ⟨hsame,hexp,A',B',excess,last,hserved⟩ := serve_agree P hP fa fb own clock a1 b A1 B
      r value removed oa ob hagree hv hvalid1 (hroom a1 removed hexpire) hroomb
      (haged1.short value hv)
      (fun y hy hky hnone => aged_leaks P rate burst start r.now a1 b A1 B value y hrate hr.time
        hp.valid.now haged1 hv hy hky hnone) ha hb
    refine ⟨hsame,?_,A',B',
      served_agree P own r.now a1 b _ _ A1 B A' B' value excess last hagree hserved,
      served_aged P rate burst own start r.now a1 b _ _ A1 B A' B' value excess last hv
        (hstart.trans hclock) (hr.burst own hburst) haged1 hserved⟩
    rw [hexp]
    exact hdrops

theorem runs_agree (a b : Zone) (clock : ℕ)
    (h : Runs P rate start (Within rate burst start) a b clock) :
    start ≤ clock ∧ ∃ A B, Agree P a b A B ∧ Aged P rate burst start clock a b A B := by
  induction h with
  | init nodes sentinel len data last excess =>
    have hlisted : Listed ⟨rate,ngxRbtreeInit nodes sentinel,len,data,last,excess,[]⟩ .leaf :=
      ⟨kept_init nodes sentinel _,List.Perm.refl _⟩
    exact ⟨Nat.le_refl _,.leaf,.leaf,⟨hlisted,hlisted,rfl,nofun,nofun,nofun⟩,
      rfl,nofun,nofun,nofun⟩
  | step a b clock r oa ob h hp hr ih =>
    obtain ⟨hstart,A,B,hagree,haged⟩ := ih
    exact ⟨hstart.trans hp.valid.clock,
      (paired_agree P hP rate burst start hrate a b clock A B r oa ob hagree haged hstart hp
        hr).2.2⟩

/-- A run with the unforced passes and one without them take the same decisions when a minute
leaks the burst and a request more, and a pass drops what is a minute old and has no
excess left. -/
theorem limit_req_expiry (a b : Zone) (clock : ℕ) (r : Request) (oa ob : Outcome)
    (h : Runs P rate start (Within rate burst start) a b clock)
    (hp : Paired P a b clock r oa ob) (hr : Within rate burst start r) :
    SameDecision oa ob ∧ ∀ x ∈ oa.expired, 60000 ≤ elapsed r.now (a.last x) ∧
      signed ((a.excess x : ℤ)-leaked a.rate (elapsed r.now (a.last x))) ≤ 0 := by
  obtain ⟨hstart,A,B,hagree,haged⟩ := runs_agree P hP rate burst start hrate a b clock h
  obtain ⟨hsame,hdrops,-⟩ :=
    paired_agree P hP rate burst start hrate a b clock A B r oa ob hagree haged hstart hp hr
  exact ⟨hsame,hdrops⟩

end Pairs

/-! ## Runs on one key -/

def startZone (rate : ℕ) : Zone := { emptyZone with rate := rate }

/-- A request of both runs, given as its burst and its time. -/
def pairStep (s : Zone × Zone × ℕ) (r : ℕ × ℕ) : Option (Zone × Zone × ℕ) :=
  (ngxHttpLimitReqHandler 9 s.1 (arrival [97] r.1 r.2)).bind (fun oa =>
    (keepingHandler 9 s.2.1 (arrival [97] r.1 r.2)).map (fun ob => (oa.zone, ob.zone, r.2)))

def pairCheck (rate burst : ℕ) (s : Zone × Zone × ℕ) (r : ℕ × ℕ) : Bool :=
  decide (s.2.2 ≤ r.2 ∧ r.2 < 2^63 ∧ r.1 ≤ burst ∧ rate*r.2 < 2^64) &&
    ((ngxHttpLimitReqExpire 9 r.2 1 s.1).all (fun p => (twoNodes p.1).isSome) &&
      (twoNodes s.2.1).isSome)

theorem one_value_apart : Apart {[97]} := by
  intro u hu v hv hne
  exact absurd ((Set.mem_singleton_iff.mp hu).trans (Set.mem_singleton_iff.mp hv).symm) hne

theorem room_of_all (fuel now : ℕ) (a : Zone) (alloc : Zone → Option ℕ)
    (h : (ngxHttpLimitReqExpire fuel now 1 a).all (fun p => (alloc p.1).isSome) = true) :
    ∀ z expired, ngxHttpLimitReqExpire fuel now 1 a = some (z, expired) → alloc z ≠ none := by
  intro z expired hrun hnone
  rw [hrun] at h
  simp only [Option.all_some, hnone] at h
  cases h

section Arrivals
variable (rate burst : ℕ) (s : Zone × Zone × ℕ) (r : ℕ × ℕ)

theorem arrival_within (h : pairCheck rate burst s r = true) :
    Within rate burst 0 (arrival [97] r.1 r.2) := by
  obtain ⟨-,-,hburst,htime⟩ := of_decide_eq_true (Bool.and_eq_true_iff.mp h).1
  refine ⟨fun own hown => ?_,htime⟩
  cases hown
  exact hburst

theorem arrival_paired (oa ob : Outcome) (h : pairCheck rate burst s r = true)
    (ha : ngxHttpLimitReqHandler 9 s.1 (arrival [97] r.1 r.2) = some oa)
    (hb : keepingHandler 9 s.2.1 (arrival [97] r.1 r.2) = some ob) :
    Paired {[97]} s.1 s.2.1 s.2.2 (arrival [97] r.1 r.2) oa ob := by
  obtain ⟨htimes,hrooms⟩ := Bool.and_eq_true_iff.mp h
  obtain ⟨hrooma,hroomb⟩ := Bool.and_eq_true_iff.mp hrooms
  obtain ⟨hclock,hnow,-⟩ := of_decide_eq_true htimes
  refine ⟨arrival_valid _ _ _ _ hclock hnow,fun value hv => ?_,
    ⟨9,ha,room_of_all _ _ _ _ hrooma⟩,⟨9,hb,fun hnone => ?_⟩⟩
  · cases hv
    exact Set.mem_singleton _
  · rw [show twoNodes s.2.1 = none from hnone] at hroomb
    cases hroomb

theorem pair_reached (allowed : Request → Prop)
    (hallowed : ∀ r, Within rate burst 0 r → allowed r) (t : Zone × Zone × ℕ)
    (hs : Runs {[97]} rate 0 allowed s.1 s.2.1 s.2.2) (hcheck : pairCheck rate burst s r = true)
    (hstep : pairStep s r = some t) : Runs {[97]} rate 0 allowed t.1 t.2.1 t.2.2 := by
  obtain ⟨oa,ha,hstep⟩ := Option.bind_eq_some_iff.mp hstep
  obtain ⟨ob,hb,rfl⟩ := Option.map_eq_some_iff.mp hstep
  exact Runs.step s.1 s.2.1 s.2.2 _ oa ob hs
    (arrival_paired rate burst s r oa ob hcheck ha hb)
    (hallowed _ (arrival_within rate burst s r hcheck))

theorem pair_last (allowed : Request → Prop) (hallowed : ∀ r, Within rate burst 0 r → allowed r)
    (rs : List (ℕ × ℕ)) (last : Outcome → Outcome → Bool)
    (h : (Nginx.Runs.run pairStep (pairCheck rate burst) (startZone rate,startZone rate,0) rs).any
      (fun s => pairCheck rate burst s r &&
        (ngxHttpLimitReqHandler 9 s.1 (arrival [97] r.1 r.2)).any (fun oa =>
          (keepingHandler 9 s.2.1 (arrival [97] r.1 r.2)).any (last oa))) = true) :
    ∃ (s : Zone × Zone × ℕ) (oa ob : Outcome), Runs {[97]} rate 0 allowed s.1 s.2.1 s.2.2 ∧
      Paired {[97]} s.1 s.2.1 s.2.2 (arrival [97] r.1 r.2) oa ob ∧
      Within rate burst 0 (arrival [97] r.1 r.2) ∧ last oa ob = true := by
  obtain ⟨s,hs,hlast⟩ := Nginx.Runs.run_reaches pairStep (pairCheck rate burst)
    (fun s => Runs {[97]} rate 0 allowed s.1 s.2.1 s.2.2)
    (fun s a t hs hcheck hstep => pair_reached rate burst s a allowed hallowed t hs hcheck hstep)
    rs _ (Runs.init _ 1 _ _ _ _) _ h
  obtain ⟨hcheck,hlast⟩ := Bool.and_eq_true_iff.mp hlast
  obtain ⟨oa,ha,hlast⟩ := (Option.any_eq_true _ _).mp hlast
  obtain ⟨ob,hb,hlast⟩ := (Option.any_eq_true _ _).mp hlast
  exact ⟨s,oa,ob,hs,arrival_paired rate burst s r oa ob hcheck ha hb,
    arrival_within rate burst s r hcheck,hlast⟩

end Arrivals

/-- Two requests are delayed, one is rejected at the burst of 2, and the bucket is dropped by
the request that comes a minute later. -/
theorem limit_req_expiry_leaked : ∃ (a : Zone) (oa ob : Outcome), oa.expired ≠ [] ∧ ob.expired = [] ∧
    SameDecision oa ob ∧ ∀ x ∈ oa.expired, 60000 ≤ elapsed 62000 (a.last x) ∧
      signed ((a.excess x : ℤ)-leaked a.rate (elapsed 62000 (a.last x))) ≤ 0 := by
  obtain ⟨s,oa,ob,hs,hpaired,hwithin,hlast⟩ := pair_last 1000 2000 (2000, 62000)
    (Within 1000 2000 0) (fun _ h => h) [(2000, 0), (2000, 0), (2000, 0), (2000, 500)]
    (fun oa ob => decide (oa.expired ≠ [] ∧ ob.expired = [])) (by decide +kernel)
  obtain ⟨hsome,hnone⟩ := of_decide_eq_true hlast
  obtain ⟨hsame,hdrops⟩ := limit_req_expiry {[97]} one_value_apart 1000 2000 0 (by decide)
    s.1 s.2.1 s.2.2 _ oa ob hs hpaired hwithin
  exact ⟨s.1,oa,ob,hsome,hnone,hsame,hdrops⟩

/-- At one request a minute only 960 have leaked after a minute: the fresh bucket admits a
request that the dropped one would have rejected. -/
theorem expiry_observed : ¬ ∀ P, Apart P → ∀ rate start a b clock r oa ob,
    Runs P rate start (fun _ => True) a b clock → Paired P a b clock r oa ob →
      SameDecision oa ob := by
  intro hall
  obtain ⟨s,oa,ob,hs,hpaired,-,hlast⟩ := pair_last 16 0 (0, 60000) (fun _ => True)
    (fun _ _ => trivial) [(0, 0)] (fun oa ob => decide (oa.answer ≠ ob.answer))
    (by decide +kernel)
  exact of_decide_eq_true hlast
    (hall {[97]} one_value_apart 16 0 s.1 s.2.1 s.2.2 _ oa ob hs hpaired).answer

end Nginx.LimitReqExpiry
