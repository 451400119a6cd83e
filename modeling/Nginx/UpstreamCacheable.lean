import Mathlib.Data.BitVec
import Nginx.Atoi
import Nginx.HeaderHash
import Nginx.HttpTime
import Nginx.Precedence

/-!
# What the headers of a response say about its caching

The handlers of four headers set the time until which a response is valid, and whether it is
cached at all. Each of them is an ask; the result is the same for every order of the headers just
when the asks agree.
-/

set_option autoImplicit false

namespace Nginx.UpstreamCacheable
open Precedence HeaderHash Atoi HttpTime

def isDigit (c : UInt8) : Bool := 48 ≤ c && c ≤ 57

/-- The text from where `sub` is found in it, in any case -/
def ngxStrlcasestrn (sub : List UInt8) : List UInt8 → Option (List UInt8)
  | [] => none
  | c::s =>
    if ngxStrlow ((c::s).take sub.length) = ngxStrlow sub then some (c::s)
    else ngxStrlcasestrn sub s

def noCache : List UInt8 := [110,111,45,99,97,99,104,101]

def noStore : List UInt8 := [110,111,45,115,116,111,114,101]

def privateText : List UInt8 := [112,114,105,118,97,116,101]

/-- "max-age=" -/
def maxAge : List UInt8 := [109,97,120,45,97,103,101,61]

/-- The loop over the digits of a "max-age", with the sum in 64 bits -/
@[grind =] def maxAgeLoop : List UInt8 → BitVec 64 → Option (BitVec 64)
  | [], n => some n
  | c::s, n =>
    if c = 44 ∨ c = 59 ∨ c = 32 then some n
    else if isDigit c then maxAgeLoop s (n*10+BitVec.ofNat 64 c.toNat-48)
    else none

/-- A header of the response; `ngx_hash_find` looks for the name in lower case. -/
structure Header where
  lowcaseKey : List UInt8
  value : List UInt8
  deriving DecidableEq, Repr

def setCookie : List UInt8 := [115,101,116,45,99,111,111,107,105,101]

def cacheControl : List UInt8 := [99,97,99,104,101,45,99,111,110,116,114,111,108]

/-- "expires" -/
def expiresName : List UInt8 := [101,120,112,105,114,101,115]

def xAccelExpires : List UInt8 :=
  [120,45,97,99,99,101,108,45,101,120,112,105,114,101,115]

def forbids (value : List UInt8) : Bool :=
  (ngxStrlcasestrn noCache value).isSome || (ngxStrlcasestrn noStore value).isSome ||
    (ngxStrlcasestrn privateText value).isSome

/-- `u->cacheable`, and `r->cache->valid_sec` as the value -/
abbrev Validity := State (BitVec 64)

def ngxHttpUpstreamProcessSetCookie (s : Validity) : Validity := { s with cacheable := false }

def ngxHttpUpstreamProcessCacheControl (now : BitVec 64) (value : List UInt8) (s : Validity) :
    Validity :=
  if s.valid ≠ 0 then s
  else if forbids value then { s with cacheable := false }
  else
    match ngxStrlcasestrn maxAge value with
    | none => s
    | some p =>
      match maxAgeLoop (p.drop 8) 0 with
      | none => { s with cacheable := false }
      | some n => if n = 0 then { s with cacheable := false } else { s with valid := now+n }

def ngxHttpUpstreamProcessExpires (now : BitVec 64) (value : List UInt8) (s : Validity) :
    Validity :=
  if s.valid ≠ 0 then s
  else
    match ngxHttpParseTime value with
    | none => { s with cacheable := false }
    | some expires =>
      if expires = ngxError ∨ expires < now.toInt then { s with cacheable := false }
      else { s with valid := BitVec.ofInt 64 expires }

def ngxHttpUpstreamProcessAccelExpires (now : BitVec 64) (value : List UInt8) (s : Validity) :
    Validity :=
  if value.headD 0 ≠ 64 then
    let n := ngxAtoi value
    if n = 0 then { s with cacheable := false }
    else if n = ngxError then s
    else { s with valid := now+BitVec.ofInt 64 n }
  else
    let n := ngxAtoi (value.drop 1)
    if n ≠ ngxError then { s with valid := BitVec.ofInt 64 n } else s

/-- The handler of a header in `ngx_http_upstream_headers_in`; those of other headers leave both
as they are. -/
def handle (now : BitVec 64) (h : Header) (s : Validity) : Validity :=
  if h.lowcaseKey = setCookie then ngxHttpUpstreamProcessSetCookie s
  else if h.lowcaseKey = cacheControl then ngxHttpUpstreamProcessCacheControl now h.value s
  else if h.lowcaseKey = expiresName then ngxHttpUpstreamProcessExpires now h.value s
  else if h.lowcaseKey = xAccelExpires then ngxHttpUpstreamProcessAccelExpires now h.value s
  else s

def processHeaders (now : BitVec 64) (headers : List Header) (s : Validity) : Validity :=
  headers.foldl (fun s h => handle now h s) s

def start : Validity := ⟨true,0⟩

/-! Headers as asks -/

def cacheControlAsks (now : BitVec 64) (value : List UInt8) : Ask (BitVec 64) :=
  if forbids value then .refuse
  else
    match ngxStrlcasestrn maxAge value with
    | none => .nothing
    | some p =>
      match maxAgeLoop (p.drop 8) 0 with
      | none => .refuse
      | some n => if n = 0 then .refuse else .offer (now+n)

@[grind =] def expiresAsks (now : BitVec 64) (value : List UInt8) : Ask (BitVec 64) :=
  match ngxHttpParseTime value with
  | none => .refuse
  | some expires =>
    if expires = ngxError ∨ expires < now.toInt then .refuse else .offer (BitVec.ofInt 64 expires)

def accelAsks (now : BitVec 64) (value : List UInt8) : Ask (BitVec 64) :=
  if value.headD 0 ≠ 64 then
    let n := ngxAtoi value
    if n = 0 then .forbid else if n = ngxError then .nothing else .force (now+BitVec.ofInt 64 n)
  else
    let n := ngxAtoi (value.drop 1)
    if n ≠ ngxError then .force (BitVec.ofInt 64 n) else .nothing

def asks (now : BitVec 64) (h : Header) : Ask (BitVec 64) :=
  if h.lowcaseKey = setCookie then .forbid
  else if h.lowcaseKey = cacheControl then cacheControlAsks now h.value
  else if h.lowcaseKey = expiresName then expiresAsks now h.value
  else if h.lowcaseKey = xAccelExpires then accelAsks now h.value
  else .nothing

theorem cacheControl_step (now : BitVec 64) (value : List UInt8) (s : Validity) :
    ngxHttpUpstreamProcessCacheControl now value s = step (cacheControlAsks now value) s := by
  rw [ngxHttpUpstreamProcessCacheControl, cacheControlAsks]
  by_cases hv : s.valid = 0
  · rw [if_neg (not_not_intro hv)]
    split
    · exact (if_pos hv).symm
    · split
      · rfl
      · split
        · exact (if_pos hv).symm
        · split
          · exact (if_pos hv).symm
          · exact (if_pos hv).symm
  rw [if_pos hv]
  split
  · exact (if_neg hv).symm
  · split
    · rfl
    · split
      · exact (if_neg hv).symm
      · split
        · exact (if_neg hv).symm
        · exact (if_neg hv).symm

theorem expires_step (now : BitVec 64) (value : List UInt8) (s : Validity) :
    ngxHttpUpstreamProcessExpires now value s = step (expiresAsks now value) s := by
  rw [ngxHttpUpstreamProcessExpires, expiresAsks]
  by_cases hv : s.valid = 0
  · rw [if_neg (not_not_intro hv)]
    split
    · exact (if_pos hv).symm
    · split
      · exact (if_pos hv).symm
      · exact (if_pos hv).symm
  rw [if_pos hv]
  split
  · exact (if_neg hv).symm
  · split
    · exact (if_neg hv).symm
    · exact (if_neg hv).symm

theorem accel_step (now : BitVec 64) (value : List UInt8) (s : Validity) :
    ngxHttpUpstreamProcessAccelExpires now value s = step (accelAsks now value) s := by
  simp only [ngxHttpUpstreamProcessAccelExpires, accelAsks]
  split
  · split
    · rfl
    · split
      · rfl
      · rfl
  · split
    · rfl
    · rfl

theorem handle_step (now : BitVec 64) (h : Header) (s : Validity) :
    handle now h s = step (asks now h) s := by
  rw [handle, asks]
  split
  · rfl
  · split
    · exact cacheControl_step now h.value s
    · split
      · exact expires_step now h.value s
      · split
        · exact accel_step now h.value s
        · rfl

theorem process_run (now : BitVec 64) (headers : List Header) (s : Validity) :
    processHeaders now headers s = run (headers.map (asks now)) s := by
  rw [processHeaders, run, List.foldl_map]
  exact congrArg (fun f => headers.foldl f s) (funext₂ fun s h => handle_step now h s)

/-! Orders of the headers -/

@[grind =] def wholeLoop : List UInt8 → ℕ → Option ℕ
  | [], n => some n
  | c::s, n =>
    if c = 44 ∨ c = 59 ∨ c = 32 then some n
    else if isDigit c then wholeLoop s (n*10+(c.toNat-48))
    else none

/-- The number of a "max-age", however many digits it has -/
def wholeAge (value : List UInt8) : Option ℕ :=
  (ngxStrlcasestrn maxAge value).bind fun p => wholeLoop (p.drop 8) 0

theorem maxAgeLoop_whole (s : List UInt8) (n : ℕ) :
    maxAgeLoop s (BitVec.ofNat 64 n) = (wholeLoop s n).map (BitVec.ofNat 64) := by
  induction s generalizing n with
  | nil => rfl
  | cons c s ih =>
    rw [maxAgeLoop, wholeLoop]
    split
    · rfl
    · split
      · rename_i hd
        have hc : 48 ≤ c.toNat := by
          rw [isDigit, Bool.and_eq_true, decide_eq_true_eq] at hd
          exact hd.1
        have hn : BitVec.ofNat 64 n*10+BitVec.ofNat 64 c.toNat-48 =
            BitVec.ofNat 64 (n*10+(c.toNat-48)) := by
          have hd : BitVec.ofNat 64 c.toNat = BitVec.ofNat 64 (c.toNat-48)+48 := by
            have ha := BitVec.ofNat_add (n := 64) (c.toNat-48) 48
            rwa [Nat.sub_add_cancel hc] at ha
          rw [hd, ← BitVec.add_assoc, BitVec.add_sub_cancel, BitVec.ofNat_add, BitVec.ofNat_mul]
          rfl
        rw [hn, ih]
      · rfl

/-- What headers say does not depend on their order; a response that forbids it is not left
cacheable, unless "X-Accel-Expires" says otherwise; and the time that a "max-age" gives, where it
leaves the response cacheable, is that many seconds from now. -/
structure OrderFree (now : BitVec 64) (hs : List Header) : Prop where
  same : ∀ hs' : List Header, hs'.Perm hs → processHeaders now hs' start =
    processHeaders now hs start
  uncached : (∃ h ∈ hs, h.lowcaseKey = cacheControl ∧ forbids h.value = true) →
    (∀ h ∈ hs, h.lowcaseKey ≠ xAccelExpires) → (processHeaders now hs start).cacheable = false
  exact : ∀ h ∈ hs, h.lowcaseKey = cacheControl → ∀ n, wholeAge h.value = some n →
    (handle now h start).cacheable = true →
    (handle now h start).valid.toInt = now.toInt+(n : ℤ)

/-- No "max-age" that is used takes the time out of the range of a `time_t`. -/
def AgesFit (now : BitVec 64) (hs : List Header) : Prop :=
  ∀ h ∈ hs, h.lowcaseKey = cacheControl → forbids h.value = false →
    ∀ n, wholeAge h.value = some n → n % 2^64 = 0 ∨ now.toInt+(n : ℤ) < 2^63

theorem perm_map {α β : Type} (f : α → β) {xs : List α} {ys : List β} (h : ys.Perm (xs.map f)) :
    ∃ xs' : List α, xs'.Perm xs ∧ xs'.map f = ys := by
  have hf : List.Forall₂ (fun b a => b = f a) (xs.map f) xs := by
    rw [List.forall₂_map_left_iff, List.forall₂_same]
    exact fun _ _ => rfl
  obtain ⟨xs',h',hp⟩ := List.perm_comp_forall₂ h hf
  rw [← List.forall₂_map_right_iff, List.forall₂_eq_eq_eq] at h'
  exact ⟨xs',hp,h'.symm⟩

theorem same_asks (now : BitVec 64) (hs : List Header) :
    (∀ hs' : List Header, hs'.Perm hs → processHeaders now hs' start =
      processHeaders now hs start) ↔ Same (hs.map (asks now)) start := by
  constructor
  · intro h asks' hp
    obtain ⟨hs',hp',rfl⟩ := perm_map (asks now) hp
    rw [← process_run, ← process_run]
    exact h hs' hp'
  · intro h hs' hp
    rw [process_run, process_run]
    exact h _ (hp.map _)

theorem handle_cacheControl (now : BitVec 64) {h : Header} (hk : h.lowcaseKey = cacheControl) :
    asks now h = cacheControlAsks now h.value := by
  rw [asks, hk, if_neg (by decide), if_pos rfl]

theorem forces_key {now : BitVec 64} {h : Header} (hf : (asks now h).forces = true) :
    h.lowcaseKey = xAccelExpires := by
  rw [asks] at hf
  split at hf
  · cases hf
  · split at hf
    · rw [cacheControlAsks] at hf
      split at hf
      · cases hf
      · split at hf
        · cases hf
        · split at hf
          · cases hf
          · split at hf
            · cases hf
            · cases hf
    · split at hf
      · rw [expiresAsks] at hf
        split at hf
        · cases hf
        · split at hf
          · cases hf
          · cases hf
      · split at hf
        · rename_i hk
          exact hk
        · cases hf

theorem forces_one {now : BitVec 64} {hs : List Header}
    (hone : hs.countP (fun h => h.lowcaseKey = xAccelExpires) ≤ 1) :
    (hs.map (asks now)).countP Ask.forces ≤ 1 := by
  rw [List.countP_map]
  exact le_trans (List.countP_mono_left fun h _ hf => decide_eq_true (forces_key hf)) hone

theorem add_toInt {now : BitVec 64} {n : ℕ} :
    (now+BitVec.ofNat 64 n).toInt = now.toInt+(n : ℤ) ↔ now.toInt+(n : ℤ) < 2^63 := by
  have hb := BitVec.toInt_lt (x := now)
  have hl := BitVec.le_toInt now
  rw [BitVec.toInt_add, BitVec.toInt_ofNat', Int.add_bmod_bmod]
  constructor
  · intro h
    have := Int.bmod_lt (x := now.toInt+(n : ℤ)) (m := 2^64) (by decide)
    omega
  · intro h
    exact Int.bmod_eq_of_le (by omega) (by omega)

theorem exact_iff {now : BitVec 64} {h : Header} (hk : h.lowcaseKey = cacheControl) :
    (∀ n, wholeAge h.value = some n → (handle now h start).cacheable = true →
      (handle now h start).valid.toInt = now.toInt+(n : ℤ)) ↔
    (forbids h.value = false → ∀ n, wholeAge h.value = some n →
      n % 2^64 = 0 ∨ now.toInt+(n : ℤ) < 2^63) := by
  rw [handle_step, handle_cacheControl now hk, cacheControlAsks]
  by_cases hf : forbids h.value = true
  · rw [if_pos hf]
    refine iff_of_true (fun n _ hc => ?_) fun hn => ?_
    · cases hc
    · rw [hf] at hn
      cases hn
  rw [if_neg hf, forall_prop_of_true (Bool.eq_false_iff.mpr hf)]
  refine forall₂_congr fun n hn => ?_
  obtain ⟨p,hp,hw⟩ := Option.bind_eq_some_iff.mp hn
  have hloop := maxAgeLoop_whole (p.drop 8) 0
  rw [hw] at hloop
  have hloop : maxAgeLoop (p.drop 8) 0 = some (BitVec.ofNat 64 n) := hloop
  rw [hp]
  dsimp only
  rw [hloop]
  dsimp only
  by_cases hz : BitVec.ofNat 64 n = 0
  · rw [if_pos hz]
    refine iff_of_true (fun hc => by cases hc) (Or.inl ?_)
    have := congrArg BitVec.toNat hz
    rwa [BitVec.toNat_ofNat] at this
  rw [if_neg hz]
  have hmod : ¬ n % 2^64 = 0 := fun h0 => hz (BitVec.eq_of_toNat_eq (by
    rw [BitVec.toNat_ofNat, h0]
    rfl))
  have hv : step (.offer (now+BitVec.ofNat 64 n)) start = ⟨true,now+BitVec.ofNat 64 n⟩ := by
    rw [step, if_pos (by rfl)]
    rfl
  rw [hv, forall_prop_of_true rfl, add_toInt, or_iff_right hmod]

/-- What headers with one "X-Accel-Expires" at most say does not depend on their order if and only
if what they ask for agrees and the "max-age" is not too large. -/
theorem order_free (now : BitVec 64) (hs : List Header)
    (hone : hs.countP (fun h => h.lowcaseKey = xAccelExpires) ≤ 1) :
    OrderFree now hs ↔ Consistent (hs.map (asks now)) ∧ AgesFit now hs := by
  have hsame := (same_asks now hs).trans (same_iff (forces_one hone) rfl rfl)
  have hexact : (∀ h ∈ hs, h.lowcaseKey = cacheControl → ∀ n, wholeAge h.value = some n →
      (handle now h start).cacheable = true →
      (handle now h start).valid.toInt = now.toInt+(n : ℤ)) ↔ AgesFit now hs :=
    forall₂_congr fun h _ => forall_congr' fun hk => exact_iff hk
  constructor
  · intro h
    exact ⟨hsame.mp h.same,hexact.mp h.exact⟩
  · rintro ⟨hc,hfit⟩
    have hs' := hsame.mpr hc
    refine ⟨hs',?_,hexact.mpr hfit⟩
    rintro ⟨h,hm,hk,hf⟩ _
    have hrefuse : asks now h = .refuse := by
      rw [handle_cacheControl now hk, cacheControlAsks, if_pos hf]
    obtain ⟨xs,ys,rfl⟩ := List.append_of_mem hm
    rw [← hs' _ List.perm_middle.symm, process_run, List.map_cons, hrefuse, run_cons]
    exact run_uncacheable rfl

/-- "X-Accel-Expires: 10" and "Set-Cookie: a" -/
theorem order_free_small : OrderFree 784111770 [⟨xAccelExpires,[49,48]⟩, ⟨setCookie,[97]⟩] ↔
    Consistent ([⟨xAccelExpires,[49,48]⟩, ⟨setCookie,[97]⟩].map (asks 784111770)) ∧
      AgesFit 784111770 [⟨xAccelExpires,[49,48]⟩, ⟨setCookie,[97]⟩] :=
  order_free 784111770 _ (by decide)

/-- "Sun, 06 Nov 1994 08:49:37 GMT" -/
def novemberTime : List UInt8 :=
  [83,117,110,44,32,48,54,32,78,111,118,32,49,57,57,52,32,48,56,58,52,57,58,
    51,55,32,71,77,84]

/-- "Expires" in the future in front of "Cache-Control: no-cache": the response is cached. -/
theorem expires_first : ¬ OrderFree 784111770
    [⟨expiresName,novemberTime⟩, ⟨cacheControl,noCache⟩] := by
  intro h
  have hc := h.uncached ⟨⟨cacheControl,noCache⟩,by simp,rfl,by decide⟩ (by decide)
  have hrun : processHeaders 784111770 [⟨expiresName,novemberTime⟩, ⟨cacheControl,noCache⟩]
      start = ⟨true,784111777⟩ := by decide +kernel
  rw [hrun] at hc
  cases hc

end Nginx.UpstreamCacheable
