import Mathlib.Data.List.Basic
import Mathlib.Algebra.Order.Group.Int

/-!
# The body filter of memcached

The bytes behind the VALUE line are the value, and a trailer of seven bytes. `length` of the
upstream and `rest` of the context are unsigned in the source, and are integers here, so that
a number below zero is seen. Every call gets the bytes that have been read.
-/

set_option autoImplicit false

namespace Nginx.MemcachedFilter

def ngxHttpMemcachedEnd : List ℕ := [13,10,69,78,68,13,10]

/-- Whether `ngx_strncmp` says that the first `n` bytes are equal, up to a NUL in both. -/
def strncmpEqual : ℕ → List ℕ → List ℕ → Bool
  | 0, _, _ => true
  | n+1, a::s1, b::s2 => a = b && (a = 0 || strncmpEqual n s1 s2)
  | _, _, _ => false

/-- `outBufs` are the bytes of the buffers. `invalid` is not in the source: the log has the line
about an invalid trailer. -/
structure Upstream where
  length : ℤ
  rest : ℤ
  outBufs : List (List ℕ)
  invalid : Bool

def ngxHttpMemcachedFilterInit (length : ℕ) : Upstream := ⟨length+7,7,[],false⟩

/-- Whether bytes agree with the trailer behind its first `7-rest` bytes. -/
def trailerAgrees (rest : ℤ) (bytes : List ℕ) : Bool :=
  strncmpEqual bytes.length bytes ((ngxHttpMemcachedEnd++[0]).drop (7-rest).toNat)

/-- The call for the bytes `bytes`; `buf` says whether there is a buffer for them. -/
def ngxHttpMemcachedFilter (u : Upstream) (bytes : List ℕ) (buf : Bool) : Option Upstream :=
  if u.length = u.rest then
    if trailerAgrees u.rest bytes then
      some { u with length := u.length-bytes.length, rest := u.rest-bytes.length }
    else some { u with length := 0, rest := 0, invalid := true }
  else if buf = false then none
  else if bytes.length ≤ u.length-7 then
    some { u with length := u.length-bytes.length, outBufs := u.outBufs++[bytes] }
  else
    let last := bytes.drop (u.length-7).toNat
    let rest := u.rest-last.length
    some ⟨rest,rest,u.outBufs++[bytes.take (u.length-7).toNat],
      if trailerAgrees 7 last then u.invalid else true⟩

/-- The calls on the upstream of a value of `length` bytes, and the bytes received so far. The
upstream is finished when its length is zero. -/
inductive Reached (cond : Upstream → List ℕ → Prop) (length : ℕ) : Upstream → List ℕ → Prop where
  | init : Reached cond length (ngxHttpMemcachedFilterInit length) []
  | step (u u' : Upstream) (received bytes : List ℕ) (buf : Bool) (h : Reached cond length u received)
      (hmore : u.length ≠ 0) (hbytes : bytes ≠ []) (hc : cond u bytes)
      (hrun : ngxHttpMemcachedFilter u bytes buf = some u') : Reached cond length u' (received++bytes)

structure Law (length : ℕ) (u : Upstream) (received : List ℕ) : Prop where
  out : u.outBufs.flatten = received.take length
  length_nonneg : 0 ≤ u.length
  rest_nonneg : 0 ≤ u.rest
  done : u.length = 0 ↔ received.length = length+7 ∨ u.invalid = true

/-- Bytes that agree with the trailer are not more than the rest of it, and the bytes of the
trailer behind the last byte of the value agree with it or are all of it. -/
structure Fits (u : Upstream) (bytes : List ℕ) : Prop where
  trailer : u.length = u.rest → trailerAgrees u.rest bytes = true → bytes.length ≤ u.rest
  value : u.length ≠ u.rest → u.length-7 < bytes.length →
    (bytes.length : ℤ)-(u.length-7) = 7 ∨ (bytes.length : ℤ)-(u.length-7) < 7 ∧
      trailerAgrees 7 (bytes.drop (u.length-7).toNat) = true

/-- What has been received is a part of the value with a part of the trailer, or the trailer was
invalid. -/
inductive Inv (length : ℕ) (u : Upstream) (received : List ℕ) : Prop where
  | value (hout : u.outBufs.flatten = received.take length) (hle : received.length < length)
      (hlength : u.length = length+7-received.length) (hrest : u.rest = 7) (hvalid : u.invalid = false)
  | trailer (hout : u.outBufs.flatten = received.take length) (hle : length ≤ received.length)
      (hlast : received.length ≤ length+7) (hlength : u.length = length+7-received.length)
      (hrest : u.rest = u.length) (hvalid : u.length ≠ 0 → u.invalid = false)
  | invalid (hout : u.outBufs.flatten = received.take length) (hle : length ≤ received.length)
      (hlength : u.length = 0) (hrest : u.rest = 0) (hvalid : u.invalid = true)

section Step
variable (length : ℕ) (u u' : Upstream) (received bytes : List ℕ) (buf : Bool)

theorem inv_law (h : Inv length u received) : Law length u received := by
  cases h with
  | value hout hle hlength hrest hvalid =>
    refine ⟨hout,by omega,by omega,?_⟩
    rw [hvalid]
    constructor
    · intro h0
      omega
    · rintro (h7 | h)
      · omega
      · cases h
  | trailer hout hle hlast hlength hrest hvalid =>
    refine ⟨hout,by omega,by omega,fun h0 => Or.inl (by omega),?_⟩
    rintro (h7 | h)
    · omega
    · by_contra h0
      rw [hvalid h0] at h
      cases h
  | invalid hout hle hlength hrest hvalid =>
    exact ⟨hout,by omega,by omega,fun _ => Or.inr hvalid,fun _ => hlength⟩

theorem init_inv : Inv length (ngxHttpMemcachedFilterInit length) [] := by
  by_cases hzero : length = 0
  · subst hzero
    exact Inv.trailer rfl (Nat.zero_le _) (by decide) rfl rfl (fun _ => rfl)
  · exact Inv.value List.take_nil.symm (Nat.pos_of_ne_zero hzero) (by simp [ngxHttpMemcachedFilterInit]) rfl rfl

theorem take_received (hle : length ≤ received.length) :
    (received++bytes).take length = received.take length := List.take_append_of_le_length hle

theorem trailer_step (hout : u.outBufs.flatten = received.take length) (hle : length ≤ received.length)
    (hlast : received.length ≤ length+7) (hlength : u.length = length+7-received.length)
    (hrest : u.rest = u.length) (hvalid : u.invalid = false)
    (hrun : ngxHttpMemcachedFilter u bytes buf = some u') :
    (Law length u' (received++bytes) → Fits u bytes) ∧
      (Fits u bytes → Inv length u' (received++bytes)) := by
  rw [ngxHttpMemcachedFilter, if_pos hrest.symm] at hrun
  have hsame : (received++bytes).take length = received.take length := take_received length received bytes hle
  by_cases hagrees : trailerAgrees u.rest bytes = true
  · rw [if_pos hagrees] at hrun
    cases hrun
    constructor
    · intro hlaw
      have hnonneg : 0 ≤ u.rest-bytes.length := hlaw.rest_nonneg
      exact ⟨fun _ _ => by omega,fun hne => absurd hrest.symm hne⟩
    · intro hfits
      have hfew := hfits.trailer hrest.symm hagrees
      have hlen : (received++bytes).length = received.length+bytes.length := List.length_append
      refine Inv.trailer (hout.trans hsame.symm) (by omega) (by omega) ?_ ?_ (fun _ => hvalid)
      · show u.length-bytes.length = _
        omega
      · show u.rest-(bytes.length : ℤ) = u.length-bytes.length
        omega
  rw [if_neg hagrees] at hrun
  cases hrun
  refine ⟨fun _ => ⟨fun _ h => absurd h hagrees,fun hne => absurd hrest.symm hne⟩,fun _ => ?_⟩
  exact Inv.invalid (hout.trans hsame.symm) (by rw [List.length_append]; omega) rfl rfl rfl

theorem value_step (hout : u.outBufs.flatten = received.take length) (hle : received.length < length)
    (hlength : u.length = length+7-received.length) (hrest : u.rest = 7) (hvalid : u.invalid = false)
    (hrun : ngxHttpMemcachedFilter u bytes buf = some u') :
    (Law length u' (received++bytes) → Fits u bytes) ∧
      (Fits u bytes → Inv length u' (received++bytes)) := by
  have hne : u.length ≠ u.rest := by omega
  have hlen : (received++bytes).length = received.length+bytes.length := List.length_append
  have htake : received.take length = received := List.take_of_length_le (Nat.le_of_lt hle)
  rw [ngxHttpMemcachedFilter, if_neg hne] at hrun
  by_cases hbuf : buf = false
  · rw [if_pos hbuf] at hrun
    cases hrun
  rw [if_neg hbuf] at hrun
  by_cases hfew : (bytes.length : ℤ) ≤ u.length-7
  · rw [if_pos hfew] at hrun
    cases hrun
    refine ⟨fun _ => ⟨fun he => absurd he hne,fun _ hlt => by omega⟩,fun _ => ?_⟩
    have hflat : (u.outBufs++[bytes]).flatten = (received++bytes).take length := by
      rw [List.flatten_append, hout, htake, List.take_of_length_le (by omega)]
      simp
    by_cases hall : received.length+bytes.length = length
    · refine Inv.trailer hflat (by omega) (by omega) ?_ ?_ (fun _ => hvalid)
      · show u.length-bytes.length = _
        omega
      · show u.rest = u.length-bytes.length
        omega
    refine Inv.value hflat (by omega) ?_ hrest hvalid
    show u.length-bytes.length = _
    omega
  rw [if_neg hfew] at hrun
  cases hrun
  have hdata : (u.length-7).toNat = length-received.length := by omega
  have hdrop : (bytes.drop (u.length-7).toNat).length = bytes.length-(length-received.length) := by
    rw [List.length_drop, hdata]
  have hflat : (u.outBufs++[bytes.take (u.length-7).toNat]).flatten = (received++bytes).take length := by
    rw [List.flatten_append, hout, htake, List.take_append, List.take_of_length_le (Nat.le_of_lt hle),
      hdata]
    simp
  constructor
  · intro hlaw
    have hnonneg : 0 ≤ u.rest-(bytes.drop (u.length-7).toNat).length := hlaw.rest_nonneg
    have hdone := hlaw.done
    simp only at hdone
    refine ⟨fun he => absurd he hne,fun _ _ => ?_⟩
    by_cases hseven : (bytes.length : ℤ)-(u.length-7) = 7
    · exact Or.inl hseven
    refine Or.inr ⟨by omega,?_⟩
    by_contra hagrees
    rw [if_neg hagrees] at hdone
    have hzero := hdone.mpr (Or.inr rfl)
    omega
  · intro hfits
    have hvalue := hfits.value hne (by omega)
    refine Inv.trailer hflat (by omega) (by omega) ?_ rfl (fun hmore => ?_)
    · show u.rest-(bytes.drop (u.length-7).toNat).length = _
      omega
    · simp only at hmore ⊢
      rcases hvalue with hseven | ⟨-,hagrees⟩
      · omega
      · rw [if_pos hagrees]
        exact hvalid

theorem filter_step (h : Inv length u received) (hmore : u.length ≠ 0)
    (hrun : ngxHttpMemcachedFilter u bytes buf = some u') :
    (Law length u' (received++bytes) → Fits u bytes) ∧
      (Fits u bytes → Inv length u' (received++bytes)) := by
  cases h with
  | value hout hle hlength hrest hvalid =>
    exact value_step length u u' received bytes buf hout hle hlength hrest hvalid hrun
  | trailer hout hle hlast hlength hrest hvalid =>
    exact trailer_step length u u' received bytes buf hout hle hlast hlength hrest (hvalid hmore) hrun
  | invalid _ _ hlength => exact absurd hlength hmore

theorem reached_inv (h : Reached Fits length u received) : Inv length u received := by
  induction h with
  | init => exact init_inv length
  | step u u' received bytes buf _ hmore _ hc hrun ih =>
    exact (filter_step length u u' received bytes buf ih hmore hrun).2 hc

end Step

/-- Calls that fit keep the law, and the next call keeps it if and only if it fits. -/
theorem memcached_filter_law (length : ℕ) (u : Upstream) (received : List ℕ)
    (h : Reached Fits length u received) : Law length u received ∧
      ∀ bytes buf u', u.length ≠ 0 → bytes ≠ [] → ngxHttpMemcachedFilter u bytes buf = some u' →
        (Law length u' (received++bytes) ↔ Fits u bytes) := by
  have hinv := reached_inv length u received h
  refine ⟨inv_law length u received hinv,fun bytes buf u' hmore _ hrun => ?_⟩
  obtain ⟨honly,hif⟩ := filter_step length u u' received bytes buf hinv hmore hrun
  exact ⟨honly,fun hfits => inv_law length u' _ (hif hfits)⟩

/-- A value of two bytes in three reads, the second of which has the first bytes of the trailer. -/
theorem memcached_filter_law_split : Law 2 ⟨0,0,[[97],[98]],false⟩ ([97,98]++ngxHttpMemcachedEnd) := by
  have hfirst : Reached Fits 2 ⟨8,7,[[97]],false⟩ [97] :=
    .step _ _ [] [97] true .init (by decide) (by decide) ⟨by decide,by decide⟩ rfl
  have hsecond : Reached Fits 2 ⟨5,5,[[97],[98]],false⟩ [97,98,13,10] :=
    .step _ _ [97] [98,13,10] true hfirst (by decide) (by decide) ⟨by decide,by decide⟩ rfl
  exact (memcached_filter_law 2 _ _ (.step _ _ [97,98,13,10] [69,78,68,13,10] false hsecond
    (by decide) (by decide) ⟨by decide,by decide⟩ rfl)).1

/-- A byte behind the trailer drives the length below zero, and so the upstream goes on. -/
theorem length_below_zero : ∃ u, Reached (fun _ _ => True) 1 u (97::ngxHttpMemcachedEnd++[120]) ∧
    u.length = -1 ∧ ¬ Law 1 u (97::ngxHttpMemcachedEnd++[120]) := by
  refine ⟨⟨-1,-1,[[97]],true⟩,Reached.step _ _ [] _ true Reached.init (by decide) (by decide)
    trivial rfl,rfl,fun hlaw => ?_⟩
  have hnonneg := hlaw.length_nonneg
  simp only at hnonneg
  omega

end Nginx.MemcachedFilter
