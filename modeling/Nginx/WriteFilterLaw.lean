import Nginx.WriteFilter

/-!
# The rate of a response

The allowance of a call is what the elapsed seconds give, with what is free of
the limit, less what has been sent. Sending it, rounded up by less than a page,
keeps the count within the allowance and a page, and time only adds to that. The
computation of the allowance may overflow, which makes it smaller.
-/

set_option autoImplicit false

namespace Nginx.WriteFilterLaw
open Nginx.OffT Nginx.WriteFilter

section Timers
variable (r : Request)

theorem armed_of (bytes : ℤ) (extra timer : ℕ) (hb : 0 ≤ bytes) (he : extra ≤ 1)
    (ht : timer = (unsigned (bytes*1000)/r.limitRate+extra)%2^64) : Armed r bytes extra timer := by
  refine ⟨hb,ht,fun h => ?_⟩
  have hu := unsigned_eq (z := bytes*1000) (by omega) (by omega)
  have hd : unsigned (bytes*1000)/r.limitRate ≤ unsigned (bytes*1000) := Nat.div_le_self _ _
  have htimer : timer = unsigned (bytes*1000)/r.limitRate+extra := by
    rw [ht, Nat.mod_eq_of_lt (by omega)]
  have hle : (timer : ℤ) ≤ bytes*1000+1 := by omega
  rw [off_eq (by omega) (by omega)]
  omega

theorem accounted_mono (conf : Conf) {sent nsent : ℤ} (h0 : 0 ≤ sent) (h : sent ≤ nsent)
    (hn : nsent < 2^63) : accounted conf sent ≤ accounted conf nsent := by
  have ha := conf.limitRateAfter_lt
  rw [accounted, accounted]
  split_ifs with hz h1 h2 h2
  · exact h
  · exact le_rfl
  · omega
  · rw [off_eq (by omega) (by omega)] at h1 h2
    omega
  · rw [off_eq (by omega) (by omega), off_eq (by omega) (by omega)]
    omega

end Timers

theorem write_filter_cases (conf : Conf) (r : Request) (t : Turn) (s : State) :
    ((ngxHttpWriteFilter conf r t s).limit = none ∧
      (ngxHttpWriteFilter conf r t s).given = none ∧
      (ngxHttpWriteFilter conf r t s).state.connection.sent = s.connection.sent ∧
      (ngxHttpWriteFilter conf r t s).timers = []) ∨
    s.connection.delayed = false ∧
      ∃ out, ngxHttpWriteFilter conf r t s = output conf r t { s with out := out } := by
  by_cases he : s.connection.error = true
  · exact .inl (by simp [ngxHttpWriteFilter, he])
  rcases hs : scan s.out ⟨0,false,false⟩ with _ | a
  · exact .inl (by simp [ngxHttpWriteFilter, he, hs])
  rcases ha : append t.links t.bufs s.out a with ⟨out,_ | a⟩
  · exact .inl (by simp [ngxHttpWriteFilter, he, hs, ha])
  by_cases hp : !a.last ∧ !a.flush ∧ t.bufs ≠ [] ∧ a.size < offT conf.postponeOutput
  · exact .inl (by simp only [ngxHttpWriteFilter, he, hs, ha, if_pos hp]; simp)
  by_cases hd : s.connection.delayed = true
  · exact .inl (by simp only [ngxHttpWriteFilter, he, hs, ha, if_neg hp, if_pos hd]; simp)
  by_cases hz : a.size = 0 ∧ !s.connection.lowlevelBuffered
  · refine .inl ?_
    simp only [ngxHttpWriteFilter, he, hs, ha, if_neg hp, if_neg hd, if_pos hz]
    split_ifs <;> simp_all
  refine .inr ⟨by simpa using hd,out,?_⟩
  simp only [ngxHttpWriteFilter, he, hs, ha, if_neg hp, if_neg hd, if_neg hz]
  rfl

section Sending
variable (conf : Conf) (r : Request) (t : Turn) (s : State) (computed : Option ℤ) (limit : ℤ)

theorem send_chain_sent : (sendChain conf r t s computed limit).state.connection.sent =
    offT (s.connection.sent+(t.send s.out limit).bytes) := by
  rcases hc : (t.send s.out limit).chain with _ | chain
  · simp only [sendChain, hc]
  by_cases he : chain = []
  · simp [sendChain, hc, he]
  · simp [sendChain, hc, he]

theorem send_chain_limit : (sendChain conf r t s computed limit).limit = computed := by
  rcases hc : (t.send s.out limit).chain with _ | chain
  · simp only [sendChain, hc]
  by_cases he : chain = []
  · simp [sendChain, hc, he]
  · simp [sendChain, hc, he]

theorem send_chain_timers (hr : 0 < r.limitRate) (timer : ℕ)
    (h : timer ∈ (sendChain conf r t s computed limit).timers) :
    timer = 1 ∨ timer = unsigned ((accounted conf
      (sendChain conf r t s computed limit).state.connection.sent-
        accounted conf s.connection.sent)*1000)/r.limitRate := by
  have hne : r.limitRate ≠ 0 := by omega
  rw [send_chain_sent]
  rcases hc : (t.send s.out limit).chain with _ | chain
  · simp [sendChain, hc] at h
  -- with a chain left or with none, the timers are the same
  · simp only [sendChain, hc, if_pos hne] at h
    by_cases he : chain = []
    · simp only [he, ne_eq, not_true_eq_false, if_false] at h
      split_ifs at h <;> simp_all
    · simp only [he, ne_eq, not_false_eq_true, if_true] at h
      split_ifs at h <;> simp_all

end Sending

def allowance (conf : Conf) (r : Request) (now sent : ℤ) : ℤ :=
  r.limitRate*(now-r.startSec+1)-(sent-conf.limitRateAfter)

theorem output_cases (conf : Conf) (r : Request) (t : Turn) (s : State) (hr : 0 < r.limitRate) :
    (offT (allowance conf r t.now s.connection.sent) ≤ 0 ∧
      (output conf r t s).limit = some (offT (allowance conf r t.now s.connection.sent)) ∧
      (output conf r t s).given = none ∧
      (output conf r t s).state.connection.sent = s.connection.sent ∧
      (output conf r t s).timers = [(unsigned (-offT (allowance conf r t.now s.connection.sent)
        *1000)/r.limitRate+1)%2^64]) ∨
    ∃ given, 0 < given ∧ given ≤ offT (allowance conf r t.now s.connection.sent) ∧
      output conf r t s = sendChain conf r t s
        (some (offT (allowance conf r t.now s.connection.sent))) given := by
  have hne : r.limitRate ≠ 0 := by omega
  have hc := conf.sendfileMaxChunk_lt
  have hchunk : offT conf.sendfileMaxChunk = conf.sendfileMaxChunk :=
    off_eq (by omega) (by omega)
  simp only [output, if_pos hne]
  change (offT (allowance conf r t.now s.connection.sent) ≤ 0 ∧ _) ∨ _
  rcases le_or_gt (offT (allowance conf r t.now s.connection.sent)) 0 with hl | hl
  · refine .inl ⟨hl,?_⟩
    have hl' := hl
    rw [allowance] at hl' ⊢
    rw [if_pos hl']
    exact ⟨rfl,rfl,rfl,rfl⟩
  refine .inr ?_
  have hl' := not_le.mpr hl
  rw [allowance] at hl' ⊢
  rw [if_neg hl']
  split_ifs with hm
  · refine ⟨offT conf.sendfileMaxChunk,?_,hm.2.le,rfl⟩
    rw [hchunk]
    omega
  · exact ⟨_,not_le.mp hl',le_rfl,rfl⟩

/-- A call that sends: `given` is the limit, or the chunk if that is smaller. -/
theorem send_limited (conf : Conf) (r : Request) (t : Turn) (s : State) (out : List Buf)
    (given : ℤ) (hr : 0 < r.limitRate) (hsend : Obedient conf t.send) (hnow : r.startSec ≤ t.now)
    (hrange : -2^63 ≤ s.connection.sent ∧ s.connection.sent < 2^63)
    (hd : s.connection.delayed = false) (hpos : 0 < given)
    (hle : given ≤ offT (allowance conf r t.now s.connection.sent)) (o : Outcome)
    (ho : o = sendChain conf r t { s with out := out }
      (some (offT (allowance conf r t.now s.connection.sent))) given) :
    Limited conf r ⟨t,s,o⟩ ∧ -2^63 ≤ o.state.connection.sent ∧ o.state.connection.sent < 2^63 := by
  obtain ⟨h0,hn⟩ := hsend out given hpos
  have hsent : o.state.connection.sent = offT (s.connection.sent+(t.send out given).bytes) := by
    rw [ho, send_chain_sent]
  have hlim : o.limit = some (offT (allowance conf r t.now s.connection.sent)) := by
    rw [ho, send_chain_limit]
  have htimers := send_chain_timers conf r t { s with out := out }
    (some (offT (allowance conf r t.now s.connection.sent))) given hr
  rw [← ho] at htimers
  have htime : 0 ≤ (r.limitRate : ℤ)*(t.now-r.startSec+1) :=
    mul_nonneg (by omega) (by omega)
  have hallow : offT (allowance conf r t.now s.connection.sent) ≤
      allowance conf r t.now s.connection.sent := by
    apply off_le
    rw [allowance]
    omega
  have hbound := off_range (s.connection.sent+(t.send out given).bytes)
  have hnonpos : ∀ limit, o.limit = some limit → ¬limit ≤ 0 := fun limit h => by
    rw [hlim] at h
    cases h
    exact not_le.mpr (hpos.trans_le hle)
  refine ⟨⟨?_,?_,?_,?_,?_,?_,?_⟩,by rw [hsent]; exact hbound⟩
  · rw [hsent]
    have := off_le (z := s.connection.sent+(t.send out given).bytes) (by omega)
    have hgiven : given ≤ r.limitRate*(t.now-r.startSec+1)-
        (s.connection.sent-conf.limitRateAfter) := hle.trans hallow
    simp only
    omega
  · exact fun limit h => Option.some.inj (h.symm.trans hlim)
  · exact fun limit h hle' => absurd hle' (hnonpos limit h)
  · intro h
    exact absurd (hd.symm.trans h) nofun
  · intro h
    exact absurd (hlim.symm.trans h) nofun
  · exact fun limit h hle' => absurd hle' (hnonpos limit h)
  · intro _ _ _ hb hup timer h
    rcases htimers timer h with hone | rfl
    · exact .inl hone
    have hmono := accounted_mono conf hb hup (by rw [hsent]; exact hbound.2)
    refine .inr (armed_of r _ 0 _ (sub_nonneg.mpr hmono) (by omega) ?_)
    rw [Nat.add_zero, Nat.mod_eq_of_lt (lt_of_le_of_lt (Nat.div_le_self _ _) (unsigned_lt _))]

theorem call_limited (conf : Conf) (r : Request) (t : Turn) (s : State) (hr : 0 < r.limitRate)
    (hsend : Obedient conf t.send) (hnow : r.startSec ≤ t.now)
    (hrange : -2^63 ≤ s.connection.sent ∧ s.connection.sent < 2^63)
    (hs : s.connection.sent ≤
      r.limitRate*(t.now-r.startSec+1)+conf.limitRateAfter+conf.pagesize) :
    Limited conf r ⟨t,s,ngxHttpWriteFilter conf r t s⟩ ∧
      -2^63 ≤ (ngxHttpWriteFilter conf r t s).state.connection.sent ∧
      (ngxHttpWriteFilter conf r t s).state.connection.sent < 2^63 := by
  rcases write_filter_cases conf r t s with ⟨hl,hg,hsent,ht⟩ | ⟨hd,out,ho⟩
  · have hnone : ∀ limit, (ngxHttpWriteFilter conf r t s).limit ≠ some limit := fun limit h => by
      rw [hl] at h
      cases h
    exact ⟨⟨by rw [hsent]; exact hs,fun limit h => absurd h (hnone limit),
      fun _ _ _ => ⟨hg,hsent⟩,fun _ => ⟨hg,hsent⟩,fun _ => ht,
      fun limit h => absurd h (hnone limit),fun limit h => absurd h (hnone limit)⟩,
      by rw [hsent]; exact hrange⟩
  rw [ho]
  rcases output_cases conf r t { s with out := out } hr with
    ⟨hneg,hl,hg,hsent,ht⟩ | ⟨given,hpos,hle,ho⟩
  · have heq : ∀ limit, (output conf r t { s with out := out }).limit = some limit →
        limit = offT (allowance conf r t.now s.connection.sent) := fun limit h =>
      Option.some.inj (h.symm.trans hl)
    refine ⟨⟨by rw [hsent]; exact hs,heq,fun _ _ _ => ⟨hg,hsent⟩,fun _ => ⟨hg,hsent⟩,?_,?_,?_⟩,
      by rw [hsent]; exact hrange⟩
    · intro h
      exact absurd (hl.symm.trans h) nofun
    · intro limit h hlimit
      obtain rfl := heq limit h
      exact ⟨_,ht,armed_of r _ 1 _ (by omega) le_rfl rfl⟩
    · intro limit h hlimit
      obtain rfl := heq limit h
      exact absurd hneg (not_le.mpr hlimit)
  · exact send_limited conf r t s out given hr hsend hnow hrange hd hpos hle _ ho

theorem trace_limited (conf : Conf) (r : Request) (hr : 0 < r.limitRate) (last : ℤ)
    (hlast : r.startSec ≤ last) (s : State) (turns : List Turn)
    (htime : (last::turns.map (·.now)).Pairwise (· ≤ ·))
    (hsend : ∀ t ∈ turns, Obedient conf t.send)
    (hrange : -2^63 ≤ s.connection.sent ∧ s.connection.sent < 2^63)
    (hs : s.connection.sent ≤
      r.limitRate*(last-r.startSec+1)+conf.limitRateAfter+conf.pagesize) :
    ∀ e ∈ trace conf r s turns, Limited conf r e := by
  induction turns generalizing last s with
  | nil => exact fun e he => by cases he
  | cons t ts ih =>
    rw [List.map_cons, List.pairwise_cons] at htime
    have hnow : last ≤ t.now := htime.1 t.now (by simp)
    have hmore : (r.limitRate : ℤ)*(last-r.startSec+1) ≤ r.limitRate*(t.now-r.startSec+1) :=
      mul_le_mul_of_nonneg_left (by omega) (by omega)
    have hcall := call_limited conf r t (t.found s) hr (hsend t (by simp)) (by omega)
      hrange (by change s.connection.sent ≤ _; omega)
    intro e he
    rw [trace, List.mem_cons] at he
    rcases he with rfl | he
    · exact hcall.1
    · exact ih t.now (by omega) _ htime.2 (fun t' h' => hsend t' (by simp [h'])) hcall.2
        hcall.1.bound e he

/-- Whatever is sent within the limits, the response stays within its rate, and a page. -/
theorem rate_limited (conf : Conf) (r : Request) (hr : 0 < r.limitRate) (s : State)
    (h0 : s.connection.sent = 0) (turns : List Turn)
    (htime : (r.startSec::turns.map (·.now)).Pairwise (· ≤ ·))
    (hsend : ∀ t ∈ turns, Obedient conf t.send) :
    ∀ e ∈ trace conf r s turns, Limited conf r e := by
  refine trace_limited conf r hr r.startSec le_rfl s turns htime hsend (by omega) ?_
  have : 0 ≤ (r.limitRate : ℤ)*(r.startSec-r.startSec+1) := mul_nonneg (by omega) (by omega)
  omega

def steady : List Turn :=
  [⟨5,[⟨3000,false,true,false,false,true,false⟩],1,false,false,true,false,false,[],
      false,fun out limit => ⟨limit,some out,true,false⟩⟩,
    ⟨6,[],0,false,false,true,true,false,[⟨2000,false,true,false,false,true,false⟩],
      false,fun _ limit => ⟨limit,some [],true,false⟩⟩]

theorem rate_limited_steady : steady.length = 2 ∧
    ∀ e ∈ trace ⟨0,0,0,4096,by decide,by decide⟩ ⟨1000,5⟩
        ⟨⟨false,0,false,true,false,false⟩,[],false⟩ steady,
      Limited ⟨0,0,0,4096,by decide,by decide⟩ ⟨1000,5⟩ e := by
  refine ⟨rfl,rate_limited _ _ (by decide) _ rfl steady (by decide) ?_⟩
  intro t ht out limit hl
  rcases List.mem_cons.mp ht with rfl | ht
  · exact ⟨hl.le,by simp⟩
  rw [List.mem_singleton] at ht
  subst ht
  exact ⟨hl.le,by simp⟩

end Nginx.WriteFilterLaw
