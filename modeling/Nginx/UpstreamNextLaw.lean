import Nginx.UpstreamNext

/-!
# One response for a request

Once the header of a response is sent, its body is all that read events bring. A write timer that
is still set then, or a handshake that has not begun, is what can ask another upstream.
-/

set_option autoImplicit false

namespace Nginx.UpstreamNextLaw
open UpstreamNext

def OneUpstream (s : State) : Prop := true ∉ s.connects

/-- Where the handler of write events can send the request, the write timer has not expired. -/
def Clean (s : State) : Prop :=
  ∀ c, s.connection = some c → s.writeHandler = .sendRequestHandler → c.writeTimedout = false

structure Inv (s : State) : Prop where
  one : OneUpstream s
  clean : Clean s
  body : s.headerSent = true → s.finalized = false →
    s.readHandler ≠ .processHeader ∧ ∀ c, s.connection = some c → c.ssl ≠ .handshaking

structure Before (s : State) : Prop where
  header : s.headerSent = false
  one : OneUpstream s
  clean : Clean s

theorem before_inv {s : State} (h : Before s) : Inv s :=
  ⟨h.one,h.clean,fun hs => by rw [h.header] at hs; cases hs⟩

theorem finalized_inv {s : State} (h : OneUpstream s) : Inv (finalizeRequest s) :=
  ⟨h,nofun,nofun⟩

section Calls

variable {conf : Conf} {connect : State → Option State} {s s' : State} {c : Conn}

def Connects (connect : State → Option State) : Prop :=
  ∀ s, s.headerSent = false → OneUpstream s → ∀ s', connect s = some s' → Inv s'

theorem next_inv (hc : Connects connect) {a : NextAnswer} {ft : FtType}
    (hh : s.headerSent = false) (ho : OneUpstream s)
    (hs : upstreamNext conf connect a ft s = some s') : Inv s' := by
  rw [upstreamNext] at hs
  by_cases hgives : givesUp conf a ft s = true
  · rw [if_pos hgives] at hs
    obtain rfl := Option.some.inj hs
    exact finalized_inv ho
  · rw [if_neg hgives] at hs
    exact hc _ (by exact hh) (by exact ho) s' hs

theorem send_response_inv {a : Response} (h : Before s)
    (hssl : ∀ c, s.connection = some c → c.ssl ≠ .handshaking) :
    Inv (sendResponse conf a s) := by
  rw [sendResponse]
  by_cases hends : a.headerEnds = true
  · rw [if_pos hends]
    exact finalized_inv h.one
  rw [if_neg hends]
  by_cases hgoes : a.goesOn = true
  · refine (if_pos hgoes).symm ▸ ⟨h.one,h.clean,fun _ _ => ⟨?_,hssl⟩⟩
    show (if conf.buffering then ReadHandler.processUpstream else _) ≠ _
    split_ifs <;> exact ReadHandler.noConfusion
  · exact (if_neg hgoes).symm ▸ finalized_inv h.one

theorem process_header_inv (hc : Connects connect) {a : HeaderAnswer} (h : Before s)
    (hssl : ∀ c, s.connection = some c → c.ssl ≠ .handshaking)
    (hs : processHeader conf connect a c s = some s') : Inv s' := by
  rw [processHeader] at hs
  split_ifs at hs with htimedout htest halloc
  · exact next_inv hc h.header h.one hs
  · exact next_inv hc h.header h.one hs
  · obtain rfl := Option.some.inj hs
    exact finalized_inv h.one
  · cases hread : a.read with
    | again handled =>
      rw [hread] at hs
      obtain rfl := Option.some.inj hs
      cases handled with
      | false => exact finalized_inv h.one
      | true => exact before_inv h
    | closed =>
      rw [hread] at hs
      exact next_inv hc h.header h.one hs
    | invalidHeader =>
      rw [hread] at hs
      exact next_inv hc h.header h.one hs
    | error =>
      rw [hread] at hs
      obtain rfl := Option.some.inj hs
      exact finalized_inv h.one
    | ok r =>
      rw [hread] at hs
      simp only at hs
      cases htest : (if r.status > 300 then testNext conf s r.status else none) with
      | some ft =>
        rw [htest] at hs
        exact next_inv hc h.header h.one hs
      | none =>
        rw [htest] at hs
        simp only at hs
        split_ifs at hs with hhandled hmemory hgoes
        · obtain rfl := Option.some.inj hs
          exact finalized_inv h.one
        · obtain rfl := Option.some.inj hs
          exact before_inv ⟨h.header,h.one,h.clean⟩
        · obtain rfl := Option.some.inj hs
          exact finalized_inv h.one
        · obtain rfl := Option.some.inj hs
          exact send_response_inv h hssl

theorem before_connection (h : Before s) (hs : s.connection = some c) {c' : Conn}
    (hc : c'.writeTimedout = c.writeTimedout) : Before { s with connection := some c' } := by
  refine ⟨h.header,h.one,fun x hx hw => ?_⟩
  obtain rfl := Option.some.inj hx
  rw [hc]
  exact h.clean c hs hw

theorem send_request_inv (hc : Connects connect) {a : SendAnswer} (h : Before s)
    (hconn : s.connection = some c) (hssl : c.ssl ≠ .handshaking)
    (hs : sendRequest conf connect a c s = some s') : Inv s' := by
  rw [sendRequest] at hs
  have hsent : Before { s with requestSent := true } := ⟨h.header,h.one,h.clean⟩
  by_cases htest : (!s.requestSent && !a.testConnect) = true
  · rw [if_pos htest] at hs
    exact next_inv hc h.header h.one hs
  rw [if_neg htest] at hs
  cases houtput : a.output with
  | error =>
    rw [houtput] at hs
    exact next_inv hc hsent.header hsent.one hs
  | again =>
    rw [houtput] at hs
    simp only at hs
    have hwait : Before { s with
        requestSent := true, connection := some { c with writeTimer := true } } :=
      before_connection hsent hconn rfl
    split_ifs at hs with hhandled
    · obtain rfl := Option.some.inj hs
      exact before_inv hwait
    · obtain rfl := Option.some.inj hs
      exact finalized_inv hwait.one
  | ok =>
    rw [houtput] at hs
    simp only at hs
    have hready : Before { s with
        requestSent := true
        connection := some { c with writeTimer := false, readTimer := true } } :=
      before_connection hsent hconn rfl
    split_ifs at hs with hpush hread hhandled
    · obtain rfl := Option.some.inj hs
      exact finalized_inv h.one
    · exact process_header_inv hc hready (fun x hx => by cases hx; exact hssl) hs
    · obtain rfl := Option.some.inj hs
      exact before_inv ⟨h.header,h.one,fun _ _ => nofun⟩
    · obtain rfl := Option.some.inj hs
      exact finalized_inv h.one

theorem ssl_handshake_inv (hc : Connects connect) {rc : HandshakeRc} {a : SendAnswer}
    (h : Before s) (hconn : s.connection = some c)
    (hs : sslHandshake conf connect rc a c s = some s') : Inv s' := by
  cases rc with
  | again =>
    rw [sslHandshake] at hs
    obtain rfl := Option.some.inj hs
    exact before_inv (before_connection h hconn rfl)
  | done =>
    have hdone : Before { s with connection := some { c with ssl := .done } } :=
      before_connection h hconn rfl
    rw [sslHandshake] at hs
    exact send_request_inv hc hdone rfl Ssl.noConfusion hs
  | error =>
    rw [sslHandshake] at hs
    exact next_inv hc h.header h.one hs

theorem ssl_init_inv (hc : Connects connect) {a : SslAnswer} (h : Before s)
    (hconn : s.connection = some c) (hs : sslInitConnection conf connect a c s = some s') :
    Inv s' := by
  rw [sslInitConnection] at hs
  split_ifs at hs with hcreate
  · obtain rfl := Option.some.inj hs
    exact finalized_inv h.one
  · exact ssl_handshake_inv hc h hconn hs

theorem one_more {s : State} (h : OneUpstream s) (hs : s.headerSent = false) :
    true ∉ s.connects++[s.headerSent] := by
  rw [hs, List.mem_append, List.mem_singleton, not_or]
  exact ⟨h,Bool.noConfusion⟩

theorem connected_inv (hc : Connects connect) {a : Attempt} (hh : s.headerSent = false)
    (ho : OneUpstream s) (hs : connected conf connect a s = some s') : Inv s' := by
  have hnew : ∀ d : Conn, d.writeTimedout = false → Before { s with
      connection := some d
      writeHandler := .sendRequestHandler, readHandler := .processHeader
      requestSent := false } := fun d hd => ⟨hh,ho,fun x hx _ => by cases hx; exact hd⟩
  have hssl : (if a.sslDone then Ssl.done else Ssl.none) ≠ .handshaking := by
    cases a.sslDone <;> exact Ssl.noConfusion
  rw [connected] at hs
  simp only at hs
  generalize (if a.sslDone then Ssl.done else Ssl.none) = ssl at hssl hs
  split_ifs at hs with hreinit halloc hagain hinit
  · obtain rfl := Option.some.inj hs
    exact finalized_inv ho
  · obtain rfl := Option.some.inj hs
    exact finalized_inv ho
  · obtain rfl := Option.some.inj hs
    exact before_inv (hnew _ rfl)
  · exact ssl_init_inv hc (hnew _ rfl) rfl hs
  · exact send_request_inv hc (hnew _ rfl) rfl hssl hs

theorem connect_inv (conf : Conf) (attempts : List Attempt) :
    Connects (upstreamConnect conf attempts) := by
  induction attempts with
  | nil => exact fun _ _ _ _ hs => by cases hs
  | cons a attempts ih =>
    intro s hheader hone s' hs
    have hmore := one_more hone hheader
    rw [upstreamConnect] at hs
    simp only at hs
    by_cases halloc : (!a.stateAlloc) = true
    · rw [if_pos halloc] at hs
      obtain rfl := Option.some.inj hs
      exact finalized_inv hmore
    rw [if_neg halloc] at hs
    cases hrc : a.rc with
    | error =>
      rw [hrc] at hs
      obtain rfl := Option.some.inj hs
      exact finalized_inv hmore
    | busy =>
      rw [hrc] at hs
      exact next_inv ih (by exact hheader) (by exact hmore) hs
    | declined =>
      rw [hrc] at hs
      exact next_inv ih (by exact hheader) (by exact hmore) hs
    | ok =>
      rw [hrc] at hs
      exact connected_inv ih (by exact hheader) (by exact hmore) hs
    | again =>
      rw [hrc] at hs
      exact connected_inv ih (by exact hheader) (by exact hmore) hs

end Calls

/-! Events -/

/-- Behind the header a write event does not reach what asks another upstream: a write timer that
expires is not that of the request, or no other upstream is asked then, and the handshake has
begun. -/
def Timely (conf : Conf) (s : State) : Event → Prop
  | .write timeout a => s.headerSent = true → s.writeHandler = .sendRequestHandler →
      (timeout = true → givesUp conf a.send.next .timeout s = true) ∧
        (conf.ssl = true → ∀ c, s.connection = some c → c.ssl ≠ .none)
  | _ => True

section Events

variable {conf : Conf} {connect : State → Option State} {s s' : State} {c : Conn}

theorem send_request_handler_before (hc : Connects connect) {a : SslAnswer} (h : Before s)
    (hconn : s.connection = some c) (hssl : c.ssl ≠ .handshaking)
    (hs : sendRequestHandler conf connect a c s = some s') : Inv s' := by
  rw [sendRequestHandler] at hs
  split_ifs at hs with htimedout hinit hsent
  · exact next_inv hc h.header h.one hs
  · exact ssl_init_inv hc h hconn hs
  · rw [h.header] at hsent
    cases hsent
  · exact send_request_inv hc h hconn hssl hs

theorem send_request_handler_behind {a : SslAnswer} (h : Inv s) (hf : s.finalized = false)
    (hsent : s.headerSent = true)
    (htimeout : c.writeTimedout = true → givesUp conf a.send.next .timeout s = true)
    (hinit : conf.ssl = true → c.ssl ≠ .none)
    (hs : sendRequestHandler conf connect a c s = some s') : Inv s' := by
  rw [sendRequestHandler] at hs
  by_cases htimedout : c.writeTimedout = true
  · rw [if_pos htimedout, upstreamNext, if_pos (htimeout htimedout)] at hs
    obtain rfl := Option.some.inj hs
    exact finalized_inv h.one
  have hbegun : ¬(conf.ssl && c.ssl = .none) = true := fun hn => by
    rw [Bool.and_eq_true, decide_eq_true_eq] at hn
    exact hinit hn.1 hn.2
  rw [if_neg htimedout, if_neg hbegun, if_pos hsent] at hs
  obtain rfl := Option.some.inj hs
  exact ⟨h.one,fun _ _ hw => WriteHandler.noConfusion hw,fun _ _ => h.body hsent hf⟩

theorem inv_before (h : Inv s) (hh : s.headerSent = false) : Before s := ⟨hh,h.one,h.clean⟩

theorem before_body (h : Inv s) (hf : s.finalized = false)
    (hb : s.readHandler = .processHeader ∨ ∃ c, s.connection = some c ∧ c.ssl = .handshaking) :
    Before s := by
  refine inv_before h (Bool.eq_false_iff.mpr fun hsent => ?_)
  have hbody := h.body hsent hf
  rcases hb with hread|⟨c,hconn,hssl⟩
  · exact hbody.1 hread
  · exact hbody.2 c hconn hssl

theorem inv_connection (h : Inv s) (hconn : s.connection = some c) {d : Conn}
    (ht : d.writeTimedout = c.writeTimedout) (hssl : d.ssl = c.ssl) :
    Inv { s with connection := some d } := by
  refine ⟨h.one,fun x hx hw => ?_,fun hsent hf => ⟨(h.body hsent hf).1,fun x hx => ?_⟩⟩
  · obtain rfl := Option.some.inj hx
    rw [ht]
    exact h.clean c hconn hw
  · obtain rfl := Option.some.inj hx
    rw [hssl]
    exact (h.body hsent hf).2 c hconn

theorem write_ready_inv (hc : Connects connect) {a : SslAnswer} (h : Inv s)
    (hf : s.finalized = false) (ht : Timely conf s (.write false a))
    (hconn : s.connection = some c) (hs : writeEvent conf connect a c s = some s') : Inv s' := by
  rw [writeEvent] at hs
  by_cases hssl : c.ssl = .handshaking
  · rw [if_pos hssl] at hs
    exact ssl_handshake_inv hc (before_body h hf (Or.inr ⟨c,hconn,hssl⟩)) hconn hs
  rw [if_neg hssl] at hs
  cases hwrite : s.writeHandler with
  | dummyHandler =>
    rw [hwrite] at hs
    obtain rfl := Option.some.inj hs
    exact h
  | sendRequestHandler =>
    rw [hwrite] at hs
    cases hsent : s.headerSent with
    | false => exact send_request_handler_before hc (inv_before h hsent) hconn hssl hs
    | true =>
      refine send_request_handler_behind h hf hsent (fun htimedout => ?_)
        (fun hconf => (ht hsent hwrite).2 hconf c hconn) hs
      rw [h.clean c hconn hwrite] at htimedout
      cases htimedout

theorem write_timeout_inv (hc : Connects connect) {a : SslAnswer} (h : Inv s)
    (hf : s.finalized = false) (ht : Timely conf s (.write true a))
    (hconn : s.connection = some c) {d : Conn} (hd : d.ssl = c.ssl) (hd' : d.writeTimedout = true)
    (hs : writeEvent conf connect a d { s with connection := some d } = some s') : Inv s' := by
  rw [writeEvent, hd'] at hs
  by_cases hssl : d.ssl = .handshaking
  · have hb := before_body h hf (Or.inr ⟨c,hconn,by rw [← hd, hssl]⟩)
    rw [if_pos hssl] at hs
    exact next_inv hc (by exact hb.header) (by exact h.one) hs
  rw [if_neg hssl] at hs
  cases hwrite : s.writeHandler with
  | dummyHandler =>
    simp only [hwrite] at hs
    obtain rfl := Option.some.inj hs
    refine ⟨h.one,fun _ _ hw => WriteHandler.noConfusion hw,fun hsent _ =>
      ⟨(h.body hsent hf).1,fun x hx => ?_⟩⟩
    obtain rfl := Option.some.inj hx
    exact hssl
  | sendRequestHandler =>
    simp only [hwrite] at hs
    rw [sendRequestHandler, if_pos hd'] at hs
    cases hsent : s.headerSent with
    | false => exact next_inv hc (by exact hsent) (by exact h.one) hs
    | true =>
      have hgives := (ht hsent hwrite).1 rfl
      rw [upstreamNext, if_pos (by exact hgives)] at hs
      obtain rfl := Option.some.inj hs
      exact finalized_inv h.one

theorem read_event_inv (hc : Connects connect) {a : HeaderAnswer} {goesOn readTimer : Bool}
    {a' : SslAnswer} (h : Inv s) (hf : s.finalized = false) (hconn : s.connection = some c)
    (hs : readEvent conf connect a goesOn readTimer a' c s = some s') : Inv s' := by
  have hbody : Inv (if goesOn then { s with connection := some { c with readTimer := readTimer } }
      else finalizeRequest s) := by
    cases goesOn with
    | true => exact inv_connection h hconn rfl rfl
    | false => exact finalized_inv h.one
  rw [readEvent] at hs
  by_cases hssl : c.ssl = .handshaking
  · rw [if_pos hssl] at hs
    exact ssl_handshake_inv hc (before_body h hf (Or.inr ⟨c,hconn,hssl⟩)) hconn hs
  rw [if_neg hssl] at hs
  cases hread : s.readHandler with
  | processHeader =>
    rw [hread] at hs
    refine process_header_inv hc (before_body h hf (Or.inl hread)) (fun x hx => ?_) hs
    rw [hconn] at hx
    obtain rfl := Option.some.inj hx
    exact hssl
  | processBodyInMemory =>
    rw [hread] at hs hbody
    exact Option.some.inj hs ▸ hbody
  | processNonBufferedUpstream =>
    rw [hread] at hs hbody
    exact Option.some.inj hs ▸ hbody
  | processUpstream =>
    rw [hread] at hs hbody
    exact Option.some.inj hs ▸ hbody

end Events

theorem event_inv {conf : Conf} {attempts : List Attempt} {e : Event} {s s' : State} (h : Inv s)
    (hf : s.finalized = false) (ht : Timely conf s e)
    (hs : upstreamEvent conf attempts e s = some s') : Inv s' := by
  have hc := connect_inv conf attempts
  cases hconn : s.connection with
  | none => cases e <;> simp only [upstreamEvent, hconn, reduceCtorEq] at hs
  | some c =>
    have hself : { s with connection := some c } = s := by rw [← hconn]
    cases e with
    | client goesOn =>
      simp only [upstreamEvent, hconn] at hs
      obtain rfl := Option.some.inj hs
      cases goesOn with
      | true => exact h
      | false => exact finalized_inv h.one
    | write timeout a =>
      simp only [upstreamEvent, hconn] at hs
      split_ifs at hs with hset htimeout
      · subst htimeout
        refine write_timeout_inv hc h hf ht hconn ?_ ?_ hs <;> rfl
      · obtain rfl := Bool.eq_false_iff.mpr htimeout
        rw [hself] at hs
        exact write_ready_inv hc h hf ht hconn hs
    | read timeout a goesOn readTimer a' =>
      simp only [upstreamEvent, hconn] at hs
      split_ifs at hs with hset htimeout
      · refine read_event_inv hc (inv_connection h hconn ?_ ?_) hf rfl hs <;> rfl
      · exact read_event_inv hc (inv_connection h hconn rfl rfl) hf rfl hs

structure Fresh (s : State) : Prop where
  connection : s.connection = none
  headerSent : s.headerSent = false
  connects : s.connects = []

/-- The states of one request whose events all meet a condition; the first is what the first call
of `ngx_http_upstream_connect` leaves. -/
inductive Reached (conf : Conf) (cond : State → Event → Prop) : State → Prop where
  | connect (attempts : List Attempt) (s₀ s : State) (fresh : Fresh s₀)
      (hs : upstreamConnect conf attempts s₀ = some s) : Reached conf cond s
  | event (attempts : List Attempt) (e : Event) (s s' : State) (h : Reached conf cond s)
      (hf : s.finalized = false) (hcond : cond s e)
      (hs : upstreamEvent conf attempts e s = some s') : Reached conf cond s'

theorem reached_inv {conf : Conf} {s : State} (h : Reached conf (Timely conf) s) : Inv s := by
  induction h with
  | connect attempts s₀ s fresh hs =>
    refine connect_inv conf attempts s₀ fresh.headerSent ?_ s hs
    rw [OneUpstream, fresh.connects]
    exact List.not_mem_nil
  | event attempts e s s' _ hf hcond hs ih => exact event_inv ih hf hcond hs

/-- No upstream is asked behind the header, in every run whose write events are timely. -/
theorem one_upstream {conf : Conf} {s : State} (h : Reached conf (Timely conf) s) :
    true ∉ s.connects := (reached_inv h).one

/-! An early response -/

def twoServers : Conf := ⟨false,fun ft => ft = .error ∨ ft = .timeout,true⟩

def idle : State := ⟨none,false,false,.processHeader,.dummyHandler,2,false,false,[]⟩

def earlyHeader : HeaderAnswer := ⟨true,true,.ok ⟨200,false,false,false,true⟩,⟨1,false⟩⟩

def partlySent : SslAnswer := ⟨true,true,.done,⟨true,.again,true,false,true,earlyHeader,⟨1,false⟩⟩⟩

def accepted : Attempt := ⟨true,.ok,false,false,true,true,partlySent,⟨1,false⟩⟩

def sending : State :=
  ⟨some ⟨true,false,false,false,.none⟩,true,false,.processHeader,.sendRequestHandler,2,
    false,false,[false]⟩

def responding : State :=
  { sending with headerSent := true, readHandler := .processUpstream }

theorem sending_reached (cond : State → Event → Prop) : Reached twoServers cond sending :=
  Reached.connect [accepted] idle sending ⟨rfl,rfl,rfl⟩ rfl

theorem responding_reached (cond : State → Event → Prop)
    (h : cond sending (.read false earlyHeader true true partlySent)) :
    Reached twoServers cond responding :=
  Reached.event [] _ sending responding (sending_reached cond) rfl h rfl

theorem one_upstream_early : true ∉ responding.connects :=
  one_upstream (responding_reached (Timely twoServers) trivial)

/-- The timer of the request expires behind the header. -/
theorem second_upstream :
    ∃ s, Reached twoServers (fun _ _ => True) s ∧ true ∈ s.connects := by
  refine ⟨{ sending with tries := 1, connects := [false, true] , headerSent := true },?_,by decide⟩
  exact Reached.event [accepted] (.write true partlySent) responding _
    (responding_reached _ trivial) rfl trivial rfl

end Nginx.UpstreamNextLaw
