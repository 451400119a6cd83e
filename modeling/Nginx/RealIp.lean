import Mathlib.Order.Basic
import Nginx.InetAddr

/-!
# Real client addresses

A request and its subrequests share a connection and a pool, and each has a context of its own
that an internal redirect clears. The pool keeps its cleanups with the last one in front. A
handler without a result has followed the null pointer of a missing list of networks. Allocations
succeed.
-/

set_option autoImplicit false

namespace Nginx.RealIp
open Nginx.InetAddr

/-! The code -/

inductive SockAddr where
  | inet (addr : UInt32) (port : ℕ)
  | inet6 (addr : List UInt8) (port : ℕ)
  | unix (path : List UInt8)
  deriving DecidableEq, Repr

structure Connection where
  sockaddr : SockAddr
  socklen : ℕ
  addrText : List UInt8
  deriving DecidableEq, Repr

structure From where
  mask : UInt32
  addr : UInt32
  deriving DecidableEq, Repr

inductive HeaderType where
  | xrealip
  | xfwd
  | header
  deriving DecidableEq, Repr

structure Conf where
  from' : Option (List From)
  type : HeaderType
  hash : UInt64
  header : List UInt8
  unixsock : Bool
  deriving DecidableEq, Repr

structure Header where
  hash : UInt64
  lowcaseKey : List UInt8
  value : List UInt8
  deriving DecidableEq, Repr

structure HeadersIn where
  xRealIp : Option (List UInt8)
  xForwardedFor : Option (List UInt8)
  headers : List Header
  deriving DecidableEq, Repr

@[grind =] def lastElement (value : List UInt8) : ℕ → List UInt8
  | 0 => value
  | i+1 =>
    if value[i+1]? = some 32 ∨ value[i+1]? = some 44 then value.drop (i+2)
    else lastElement value i

/-- What `ip` and `len` are at the label `found` -/
def headerText (conf : Conf) (headersIn : HeadersIn) : Option (List UInt8) :=
  match conf.type with
  | .xrealip => headersIn.xRealIp
  | .xfwd => headersIn.xForwardedFor.map fun value => lastElement value (value.length-1)
  | .header => (headersIn.headers.find? fun h =>
      h.hash = conf.hash ∧ h.lowcaseKey = conf.header).map (·.value)

/-- A cleanup without a handler is `none`. -/
structure State where
  connection : Connection
  cleanup : List (Option Connection)
  ctx : ℕ → Bool

def sockaddr : InAddr → SockAddr
  | .inet addr => .inet addr 0
  | .inet6 addr => .inet6 addr 0

def socklen : InAddr → ℕ
  | .inet _ => 16
  | .inet6 _ => 28

def ngxHttpRealipSetAddr (st : State) (r : ℕ) (ip : List UInt8) : State :=
  let ctx := Function.update st.ctx r true
  match ngxParseAddr ip with
  | none => { st with cleanup := none::st.cleanup, ctx := ctx }
  | some addr =>
    ⟨⟨sockaddr addr,socklen addr,ip⟩,some st.connection::st.cleanup,ctx⟩

def ngxHttpRealipHandler (conf : Conf) (headersIn : HeadersIn) (r : ℕ) (st : State) :
    Option State :=
  if st.ctx r then some st
  else if conf.from' = none ∧ conf.unixsock = false then some st
  else
    match headerText conf headersIn with
    | none => some st
    | some ip =>
      match st.connection.sockaddr with
      | .inet addr _ => conf.from'.map fun from' =>
          if from'.any fun f => addr &&& f.mask = f.addr then ngxHttpRealipSetAddr st r ip else st
      | .unix _ => some (if conf.unixsock then ngxHttpRealipSetAddr st r ip else st)
      | .inet6 _ _ => some st

@[grind =] def ngxHttpRealipCleanup : List (Option Connection) → Connection → Connection
  | [], c => c
  | none::cleanup, c => ngxHttpRealipCleanup cleanup c
  | some saved::cleanup, _ => ngxHttpRealipCleanup cleanup saved

/-! Runs -/

/-- The handler runs for the request or a subrequest, in any of its two phases and with the
configuration of any location; a redirect clears the contexts. -/
inductive Event where
  | handle (r : ℕ) (conf : Conf) (headersIn : HeadersIn)
  | redirect (r : ℕ)

def step (event : Event) (st : State) : Option State :=
  match event with
  | .handle r conf headersIn => ngxHttpRealipHandler conf headersIn r st
  | .redirect r => some { st with ctx := Function.update st.ctx r false }

@[grind =] def run : List Event → State → Option State
  | [], st => some st
  | event::events, st => (step event st).bind (run events)

def start (c : Connection) : State := ⟨c,[],fun _ => false⟩

@[grind =] def Every (P : Event → State → Prop) : List Event → State → Prop
  | [], _ => True
  | event::events, st => P event st ∧ ∀ st' ∈ step event st, Every P events st'

/-! What a step should do -/

def Trusted (conf : Conf) : SockAddr → Prop
  | .inet addr _ => ∃ from' ∈ conf.from', ∃ f ∈ from', addr &&& f.mask = f.addr
  | .inet6 _ _ => False
  | .unix _ => conf.unixsock = true

def Separator (c : UInt8) : Prop := c = 32 ∨ c = 44

/-- `text` is the last element of a list. -/
def IsLast (value text : List UInt8) : Prop :=
  ∃ front, value = front++text ∧ (∀ c ∈ text, ¬Separator c) ∧
    ∀ c ∈ front.getLast?, Separator c

def Says (conf : Conf) (headersIn : HeadersIn) (text : List UInt8) : Prop :=
  match conf.type with
  | .xrealip => headersIn.xRealIp = some text
  | .xfwd => ∃ value ∈ headersIn.xForwardedFor, IsLast value text
  | .header => ∃ h ∈ headersIn.headers, h.lowcaseKey = conf.header ∧ h.value = text

/-- No pointer is missing, and the address is replaced only by one that the header has, and for
a trusted peer. -/
def Obeys (event : Event) (st : State) : Prop :=
  ∃ st', step event st = some st' ∧ (st'.connection ≠ st.connection →
    match event with
    | .handle _ conf headersIn => Trusted conf st.connection.sockaddr ∧
        ∃ text addr, Says conf headersIn text ∧ ngxParseAddr text = some addr ∧
          st'.connection = ⟨sockaddr addr,socklen addr,text⟩
    | .redirect _ => False)

/-- With unix sockets alone trusted, the peer has another family than `AF_INET`, or the request
has its context, or no header. -/
def Careful (event : Event) (st : State) : Prop :=
  match event with
  | .handle r conf headersIn => conf.from' = none → conf.unixsock = true → st.ctx r = false →
      headerText conf headersIn ≠ none → ∀ addr port, st.connection.sockaddr ≠ .inet addr port
  | .redirect _ => True

/-- Requests that follow each other on one connection: every step does what it should, and a
request leaves the connection as it was. -/
@[grind =] def Sound : List (List Event) → Connection → Prop
  | [], _ => True
  | events::requests, c => Every Obeys events (start c) ∧
      ∀ st ∈ run events (start c), ngxHttpRealipCleanup st.cleanup st.connection = c ∧
        Sound requests (ngxHttpRealipCleanup st.cleanup st.connection)

@[grind =] def AllCareful : List (List Event) → Connection → Prop
  | [], _ => True
  | events::requests, c => Every Careful events (start c) ∧
      ∀ st ∈ run events (start c),
        AllCareful requests (ngxHttpRealipCleanup st.cleanup st.connection)

/-! ## The header -/

theorem last_element (value : List UInt8) (i : ℕ) :
    ∃ k, lastElement value i = value.drop k ∧
      (∀ j, k ≤ j → 0 < j → j ≤ i → ∀ c ∈ value[j]?, ¬Separator c) ∧
      (0 < k → ∃ c, value[k-1]? = some c ∧ Separator c) := by
  induction i with
  | zero => exact ⟨0,rfl,fun j _ h0 hj => by omega,fun h => by omega⟩
  | succ i ih =>
    rw [lastElement]
    split
    · rename_i h
      refine ⟨i+2,rfl,fun j hk _ hj => by omega,fun _ => ?_⟩
      rcases h with h | h
      · exact ⟨32,h,.inl rfl⟩
      · exact ⟨44,h,.inr rfl⟩
    · rename_i h
      obtain ⟨k,hdrop,hno,hsep⟩ := ih
      refine ⟨k,hdrop,fun j hk h0 hj c hc => ?_,hsep⟩
      rcases Nat.lt_or_ge i j with hij | hij
      · obtain rfl : j = i+1 := by omega
        rintro (rfl | rfl)
        · exact h (.inl hc)
        · exact h (.inr hc)
      · exact hno j hk h0 hij c hc

theorem separator_refused (c : UInt8) (t : List UInt8) (h : Separator c) :
    ngxParseAddr (c::t) = none := by
  have h32 : nibble 32 = none := by decide
  have h44 : nibble 44 = none := by decide
  rcases h with rfl | rfl
  · simp [ngxParseAddr, ngxInetAddr, inetLoop, ngxInet6Addr, inet6Loop, h32]
  · simp [ngxParseAddr, ngxInetAddr, inetLoop, ngxInet6Addr, inet6Loop, h44]

theorem parsed_last (value : List UInt8) (addr : InAddr)
    (h : ngxParseAddr (lastElement value (value.length-1)) = some addr) :
    IsLast value (lastElement value (value.length-1)) := by
  obtain ⟨k,hdrop,hno,hsep⟩ := last_element value (value.length-1)
  rw [hdrop] at h ⊢
  refine ⟨value.take k,(List.take_append_drop k value).symm,fun c hc hs => ?_,fun c hc => ?_⟩
  · obtain ⟨j,hj⟩ := List.mem_iff_getElem?.mp hc
    rw [List.getElem?_drop] at hj
    have hlen : k+j < value.length := (List.getElem?_eq_some_iff.mp hj).1
    rcases Nat.eq_zero_or_pos (k+j) with h0 | h0
    · obtain ⟨rfl,rfl⟩ : k = 0 ∧ j = 0 := by omega
      rw [List.drop_zero] at h
      rcases value with _ | ⟨d,t⟩
      · cases hlen
      cases hj
      rw [separator_refused _ t hs] at h
      cases h
    · exact hno (k+j) (by omega) h0 (by omega) c hj hs
  · rcases Nat.eq_zero_or_pos k with rfl | h0
    · cases hc
    obtain ⟨d,hd,hs⟩ := hsep h0
    have hlen : k-1 < value.length := (List.getElem?_eq_some_iff.mp hd).1
    have hk : k ≤ value.length := by omega
    rw [List.getLast?_take, if_neg (by omega), hd] at hc
    cases hc
    exact hs

theorem header_value (conf : Conf) (headersIn : HeadersIn) (text : List UInt8) (addr : InAddr)
    (htext : headerText conf headersIn = some text) (h : ngxParseAddr text = some addr) :
    Says conf headersIn text := by
  unfold headerText at htext
  unfold Says
  split at htext
  · exact htext
  · obtain ⟨value,hv,rfl⟩ := Option.map_eq_some_iff.mp htext
    exact ⟨value,hv,parsed_last value addr h⟩
  · obtain ⟨header,hfind,rfl⟩ := Option.map_eq_some_iff.mp htext
    have hsome := List.find?_some hfind
    rw [decide_eq_true_eq] at hsome
    exact ⟨header,List.mem_of_find?_eq_some hfind,hsome.2,rfl⟩

/-! ## Steps -/

theorem set_addr_sound (conf : Conf) (headersIn : HeadersIn) (st : State) (r : ℕ)
    (ip : List UInt8) (htext : headerText conf headersIn = some ip)
    (htrust : Trusted conf st.connection.sockaddr)
    (hne : (ngxHttpRealipSetAddr st r ip).connection ≠ st.connection) :
    Trusted conf st.connection.sockaddr ∧
    ∃ text addr, Says conf headersIn text ∧ ngxParseAddr text = some addr ∧
      (ngxHttpRealipSetAddr st r ip).connection = ⟨sockaddr addr,socklen addr,text⟩ := by
  unfold ngxHttpRealipSetAddr at hne ⊢
  cases h : ngxParseAddr ip with
  | none =>
    rw [h] at hne
    exact absurd rfl hne
  | some addr => exact ⟨htrust,ip,addr,header_value conf headersIn ip addr htext h,h,rfl⟩

theorem obeys_iff (event : Event) (st : State) : Obeys event st ↔ Careful event st := by
  cases event with
  | redirect r => exact iff_of_true ⟨_,rfl,fun h => h rfl⟩ trivial
  | handle r conf headersIn =>
    have hsame (h : step (.handle r conf headersIn) st = some st) :
        Obeys (.handle r conf headersIn) st := ⟨st,h,fun hne => absurd rfl hne⟩
    simp only [Careful]
    cases hctx : st.ctx r with
    | true =>
      refine iff_of_true (hsame ?_) fun _ _ hc => by cases hc
      rw [step, ngxHttpRealipHandler, if_pos hctx]
    | false =>
    by_cases hoff : conf.from' = none ∧ conf.unixsock = false
    · refine iff_of_true (hsame ?_) fun _ hu => ?_
      · rw [step, ngxHttpRealipHandler, if_neg (by simp [hctx]), if_pos hoff]
      · rw [hoff.2] at hu
        cases hu
    have hrun : step (.handle r conf headersIn) st = _ :=
      (if_neg (by simp [hctx])).trans (if_neg hoff)
    cases htext : headerText conf headersIn with
    | none =>
      rw [htext] at hrun
      exact iff_of_true (hsame hrun) fun _ _ _ hne => absurd rfl hne
    | some ip =>
    rw [htext] at hrun
    have hset (htrust : Trusted conf st.connection.sockaddr) :=
      set_addr_sound conf headersIn st r ip htext htrust
    cases hpeer : st.connection.sockaddr with
    | inet6 addr port =>
      rw [hpeer] at hrun
      exact iff_of_true (hsame hrun) fun _ _ _ _ a p he => by cases he
    | unix path =>
      rw [hpeer] at hrun hset
      refine iff_of_true ⟨_,hrun,fun hne => ?_⟩ fun _ _ _ _ a p he => by cases he
      cases hu : conf.unixsock with
      | true =>
        simp only [hu, if_true] at hne ⊢
        rw [hpeer]
        exact hset hu hne
      | false =>
        simp only [hu] at hne
        exact absurd rfl hne
    | inet addr port =>
      rw [hpeer] at hrun hset
      cases hfrom : conf.from' with
      | none =>
        rw [hfrom] at hrun
        have hu : conf.unixsock = true := by
          by_contra hf
          exact hoff ⟨hfrom,by simpa using hf⟩
        refine iff_of_false ?_ fun hcareful => ?_
        · rintro ⟨st',hst,-⟩
          rw [hrun] at hst
          cases hst
        · exact hcareful rfl hu rfl (by simp) addr port rfl
      | some from' =>
        rw [hfrom] at hrun
        refine iff_of_true ⟨_,hrun,fun hne => ?_⟩ fun hn => by cases hn
        by_cases hany : from'.any fun f => addr &&& f.mask = f.addr
        · simp only [hany, if_true] at hne ⊢
          obtain ⟨f,hf,hmatch⟩ := List.any_eq_true.mp hany
          rw [decide_eq_true_eq] at hmatch
          rw [hpeer]
          exact hset ⟨from',hfrom,f,hf,hmatch⟩ hne
        · simp only [hany] at hne
          exact absurd rfl hne

/-! ## Runs -/

theorem every_congr {P Q : Event → State → Prop} (h : ∀ event st, P event st ↔ Q event st)
    (events : List Event) (st : State) : Every P events st ↔ Every Q events st := by
  induction events generalizing st with
  | nil => rfl
  | cons event events ih => simp only [Every, h, ih]

theorem set_addr_restores (st : State) (r : ℕ) (ip : List UInt8) :
    ngxHttpRealipCleanup (ngxHttpRealipSetAddr st r ip).cleanup
        (ngxHttpRealipSetAddr st r ip).connection =
      ngxHttpRealipCleanup st.cleanup st.connection := by
  unfold ngxHttpRealipSetAddr
  cases ngxParseAddr ip <;> rfl

theorem step_restores (event : Event) (st st' : State) (h : step event st = some st') :
    ngxHttpRealipCleanup st'.cleanup st'.connection =
      ngxHttpRealipCleanup st.cleanup st.connection := by
  cases event with
  | redirect r =>
    cases h
    rfl
  | handle r conf headersIn =>
    rw [step, ngxHttpRealipHandler] at h
    split at h
    · cases h
      rfl
    split at h
    · cases h
      rfl
    split at h
    · cases h
      rfl
    split at h
    · obtain ⟨from',-,rfl⟩ := Option.map_eq_some_iff.mp h
      split
      · exact set_addr_restores st r _
      · rfl
    · cases h
      split
      · exact set_addr_restores st r _
      · rfl
    · cases h
      rfl

theorem run_restores (events : List Event) (st st' : State) (h : run events st = some st') :
    ngxHttpRealipCleanup st'.cleanup st'.connection =
      ngxHttpRealipCleanup st.cleanup st.connection := by
  induction events generalizing st with
  | nil =>
    cases h
    rfl
  | cons event events ih =>
    rw [run] at h
    obtain ⟨st1,h1,hrest⟩ := Option.bind_eq_some_iff.mp h
    rw [ih st1 hrest, step_restores event st st1 h1]

end Nginx.RealIp
