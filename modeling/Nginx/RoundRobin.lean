import Mathlib.Data.List.Basic
import Mathlib.Logic.Function.Basic
import Mathlib.Algebra.Order.Group.Int
import Mathlib.Algebra.Order.Ring.Int

/-!
# Weighted round robin over the servers of an upstream

The peers of an upstream and their current weights are shared by all requests, and
each request has a record of the peers it has tried and of the tries it has left. The
address of a peer is its place in its list, and times are in seconds. `tries` is a
64-bit counter.
-/

set_option autoImplicit false

namespace Nginx.RoundRobin

structure Server where
  naddrs : ℕ
  weight : ℤ
  maxFails : ℕ
  failTimeout : ℤ
  down : Bool
  backup : Bool
  deriving DecidableEq

structure Peer where
  currentWeight : ℤ
  weight : ℤ
  fails : ℕ
  accessed : ℤ
  maxFails : ℕ
  failTimeout : ℤ
  down : Bool
  deriving DecidableEq, Inhabited

structure Peers where
  single : Bool
  number : ℕ
  lastCached : ℕ
  peer : ℕ → Peer

def Peers.set (peers : Peers) (i : ℕ) (peer : Peer) : Peers :=
  { peers with peer := Function.update peers.peer i peer }

structure Upstream where
  peers : Peers
  next : Option Peers

/-- The data of a request: `onBackup` says that `rrp->peers` are the backup servers,
`tries` is `pc->tries`, and `hash`, `addr` and `hashTries` belong to `ip_hash`. -/
structure Request where
  onBackup : Bool
  current : ℕ
  tried : ℕ → Bool
  tries : ℕ
  hash : ℕ
  addr : List ℕ
  hashTries : ℕ

/-- `NGX_PEER_FAILED` and `NGX_PEER_NEXT` are bits of the state given to `free`. -/
structure FreeState where
  failed : Bool
  next : Bool

inductive Rc where
  | ok
  | busy
  deriving DecidableEq, Repr

def ngxHttpUpstreamCmpServers (first second : Peer) : Bool := first.weight < second.weight

/-- The inner loop of `ngx_sort`, on the peers before the place, the nearest first. -/
@[grind =] def sortPlace (p : Peer) : List Peer → List Peer
  | [] => [p]
  | q::qs => if ngxHttpUpstreamCmpServers q p then q::sortPlace p qs else p::q::qs

def ngxSort (peers : List Peer) : List Peer :=
  (peers.foldl (fun sorted p => sortPlace p sorted) []).reverse

def primaryPeer (server : Server) : Peer :=
  let weight := if server.down then 0 else server.weight
  ⟨weight,weight,0,0,server.maxFails,server.failTimeout,server.down⟩

def backupPeer (server : Server) : Peer :=
  ⟨server.weight,server.weight,0,0,server.maxFails,server.failTimeout,server.down⟩

def peersOf (single : Bool) (peers : List Peer) : Peers :=
  ⟨single,peers.length,0,fun i => peers.getD i default⟩

def primaries (servers : List Server) : List Peer :=
  (servers.filter (fun server => !server.backup)).flatMap
    (fun server => List.replicate server.naddrs (primaryPeer server))

def backups (servers : List Server) : List Peer :=
  (servers.filter (fun server => server.backup)).flatMap
    (fun server => List.replicate server.naddrs (backupPeer server))

def ngxHttpUpstreamInitRoundRobin (servers : List Server) : Upstream :=
  let peers := ngxSort (primaries servers)
  let backup := ngxSort (backups servers)
  if backup.length = 0 then ⟨peersOf (peers.length = 1) peers,none⟩
  else ⟨peersOf false peers,some (peersOf false backup)⟩

def implicitUpstream (naddrs : ℕ) : Upstream :=
  ⟨peersOf (naddrs = 1) (List.replicate naddrs ⟨1,1,0,0,1,10,false⟩),none⟩

def ngxHttpUpstreamInitRoundRobinPeer (up : Upstream) (addr : List ℕ) : Request :=
  ⟨false,0,fun _ => false,up.peers.number,89,addr,0⟩

/-- `one * 1000 / two` in signed 64-bit arithmetic. -/
def perMille (one two : ℤ) : ℤ := Int.tdiv ((one*1000+2^63) % 2^64-2^63) two

def ahead (peers : Peers) (n i : ℕ) : Bool :=
  perMille (peers.peer n).currentWeight (peers.peer i).currentWeight >
    perMille (peers.peer n).weight (peers.peer i).weight

/-- The `while` loop of `get_peer` with so many peers behind `i`. -/
@[grind =] def scanAhead (peers : Peers) : ℕ → ℕ → ℕ → ℕ
  | 0, i, n => if (peers.peer i).currentWeight > 0 then i else n
  | k+1, i, n =>
    if (peers.peer (i+1)).currentWeight ≤ 0 then scanAhead peers k (i+1) n
    else if ahead peers n (i+1) then n
    else scanAhead peers k (i+1) (i+1)

@[grind =] def scanPeers (peers : Peers) : ℕ → Option ℕ
  | 0 => none
  | k+1 =>
    let i := peers.number-(k+1)
    if (peers.peer i).currentWeight ≤ 0 then scanPeers peers k
    else some (scanAhead peers k i i)

def resetWeights (peers : Peers) : Peers :=
  { peers with peer := fun i => { peers.peer i with currentWeight := (peers.peer i).weight } }

def ngxHttpUpstreamGetPeer (peers : Peers) : ℕ × Peers :=
  match scanPeers peers peers.number with
  | some n => (n, peers)
  | none =>
    let peers := resetWeights peers
    match scanPeers peers peers.number with
    | some n => (n, peers)
    | none => (0, peers)

def decr (x : ℕ) : ℕ := if x = 0 then 2^64-1 else x-1

/-- What both loops do with the current peer. The answer says whether they end. -/
def look (now : ℤ) (peers : Peers) (r : Request) : Bool × Peers × Request :=
  let peer := peers.peer r.current
  if r.tried r.current then (false, peers, r)
  else if peer.down then
    (false, peers, { r with tried := Function.update r.tried r.current true, tries := decr r.tries })
  else if peer.maxFails = 0 ∨ peer.fails < peer.maxFails then (true, peers, r)
  else if now-peer.accessed > peer.failTimeout then
    (true, peers.set r.current { peer with fails := 0 }, r)
  else (false, peers.set r.current { peer with currentWeight := 0 }, { r with tries := decr r.tries })

/-- The loop of a first try with the counter `i`. -/
@[grind =] def firstLoop (now : ℤ) : ℕ → Peers → Request → Bool × Peers × Request
  | 0, peers, r => (false, peers, r)
  | i+1, peers, r =>
    let (current, peers) := ngxHttpUpstreamGetPeer peers
    let (found, peers, r) := look now peers { r with current := current }
    if found then (true, peers, r)
    else if r.tries = 0 then (false, peers, r)
    else firstLoop now i peers r

/-- The loop of a later try with the counter `i`. -/
@[grind =] def nextLoop (now : ℤ) : ℕ → Peers → Request → Bool × Peers × Request
  | 0, peers, r => (false, peers, r)
  | i+1, peers, r =>
    let (found, peers, r) := look now peers r
    if found then (true, peers, r)
    else
      let r := { r with current := if r.current+1 ≥ peers.number then 0 else r.current+1 }
      if r.tries = 0 then (false, peers, r)
      else nextLoop now i peers r

/-- The rounds of a loop that ends when `--i == 0`. -/
def rounds (i : ℕ) : ℕ := if i = 0 then 2^64 else i

def clearTried (number : ℕ) (r : Request) : Request :=
  { r with tried := fun i => if i < 64*(number/64+1) then false else r.tried i }

def searchPeers (now : ℤ) (peers : Peers) (r : Request) : Bool × Peers × Request :=
  if r.tries = peers.number then firstLoop now (rounds r.tries) peers r
  else nextLoop now (rounds r.tries) peers r

def addBackup (next : Option Peers) (r : Request) : Request :=
  match next with
  | some backup =>
    if r.tries = 1 then
      clearTried backup.number { r with tries := (r.tries+backup.number) % 2^64 }
    else r
  | none => r

/-- `ngx_http_upstream_get_round_robin_peer` up to the label `failed`. -/
def getFrom (now : ℤ) (peers : Peers) (next : Option Peers) (r : Request) :
    Bool × Peers × Request :=
  if peers.lastCached ≠ 0 then (true, { peers with lastCached := peers.lastCached-1 }, r)
  else if peers.single then (true, peers, addBackup next r)
  else
    let (found, peers, r) := searchPeers now peers r
    if found then
      let peer := peers.peer r.current
      (true, peers.set r.current { peer with currentWeight := peer.currentWeight-1 },
        addBackup next { r with tried := Function.update r.tried r.current true })
    else (false, peers, r)

def markLive (peers : Peers) : Peers :=
  { peers with peer := fun i => { peers.peer i with fails := 0 } }

def getLast (now : ℤ) (peers : Peers) (r : Request) : Rc × Peers × Request :=
  let (found, peers, r) := getFrom now peers none r
  if found then (.ok, peers, r) else (.busy, markLive peers, r)

def ngxHttpUpstreamGetRoundRobinPeer (now : ℤ) (up : Upstream) (r : Request) :
    Rc × Upstream × Request :=
  match up.next with
  | none =>
    let (rc, peers, r) := getLast now up.peers r
    (rc, ⟨peers,none⟩, r)
  | some backup =>
    if r.onBackup then
      let (rc, backup, r) := getLast now backup r
      (rc, ⟨up.peers,some backup⟩, r)
    else
      let (found, peers, r) := getFrom now up.peers (some backup) r
      if found then (.ok, ⟨peers,some backup⟩, r)
      else
        let r := clearTried backup.number { r with onBackup := true, tries := backup.number }
        let (rc, backup, r) := getLast now backup r
        if rc = .ok then (.ok, ⟨peers,some backup⟩, r)
        else (.busy, ⟨markLive peers,some backup⟩, r)

def Upstream.list (up : Upstream) (r : Request) : Peers :=
  if r.onBackup then up.next.getD up.peers else up.peers

def Upstream.setList (up : Upstream) (r : Request) (peers : Peers) : Upstream :=
  if r.onBackup then ⟨up.peers,some peers⟩ else { up with peers := peers }

def hashAddr (hash : ℕ) (addr : List ℕ) : ℕ :=
  addr.foldl (fun hash byte => (hash*113+byte) % 6271) hash

/-- The loop of `ip_hash` with so many rounds to go. It ends with a peer or without. -/
@[grind =] def hashLoop (now : ℤ) : ℕ → ℕ → Peers → Request → Bool × Peers × Request
  | 0, _, peers, r => (false, peers, r)
  | k+1, hash, peers, r =>
    let hash := hashAddr hash r.addr
    let p := hash % peers.number
    let peer := peers.peer p
    let picked : Request :=
      { r with current := p, tried := Function.update r.tried p true, hash := hash }
    let passed : Request :=
      { r with tried := Function.update r.tried p true, tries := decr r.tries,
               hashTries := r.hashTries+1 }
    if r.tried p then hashLoop now k hash peers { r with hashTries := r.hashTries+1 }
    else if peer.down then hashLoop now k hash peers passed
    else if peer.maxFails = 0 ∨ peer.fails < peer.maxFails then (true, peers, picked)
    else if now-peer.accessed > peer.failTimeout then
      (true, peers.set p { peer with fails := 0 }, picked)
    else hashLoop now k hash peers passed

def ngxHttpUpstreamGetIpHashPeer (now : ℤ) (up : Upstream) (r : Request) :
    Rc × Upstream × Request :=
  if r.hashTries > 20 ∨ (up.list r).single then ngxHttpUpstreamGetRoundRobinPeer now up r
  else
    let (found, peers, r) :=
      hashLoop now (if r.hashTries < 20 then 20-r.hashTries else 1) r.hash (up.list r) r
    let up := up.setList r peers
    if found then (.ok, up, r) else ngxHttpUpstreamGetRoundRobinPeer now up r

def ngxHttpUpstreamFreeRoundRobinPeer (now : ℤ) (up : Upstream) (r : Request) (state : FreeState) :
    Upstream × Request :=
  if state.failed = false ∧ state.next = false ∧ r.tries = 0 then (up, r)
  else if (up.list r).single then (up, { r with tries := 0 })
  else
    let peers := up.list r
    let peer := peers.peer r.current
    let peers :=
      if state.failed then
        let weight :=
          if peer.maxFails ≠ 0 then peer.currentWeight-peer.weight/peer.maxFails
          else peer.currentWeight
        peers.set r.current { peer with fails := peer.fails+1, accessed := now,
                                        currentWeight := if weight < 0 then 0 else weight }
      else peers
    let current := if r.current+1 ≥ peers.number then 0 else r.current+1
    (up.setList r peers, { r with current := current, tries := r.tries-1 })

end Nginx.RoundRobin
