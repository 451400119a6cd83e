import Mathlib.Data.Finset.Card
import Mathlib.Data.Finset.Dedup
import Mathlib.Data.Nat.Find
import Nginx.RoundRobinTurns

/-!
# When a request finds no peer

A call answers `NGX_BUSY` although a peer is available when the peer does not get its
turn: a first try does not count a peer that it refuses as tried and meets it again
after a reset of the weights, it does not get past a peer that is down or tried, and
a later try looks at no more peers than it has tries left.
-/

set_option autoImplicit false

namespace Nginx.RoundRobinLaw
open Nginx.RoundRobin Nginx.Rotation Nginx.RoundRobinTurns

def FirstTry (now : ℤ) (peers : Peers) (tried : ℕ → Bool) : Prop :=
  Serves (Available now peers tried) (Refused now peers tried) (turns peers peers.number)

def Offered (now : ℤ) (peers : Peers) (r : Request) : Prop := peers.single = true ∨
  if r.tries = peers.number then FirstTry now peers r.tried else Near now peers r

/-- A peer gets its turn, in the list of the request or at the backup servers. -/
def Chance (now : ℤ) (up : Upstream) (r : Request) : Prop := Offered now (up.list r) r ∨
  r.onBackup = false ∧ ∃ backup, up.next = some backup ∧
    (backup.single = true ∨ FirstTry now backup (fun _ => false))

/-- Some peer is not down, not over `max_fails` and not yet tried. A request that has gone
over to the backup servers is through with the others. -/
def Choice (now : ℤ) (up : Upstream) (r : Request) : Prop :=
  (∃ i < (up.list r).number, Available now (up.list r) r.tried i) ∨
    r.onBackup = false ∧ ∃ backup, up.next = some backup ∧
      ∃ i < backup.number, Alive now (backup.peer i)

/-- The peers behind the place `i` that get a current weight from a reset. -/
def behind (peers : Peers) (i : ℕ) : List ℕ :=
  (List.range' (i+1) (peers.number-(i+1))).filter (fun j => 0 < (peers.peer j).weight)

/-- What a first try needs. No peer with a current weight is down or tried. Where all of
these are over `max_fails`, the rounds last beyond them to the last available peer, and
none of the peers that the reset puts in front of it is down or tried. -/
structure FirstSpared (now : ℤ) (peers : Peers) (tried : ℕ → Bool) : Prop where
  front : ∀ j ∈ live peers, tried j = false ∧ (peers.peer j).down = false
  reset : (∀ j ∈ live peers, ¬ Available now peers tried j) → ∀ i < peers.number,
    Available now peers tried i → (∀ j ∈ behind peers i, ¬ Available now peers tried j) →
    (live peers).length+(behind peers i).length < peers.number ∧
      ∀ j ∈ behind peers i, tried j = false ∧ (peers.peer j).down = false

/-- What a later try needs: the nearest available peer is within the rounds. The counter
of a request with no tries left starts at 0 and gets below that only by an untried peer. -/
def NextSpared (now : ℤ) (peers : Peers) (r : Request) : Prop :=
  ∀ d, Available now peers r.tried ((r.current+d) % peers.number) →
    (∀ j < d, ¬ Available now peers r.tried ((r.current+j) % peers.number)) →
    d < rounds r.tries ∧ (r.tries = 0 → r.tried r.current = false)

/-- The backup servers matter when the list of the request has no available peer. -/
structure Spared (now : ℤ) (up : Upstream) (r : Request) : Prop where
  first : (up.list r).single = false → r.tries = (up.list r).number →
    FirstSpared now (up.list r) r.tried
  later : (up.list r).single = false → r.tries ≠ (up.list r).number →
    NextSpared now (up.list r) r
  backup : r.onBackup = false →
    (∀ i < (up.list r).number, ¬ Available now (up.list r) r.tried i) →
    ∀ backup, up.next = some backup → FirstSpared now backup (fun _ => false)

/-- The places that `ip_hash` looks at in so many rounds. -/
@[grind =] def hashed (number : ℕ) (addr : List ℕ) : ℕ → ℕ → List ℕ
  | 0, _ => []
  | k+1, hash => hashAddr hash addr % number::hashed number addr k (hashAddr hash addr)

/-- The request once `ip_hash` has passed over the peers at these places: each of them that
was not tried takes one of its tries. -/
def passed (places : List ℕ) (r : Request) : Request :=
  { r with tried := fun i => r.tried i || decide (i ∈ places),
           tries := decr^[(places.toFinset.filter (fun p => r.tried p = false)).card] r.tries,
           hashTries := r.hashTries+places.length }

def HashSpared (now : ℤ) (up : Upstream) (r : Request) : Prop :=
  if r.hashTries > 20 ∨ (up.list r).single then Spared now up r
  else
    let places := hashed (up.list r).number r.addr (if r.hashTries < 20 then 20-r.hashTries else 1)
      r.hash
    (∀ p ∈ places, ¬ Available now (up.list r) r.tried p) → Spared now up (passed places r)

/-- A peer that `ip_hash` does not take. -/
@[grind =] def passOver (r : Request) (p : ℕ) : Request :=
  if r.tried p then { r with hashTries := r.hashTries+1 }
  else { r with tried := Function.update r.tried p true, tries := decr r.tries,
                hashTries := r.hashTries+1 }

def HashChance (now : ℤ) (up : Upstream) (r : Request) : Prop :=
  if r.hashTries > 20 ∨ (up.list r).single then Chance now up r
  else
    let places := hashed (up.list r).number r.addr (if r.hashTries < 20 then 20-r.hashTries else 1)
      r.hash
    (∃ p ∈ places, Available now (up.list r) r.tried p) ∨
      Chance now up (places.foldl passOver r)

structure State where
  up : Upstream
  requests : ℕ → Option Request

def State.put (s : State) (k : ℕ) (up : Upstream) (r : Request) : State :=
  ⟨up,Function.update s.requests k (some r)⟩

inductive Call where
  | start (addr : List ℕ)
  | get (now : ℤ)
  | getIpHash (now : ℤ)
  | free (now : ℤ) (state : FreeState)

/-- A call of the request `k`, which does nothing before the request has started. -/
def State.call (s : State) (k : ℕ) (c : Call) : State :=
  match c, s.requests k with
  | .start addr, _ => s.put k s.up (ngxHttpUpstreamInitRoundRobinPeer s.up addr)
  | .get now, some r =>
    let out := ngxHttpUpstreamGetRoundRobinPeer now s.up r
    s.put k out.2.1 out.2.2
  | .getIpHash now, some r =>
    let out := ngxHttpUpstreamGetIpHashPeer now s.up r
    s.put k out.2.1 out.2.2
  | .free now state, some r =>
    let out := ngxHttpUpstreamFreeRoundRobinPeer now s.up r state
    s.put k out.1 out.2
  | _, none => s

/-- Any number of requests make their calls in any order and at any times. -/
inductive Reached : State → Prop where
  | init (servers : List Server) (hweight : ∀ server ∈ servers, 0 < server.weight)
      (hserver : primaries servers ≠ []) :
      Reached ⟨ngxHttpUpstreamInitRoundRobin servers,fun _ => none⟩
  | implicit (naddrs : ℕ) (h : 0 < naddrs) : Reached ⟨implicitUpstream naddrs,fun _ => none⟩
  | call (s : State) (k : ℕ) (c : Call) (h : Reached s) : Reached (s.call k c)

/-- A search in a list changes none of its servers and stays in the list. -/
structure Searched (peers : Peers) (r : Request) (out : Bool × Peers × Request) : Prop where
  servers : SameServers peers out.2.1
  current : out.2.2.current < peers.number
  onBackup : out.2.2.onBackup = r.onBackup

section Search
variable (now : ℤ) (peers : Peers) (r : Request)

theorem servers_refl : SameServers peers peers := ⟨rfl,rfl,rfl,fun _ => rfl,fun _ => rfl⟩

theorem look_searched (hc : r.current < peers.number) : Searched peers r (look now peers r) := by
  rw [look]
  split_ifs
  · exact ⟨servers_refl peers,hc,rfl⟩
  · exact ⟨servers_refl peers,hc,rfl⟩
  · exact ⟨servers_refl peers,hc,rfl⟩
  · exact ⟨servers_set peers _ _ rfl rfl,hc,rfl⟩
  · exact ⟨servers_set peers _ _ rfl rfl,hc,rfl⟩

theorem get_peer_place (h : 0 < peers.number) : (ngxHttpUpstreamGetPeer peers).1 < peers.number ∧
    SameServers peers (ngxHttpUpstreamGetPeer peers).2 := by
  have hlt : ∀ peers' n rest, peers'.number = peers.number → live peers' = n::rest →
      front (ahead peers') n rest < peers.number := by
    intro peers' n rest hnumber hlive
    have hmem := front_mem (ahead peers') n rest
    rw [← hlive, live, liveFrom, hnumber] at hmem
    have hrange := (List.mem_range'_1.mp (List.mem_filter.mp hmem).1).2
    rwa [Nat.zero_add] at hrange
  cases hlive : live peers with
  | cons n rest =>
    rw [get_peer_live peers n rest hlive]
    exact ⟨hlt peers n rest rfl hlive,servers_refl peers⟩
  | nil =>
    rw [get_peer_reset peers hlive]
    refine ⟨?_,(same_reset peers).toSameServers⟩
    cases hall : live (resetWeights peers) with
    | nil => exact h
    | cons n rest => exact hlt (resetWeights peers) n rest rfl hall

theorem first_loop_searched (k : ℕ) (hc : r.current < peers.number) :
    Searched peers r (firstLoop now k peers r) := by
  induction k generalizing peers r with
  | zero => exact ⟨servers_refl peers,hc,rfl⟩
  | succ k ih =>
    obtain ⟨hp,hsame⟩ := get_peer_place peers (Nat.zero_lt_of_lt hc)
    have hp' : (ngxHttpUpstreamGetPeer peers).1 < (ngxHttpUpstreamGetPeer peers).2.number := by
      rw [hsame.number]
      exact hp
    obtain ⟨hservers,hcurrent,hbackup⟩ := look_searched now (ngxHttpUpstreamGetPeer peers).2
      { r with current := (ngxHttpUpstreamGetPeer peers).1 } hp'
    have hall := servers_trans _ _ _ hsame hservers
    rw [hsame.number] at hcurrent
    simp only [firstLoop]
    split_ifs
    · exact ⟨hall,hcurrent,hbackup⟩
    · exact ⟨hall,hcurrent,hbackup⟩
    · obtain ⟨hrest,hcurrent',hbackup'⟩ := ih _ _ (by rw [hall.number]; exact hcurrent)
      rw [hall.number] at hcurrent'
      exact ⟨servers_trans _ _ _ hall hrest,hcurrent',hbackup'.trans hbackup⟩

theorem next_loop_searched (k : ℕ) (hc : r.current < peers.number) :
    Searched peers r (nextLoop now k peers r) := by
  induction k generalizing peers r with
  | zero => exact ⟨servers_refl peers,hc,rfl⟩
  | succ k ih =>
    obtain ⟨hservers,hcurrent,hbackup⟩ := look_searched now peers r hc
    have hwrap : (if (look now peers r).2.2.current+1 ≥ (look now peers r).2.1.number then 0
        else (look now peers r).2.2.current+1) < peers.number := by
      rw [hservers.number]
      split_ifs <;> omega
    simp only [nextLoop]
    generalize (if (look now peers r).2.2.current+1 ≥ (look now peers r).2.1.number then 0
      else (look now peers r).2.2.current+1) = current at hwrap ⊢
    split_ifs
    · exact ⟨hservers,hcurrent,hbackup⟩
    · exact ⟨hservers,hwrap,hbackup⟩
    · obtain ⟨hrest,hcurrent',hbackup'⟩ := ih (look now peers r).2.1
        { (look now peers r).2.2 with current := current } (by rw [hservers.number]; exact hwrap)
      rw [hservers.number] at hcurrent'
      exact ⟨servers_trans _ _ _ hservers hrest,hcurrent',hbackup'.trans hbackup⟩

end Search

section GetFrom
variable (now : ℤ) (peers : Peers) (next : Option Peers) (r : Request)

theorem add_backup_same :
    (addBackup next r).current = r.current ∧ (addBackup next r).onBackup = r.onBackup := by
  cases next with
  | none => exact ⟨rfl,rfl⟩
  | some backup =>
    rw [addBackup]
    split_ifs <;> exact ⟨rfl,rfl⟩

theorem get_from_searched (hc : r.current < peers.number) (hcached : peers.lastCached = 0) :
    Searched peers r (getFrom now peers next r) := by
  have hsearch : Searched peers r (searchPeers now peers r) := by
    rw [searchPeers]
    split_ifs
    · exact first_loop_searched now peers r _ hc
    · exact next_loop_searched now peers r _ hc
  obtain ⟨hservers,hcurrent,hbackup⟩ := hsearch
  simp only [getFrom]
  rw [if_neg (not_not.mpr hcached)]
  split_ifs
  · obtain ⟨hcurrent',hbackup'⟩ := add_backup_same next r
    exact ⟨servers_refl peers,lt_of_eq_of_lt hcurrent' hc,hbackup'⟩
  · obtain ⟨hcurrent',hbackup'⟩ := add_backup_same next { (searchPeers now peers r).2.2 with
      tried := Function.update (searchPeers now peers r).2.2.tried
        (searchPeers now peers r).2.2.current true }
    exact ⟨servers_trans _ _ _ hservers (servers_set _ _ _ rfl rfl),lt_of_eq_of_lt hcurrent' hcurrent,
      hbackup'.trans hbackup⟩
  · exact ⟨hservers,hcurrent,hbackup⟩

theorem get_from_found (hc : r.current < peers.number) (hconf : Configured peers) :
    (getFrom now peers next r).1 = true ↔ Offered now peers r := by
  simp only [getFrom]
  rw [if_neg (not_not.mpr hconf.cached), Offered]
  by_cases hsingle : peers.single = true
  · simp [hsingle]
  have hfound : (searchPeers now peers r).1 = true ↔
      if r.tries = peers.number then FirstTry now peers r.tried else Near now peers r := by
    rw [searchPeers]
    by_cases hfirst : r.tries = peers.number
    · have hpos : r.tries ≠ 0 := by
        have hnumber := hconf.number
        omega
      rw [if_pos hfirst, if_pos hfirst, rounds, if_neg hpos, FirstTry, ← hfirst]
      exact first_loop_found now r.tries peers r hconf (Nat.le_refl _)
    · rw [if_neg hfirst, if_neg hfirst]
      exact later_try_found now peers r hc
  rw [if_neg hsingle, ← hfound]
  split_ifs with hf <;> simp [hf, hsingle]

end GetFrom

section GetLast
variable (now : ℤ) (peers : Peers) (r : Request)

theorem servers_mark : SameServers peers (markLive peers) :=
  ⟨rfl,rfl,rfl,fun _ => rfl,fun _ => rfl⟩

theorem get_last_spec (hc : r.current < peers.number) (hconf : Configured peers) :
    ((getLast now peers r).1 = .busy ↔ ¬ Offered now peers r) ∧
      SameServers peers (getLast now peers r).2.1 ∧
      (getLast now peers r).2.2.current < peers.number ∧
      (getLast now peers r).2.2.onBackup = r.onBackup := by
  obtain ⟨hservers,hcurrent,hbackup⟩ := get_from_searched now peers none r hc hconf.cached
  have hfound := get_from_found now peers none r hc hconf
  simp only [getLast]
  by_cases hf : (getFrom now peers none r).1 = true
  · rw [if_pos hf]
    exact ⟨iff_of_false nofun (not_not.mpr (hfound.mp hf)),hservers,hcurrent,hbackup⟩
  rw [if_neg hf]
  exact ⟨iff_of_true rfl (fun h => hf (hfound.mpr h)),
    servers_trans _ _ _ hservers (servers_mark _),hcurrent,hbackup⟩

theorem get_from_first (current : ℕ) (hpos : 0 < peers.number) (hcached : peers.lastCached = 0)
    (hsingle : peers.single = false) (hfirst : r.tries = peers.number) :
    getFrom now peers none r = getFrom now peers none { r with current := current } := by
  obtain ⟨k,hk⟩ := Nat.exists_eq_add_one_of_ne_zero (show rounds r.tries ≠ 0 by
    rw [rounds, if_neg (by omega)]
    omega)
  have hsearch : searchPeers now peers r = searchPeers now peers { r with current := current } := by
    rw [searchPeers, searchPeers, if_pos hfirst, if_pos hfirst]
    show firstLoop now (rounds r.tries) peers r =
      firstLoop now (rounds r.tries) peers { r with current := current }
    rw [hk]
    rfl
  rw [getFrom, getFrom, hsearch, hsingle]
  simp [hcached]

end GetLast

structure Fits (up : Upstream) (r : Request) : Prop where
  primary : Configured up.peers
  backup : ∀ backup, up.next = some backup → Configured backup ∧ backup.single = false
  current : r.current < (up.list r).number
  onBackup : r.onBackup = true → up.next ≠ none

structure SameUpstream (up up' : Upstream) : Prop where
  primary : SameServers up.peers up'.peers
  none : up.next = none → up'.next = none
  some : ∀ backup, up.next = some backup → ∃ backup', up'.next = some backup' ∧
    SameServers backup backup'

theorem upstream_refl (up : Upstream) : SameUpstream up up :=
  ⟨servers_refl _,id,fun backup hb => ⟨backup,hb,servers_refl _⟩⟩

theorem upstream_backup (peers backup peers' backup' : Peers) (h : SameServers peers peers')
    (h' : SameServers backup backup') :
    SameUpstream ⟨peers,some backup⟩ ⟨peers',some backup'⟩ := by
  refine ⟨h,nofun,fun b hb => ?_⟩
  cases hb
  exact ⟨backup',rfl,h'⟩

theorem upstream_list (up up' : Upstream) (r : Request) (h : SameUpstream up up') :
    (up'.list r).number = (up.list r).number := by
  rw [Upstream.list, Upstream.list]
  cases hnext : up.next with
  | none =>
    rw [h.none hnext]
    split_ifs <;> exact h.primary.number
  | some backup =>
    obtain ⟨backup',hnext',hs⟩ := h.some backup hnext
    rw [hnext']
    split_ifs
    · exact hs.number
    · exact h.primary.number

theorem fits_after (up up' : Upstream) (r r' : Request) (h : Fits up r) (hs : SameUpstream up up')
    (hc : r'.current < (up.list r').number) (hon : r'.onBackup = true → up.next ≠ none) :
    Fits up' r' := by
  refine ⟨same_configured _ _ hs.primary h.primary,fun b' hb' => ?_,?_,fun hb hn => ?_⟩
  · cases hnext : up.next with
    | none =>
      rw [hs.none hnext] at hb'
      cases hb'
    | some backup =>
      obtain ⟨b,hb,hsb⟩ := hs.some backup hnext
      rw [hb] at hb'
      cases hb'
      obtain ⟨hconf,hsingle⟩ := h.backup backup hnext
      exact ⟨same_configured _ _ hsb hconf,hsb.single.trans hsingle⟩
  · rw [upstream_list up up' r' hs]
    exact hc
  · cases hnext : up.next with
    | none => exact hon hb hnext
    | some backup =>
      obtain ⟨b,hb',-⟩ := hs.some backup hnext
      rw [hb'] at hn
      cases hn

structure Answered (chance : Prop) (up : Upstream) (out : Rc × Upstream × Request) : Prop where
  busy : out.1 = .busy ↔ ¬ chance
  upstream : SameUpstream up out.2.1
  fits : Fits out.2.1 out.2.2

section Answer
variable (now : ℤ) (peers backup : Peers) (r : Request)

theorem get_alone (h : Fits ⟨peers,none⟩ r) : Answered (Chance now ⟨peers,none⟩ r) ⟨peers,none⟩
    (ngxHttpUpstreamGetRoundRobinPeer now ⟨peers,none⟩ r) := by
  have hoff : r.onBackup = false := by
    by_contra hb
    exact h.onBackup (by simpa using hb) rfl
  have hlist : ∀ r' : Request, r'.onBackup = r.onBackup →
      Upstream.list ⟨peers,none⟩ r' = peers := by
    intro r' hr'
    rw [Upstream.list, hr', hoff]
    rfl
  have hc := h.current
  rw [hlist r rfl] at hc
  obtain ⟨hbusy,hservers,hcurrent,honb⟩ := get_last_spec now peers r hc h.primary
  have hs : SameUpstream ⟨peers,none⟩ ⟨(getLast now peers r).2.1,none⟩ :=
    ⟨hservers,fun _ => rfl,nofun⟩
  refine ⟨?_,hs,fits_after _ _ r _ h hs ?_ (fun hb => ?_)⟩
  · show (getLast now peers r).1 = .busy ↔ _
    rw [hbusy, Chance, hlist r rfl]
    simp
  · exact lt_of_lt_of_eq hcurrent (congrArg Peers.number (hlist _ honb)).symm
  · exact absurd (hb.symm.trans (honb.trans hoff)) (Bool.false_ne_true ∘ Eq.symm)

theorem get_on_backup (h : Fits ⟨peers,some backup⟩ r) (hon : r.onBackup = true) :
    Answered (Chance now ⟨peers,some backup⟩ r) ⟨peers,some backup⟩
      (ngxHttpUpstreamGetRoundRobinPeer now ⟨peers,some backup⟩ r) := by
  have hlist : ∀ r' : Request, r'.onBackup = r.onBackup →
      Upstream.list ⟨peers,some backup⟩ r' = backup := by
    intro r' hr'
    rw [Upstream.list, hr', hon]
    rfl
  have hc := h.current
  rw [hlist r rfl] at hc
  obtain ⟨hbusy,hservers,hcurrent,honb⟩ :=
    get_last_spec now backup r hc (h.backup backup rfl).1
  have hrun : ngxHttpUpstreamGetRoundRobinPeer now ⟨peers,some backup⟩ r =
      ((getLast now backup r).1, ⟨peers,some (getLast now backup r).2.1⟩,
        (getLast now backup r).2.2) := by
    simp only [ngxHttpUpstreamGetRoundRobinPeer, hon, if_true]
  have hs := upstream_backup peers backup peers _ (servers_refl peers) hservers
  rw [hrun]
  refine ⟨?_,hs,fits_after _ _ r _ h hs ?_ (fun _ => nofun)⟩
  · rw [hbusy, Chance, hlist r rfl, hon]
    simp
  · exact lt_of_lt_of_eq hcurrent (congrArg Peers.number (hlist _ honb)).symm

theorem backup_offered : Offered now backup
      (clearTried backup.number { r with onBackup := true, tries := backup.number }) ↔
    backup.single = true ∨ FirstTry now backup (fun _ => false) := by
  have hclear : ∀ i < backup.number, (clearTried backup.number
      { r with onBackup := true, tries := backup.number }).tried i = false := by
    intro i hi
    simp only [clearTried]
    rw [if_pos (by omega)]
  have hfirst : (clearTried backup.number
      { r with onBackup := true, tries := backup.number }).tries = backup.number := rfl
  rw [Offered, if_pos hfirst]
  refine or_congr_right (serves_congr _ _ _ _ _ (fun i hi => ?_))
  have hi := hclear i (turns_lt backup _ i hi)
  exact ⟨by rw [Available, Available, hi],by rw [Refused, Refused, hi]⟩

theorem get_last_backup (hconf : Configured backup) (hsingle : backup.single = false)
    (r' : Request) (hr : r' = clearTried backup.number
      { r with onBackup := true, tries := backup.number }) :
    ((getLast now backup r').1 = .busy ↔ ¬ FirstTry now backup (fun _ => false)) ∧
      SameServers backup (getLast now backup r').2.1 ∧
      (getLast now backup r').2.2.current < backup.number ∧
      (getLast now backup r').2.2.onBackup = true := by
  have hfirst : getLast now backup r' = getLast now backup { r' with current := 0 } := by
    rw [getLast, getLast, get_from_first now backup r' 0 hconf.number hconf.cached hsingle
      (by rw [hr]; rfl)]
  have hoffered : Offered now backup { r' with current := 0 } ↔
      FirstTry now backup (fun _ => false) := by
    rw [hr]
    refine (backup_offered now backup { r with current := 0 }).trans ?_
    simp [hsingle]
  obtain ⟨hbusy,hservers,hcurrent,honb⟩ :=
    get_last_spec now backup { r' with current := 0 } hconf.number hconf
  rw [hfirst]
  refine ⟨hbusy.trans (not_congr hoffered),hservers,hcurrent,honb.trans ?_⟩
  rw [hr]
  rfl

theorem get_with_backup (h : Fits ⟨peers,some backup⟩ r) (hoff : r.onBackup = false) :
    Answered (Chance now ⟨peers,some backup⟩ r) ⟨peers,some backup⟩
      (ngxHttpUpstreamGetRoundRobinPeer now ⟨peers,some backup⟩ r) := by
  have hlist : ∀ r' : Request, r'.onBackup = r.onBackup →
      Upstream.list ⟨peers,some backup⟩ r' = peers := by
    intro r' hr'
    rw [Upstream.list, hr', hoff]
    rfl
  have hc := h.current
  rw [hlist r rfl] at hc
  obtain ⟨hconf,hsingle⟩ := h.backup backup rfl
  obtain ⟨hservers,hcurrent,honb⟩ :=
    get_from_searched now peers (some backup) r hc h.primary.cached
  have hfound := get_from_found now peers (some backup) r hc h.primary
  by_cases hf : (getFrom now peers (some backup) r).1 = true
  · have hrun : ngxHttpUpstreamGetRoundRobinPeer now ⟨peers,some backup⟩ r =
        (.ok, ⟨(getFrom now peers (some backup) r).2.1,some backup⟩,
          (getFrom now peers (some backup) r).2.2) := by
      simp only [ngxHttpUpstreamGetRoundRobinPeer, hoff, hf, if_true, Bool.false_eq_true, if_false]
    have hs := upstream_backup peers backup _ backup hservers (servers_refl backup)
    rw [hrun]
    refine ⟨iff_of_false nofun (not_not.mpr (Or.inl ?_)),hs,
      fits_after _ _ r _ h hs ?_ (fun _ => nofun)⟩
    · rw [hlist r rfl]
      exact hfound.mp hf
    · exact lt_of_lt_of_eq hcurrent (congrArg Peers.number (hlist _ honb)).symm
  obtain ⟨hbusy,hservers',hcurrent',honb'⟩ := get_last_backup now backup
    (getFrom now peers (some backup) r).2.2 hconf hsingle _ rfl
  have hchance : Chance now ⟨peers,some backup⟩ r ↔ FirstTry now backup (fun _ => false) := by
    rw [Chance, hlist r rfl, ← hfound, hoff]
    simp [hf, hsingle]
  simp only [ngxHttpUpstreamGetRoundRobinPeer, hoff, hf, Bool.false_eq_true, if_false]
  generalize getLast now backup _ = out at hbusy hservers' hcurrent' honb' ⊢
  have hfits : ∀ peers', SameServers peers peers' →
      SameUpstream ⟨peers,some backup⟩ ⟨peers',some out.2.1⟩ ∧
      Fits ⟨peers',some out.2.1⟩ out.2.2 := by
    intro peers' hp
    have hs := upstream_backup peers backup peers' out.2.1 hp hservers'
    refine ⟨hs,fits_after _ _ r _ h hs ?_ (fun _ => nofun)⟩
    rw [Upstream.list, honb']
    exact hcurrent'
  by_cases hok : out.1 = .ok
  · rw [if_pos hok]
    obtain ⟨hs,hfit⟩ := hfits _ hservers
    refine ⟨iff_of_false nofun (not_not.mpr (hchance.mpr ?_)),hs,hfit⟩
    by_contra hn
    have hb := hbusy.mpr hn
    rw [hok] at hb
    cases hb
  rw [if_neg hok]
  obtain ⟨hs,hfit⟩ := hfits _ (servers_trans _ _ _ hservers (servers_mark _))
  have hb : out.1 = .busy := by
    cases ho : out.1 with
    | ok => exact absurd ho hok
    | busy => rfl
  exact ⟨iff_of_true rfl (fun hch => hbusy.mp hb (hchance.mp hch)),hs,hfit⟩

end Answer

theorem get_answered (now : ℤ) (up : Upstream) (r : Request) (h : Fits up r) :
    Answered (Chance now up r) up (ngxHttpUpstreamGetRoundRobinPeer now up r) := by
  obtain ⟨peers,next⟩ := up
  cases next with
  | none => exact get_alone now peers r h
  | some backup =>
    cases hon : r.onBackup with
    | true => exact get_on_backup now peers backup r h hon
    | false => exact get_with_backup now peers backup r h hon

section Hash
variable (now : ℤ) (peers : Peers)

theorem pass_over_available (r : Request) (p i : ℕ) (h : ¬ Available now peers r.tried p) :
    Available now peers (passOver r p).tried i ↔ Available now peers r.tried i := by
  rw [passOver]
  split_ifs with htried
  · exact Iff.rfl
  · by_cases hi : i = p
    · subst hi
      exact iff_of_false (fun ha => absurd ha.1 (by simp)) h
    · simp [Available, hi]

theorem pass_over_same (r : Request) (p : ℕ) : (passOver r p).addr = r.addr ∧
    (passOver r p).current = r.current ∧ (passOver r p).onBackup = r.onBackup := by
  rw [passOver]
  split_ifs <;> exact ⟨rfl,rfl,rfl⟩

theorem passed_same (ps : List ℕ) (r : Request) : (ps.foldl passOver r).current = r.current ∧
    (ps.foldl passOver r).onBackup = r.onBackup := by
  induction ps generalizing r with
  | nil => exact ⟨rfl,rfl⟩
  | cons p ps ih =>
    obtain ⟨-,hcurrent,hbackup⟩ := pass_over_same r p
    obtain ⟨hcurrent',hbackup'⟩ := ih (passOver r p)
    exact ⟨hcurrent'.trans hcurrent,hbackup'.trans hbackup⟩

theorem hash_loop_round (k hash : ℕ) (r : Request) (p : ℕ)
    (hp : p = hashAddr hash r.addr % peers.number) :
    (Available now peers r.tried p → ∃ peers' r', hashLoop now (k+1) hash peers r =
      (true, peers', r') ∧ SameServers peers peers' ∧ r'.current = p ∧ r'.onBackup = r.onBackup) ∧
    (¬ Available now peers r.tried p → hashLoop now (k+1) hash peers r =
      hashLoop now k (hashAddr hash r.addr) peers (passOver r p)) := by
  subst hp
  simp only [hashLoop, passOver, Available, Alive]
  by_cases htried : r.tried (hashAddr hash r.addr % peers.number) = true
  · simp [htried]
  by_cases hdown : (peers.peer (hashAddr hash r.addr % peers.number)).down = true
  · simp [htried, hdown]
  by_cases hfails : (peers.peer (hashAddr hash r.addr % peers.number)).maxFails = 0 ∨
    (peers.peer (hashAddr hash r.addr % peers.number)).fails <
      (peers.peer (hashAddr hash r.addr % peers.number)).maxFails
  · simp only [htried, hdown, hfails, if_true, Bool.false_eq_true, if_false]
    exact ⟨fun _ => ⟨_,_,rfl,servers_refl peers,rfl,rfl⟩,
      fun hn => absurd ⟨by simp,by simp,or_assoc.mp (Or.inl hfails)⟩ hn⟩
  simp only [htried, hdown, hfails, Bool.false_eq_true, if_false]
  split_ifs with htime
  · exact ⟨fun _ => ⟨_,_,rfl,servers_set _ _ _ rfl (by simp [hdown]),rfl,rfl⟩,
      fun hn => absurd ⟨by simp,by simp,Or.inr (Or.inr htime)⟩ hn⟩
  · exact ⟨fun hav => absurd (or_assoc.mpr hav.2.2) (not_or.mpr ⟨hfails,htime⟩),
      fun _ => rfl⟩

theorem hash_loop_spec (k hash : ℕ) (r : Request) (hnumber : 0 < peers.number) :
    ((∃ p ∈ hashed peers.number r.addr k hash, Available now peers r.tried p) →
      ∃ peers' r', hashLoop now k hash peers r = (true, peers', r') ∧ SameServers peers peers' ∧
        r'.current < peers.number ∧ r'.onBackup = r.onBackup) ∧
    ((∀ p ∈ hashed peers.number r.addr k hash, ¬ Available now peers r.tried p) →
      hashLoop now k hash peers r =
        (false, peers, (hashed peers.number r.addr k hash).foldl passOver r)) := by
  induction k generalizing hash r with
  | zero => exact ⟨fun ⟨p,hp,_⟩ => absurd hp List.not_mem_nil,fun _ => rfl⟩
  | succ k ih =>
    obtain ⟨htake,hpass⟩ := hash_loop_round now peers k hash r _ rfl
    obtain ⟨haddr,-,hbackup⟩ := pass_over_same r (hashAddr hash r.addr % peers.number)
    obtain ⟨ihtake,ihpass⟩ := ih (hashAddr hash r.addr)
      (passOver r (hashAddr hash r.addr % peers.number))
    rw [haddr] at ihtake ihpass
    rw [hashed]
    by_cases hav : Available now peers r.tried (hashAddr hash r.addr % peers.number)
    · obtain ⟨peers',r',hrun,hs,hc,hb⟩ := htake hav
      exact ⟨fun _ => ⟨peers',r',hrun,hs,hc ▸ Nat.mod_lt _ hnumber,hb⟩,
        fun hall => absurd hav (hall _ List.mem_cons_self)⟩
    have hiff := fun i => pass_over_available now peers r (hashAddr hash r.addr % peers.number) i hav
    rw [hpass hav, List.foldl_cons]
    constructor
    · rintro ⟨p,hp,hav'⟩
      rcases List.mem_cons.mp hp with rfl | hp
      · exact absurd hav' hav
      · rw [← hbackup]
        exact ihtake ⟨p,hp,(hiff p).mpr hav'⟩
    · exact fun hall => ihpass (fun p hp hav' =>
        hall p (List.mem_cons_of_mem _ hp) ((hiff p).mp hav'))

end Hash

theorem set_list_same (up : Upstream) (r : Request) (h : Fits up r) :
    up.setList r (up.list r) = up := by
  obtain ⟨peers,next⟩ := up
  cases hon : r.onBackup with
  | false => simp [Upstream.setList, Upstream.list, hon]
  | true =>
    cases next with
    | none => exact absurd rfl (h.onBackup hon)
    | some backup => simp [Upstream.setList, Upstream.list, hon]

theorem set_list_upstream (up : Upstream) (r : Request) (peers : Peers) (h : Fits up r)
    (hs : SameServers (up.list r) peers) : SameUpstream up (up.setList r peers) := by
  obtain ⟨primary,next⟩ := up
  cases hon : r.onBackup with
  | false =>
    simp only [Upstream.list, hon, Bool.false_eq_true, if_false] at hs
    simp only [Upstream.setList, hon, Bool.false_eq_true, if_false]
    exact ⟨hs,id,fun b hb => ⟨b,hb,servers_refl b⟩⟩
  | true =>
    cases next with
    | none => exact absurd rfl (h.onBackup hon)
    | some backup =>
      simp only [Upstream.list, hon, if_true, Option.getD_some] at hs
      simp only [Upstream.setList, hon, if_true]
      exact upstream_backup primary backup primary peers (servers_refl primary) hs

theorem get_hash_answered (now : ℤ) (up : Upstream) (r : Request) (h : Fits up r) :
    Answered (HashChance now up r) up (ngxHttpUpstreamGetIpHashPeer now up r) := by
  have hnumber : 0 < (up.list r).number := Nat.zero_lt_of_lt h.current
  simp only [ngxHttpUpstreamGetIpHashPeer]
  by_cases hover : r.hashTries > 20 ∨ (up.list r).single
  · obtain ⟨hbusy,hs,hfits⟩ := get_answered now up r h
    rw [if_pos hover]
    exact ⟨by rw [hbusy, HashChance, if_pos hover],hs,hfits⟩
  rw [if_neg hover]
  generalize hk : (if r.hashTries < 20 then 20-r.hashTries else 1) = k
  have hchance : HashChance now up r ↔
      (∃ p ∈ hashed (up.list r).number r.addr k r.hash, Available now (up.list r) r.tried p) ∨
        Chance now up ((hashed (up.list r).number r.addr k r.hash).foldl passOver r) := by
    rw [HashChance, if_neg hover, hk]
  obtain ⟨htake,hpass⟩ := hash_loop_spec now (up.list r) k r.hash r hnumber
  by_cases hav : ∃ p ∈ hashed (up.list r).number r.addr k r.hash,
      Available now (up.list r) r.tried p
  · obtain ⟨peers',r',hrun,hsame,hc,hb⟩ := htake hav
    have hs := set_list_upstream up r peers' h hsame
    have hlist : up.list r' = up.list r := by rw [Upstream.list, Upstream.list, hb]
    have hset : up.setList r' peers' = up.setList r peers' := by
      rw [Upstream.setList, Upstream.setList, hb]
    simp only [hrun, if_true, hset]
    exact ⟨iff_of_false nofun (not_not.mpr (hchance.mpr (Or.inl hav))),hs,
      fits_after up _ r r' h hs (hlist ▸ hc) (fun hb' => h.onBackup (hb ▸ hb'))⟩
  have hall : ∀ p ∈ hashed (up.list r).number r.addr k r.hash,
      ¬ Available now (up.list r) r.tried p := fun p hp ha => hav ⟨p,hp,ha⟩
  obtain ⟨hcurrent,hbackup⟩ := passed_same (hashed (up.list r).number r.addr k r.hash) r
  rw [hpass hall]
  generalize (hashed (up.list r).number r.addr k r.hash).foldl passOver r = r'
    at hcurrent hbackup hchance ⊢
  have hlist : up.list r' = up.list r := by rw [Upstream.list, Upstream.list, hbackup]
  have hfits : Fits up r' := fits_after up up r r' h (upstream_refl up)
    (by rw [hlist, hcurrent]; exact h.current) (fun hb => h.onBackup (hbackup ▸ hb))
  obtain ⟨hbusy,hs,hfits'⟩ := get_answered now up r' hfits
  have hset : up.setList r' (up.list r) = up := by rw [← hlist, set_list_same up r' hfits]
  simp only [Bool.false_eq_true, if_false, hset]
  refine ⟨?_,hs,hfits'⟩
  rw [hbusy, hchance]
  simp [hav]

theorem free_fits (now : ℤ) (up : Upstream) (r : Request) (state : FreeState) (h : Fits up r) :
    SameUpstream up (ngxHttpUpstreamFreeRoundRobinPeer now up r state).1 ∧
      Fits (ngxHttpUpstreamFreeRoundRobinPeer now up r state).1
        (ngxHttpUpstreamFreeRoundRobinPeer now up r state).2 := by
  rw [ngxHttpUpstreamFreeRoundRobinPeer]
  by_cases hdone : state.failed = false ∧ state.next = false ∧ r.tries = 0
  · rw [if_pos hdone]
    exact ⟨upstream_refl up,h⟩
  rw [if_neg hdone]
  by_cases hsingle : (up.list r).single = true
  · rw [if_pos hsingle]
    exact ⟨upstream_refl up,h.primary,h.backup,h.current,h.onBackup⟩
  rw [if_neg hsingle]
  simp only
  generalize hpeers : (if state.failed then _ else up.list r) = peers
  have hsame : SameServers (up.list r) peers := by
    rw [← hpeers]
    split_ifs
    · exact servers_set _ _ _ rfl rfl
    · exact servers_set _ _ _ rfl rfl
    · exact servers_set _ _ _ rfl rfl
    · exact servers_set _ _ _ rfl rfl
    · exact servers_refl _
  have hs := set_list_upstream up r peers h hsame
  refine ⟨hs,fits_after up _ r _ h hs ?_ h.onBackup⟩
  have hc := h.current
  show (if r.current+1 ≥ peers.number then 0 else r.current+1) < (up.list r).number
  rw [hsame.number]
  split_ifs <;> omega

theorem sort_place_mem (p q : Peer) (peers : List Peer) :
    q ∈ sortPlace p peers ↔ q = p ∨ q ∈ peers := by
  induction peers with
  | nil => simp [sortPlace]
  | cons x xs ih =>
    rw [sortPlace]
    split_ifs
    · simp only [List.mem_cons, ih]
      tauto
    · simp only [List.mem_cons]

theorem sort_mem (q : Peer) (peers : List Peer) : q ∈ ngxSort peers ↔ q ∈ peers := by
  have hfold : ∀ sorted, q ∈ peers.foldl (fun sorted p => sortPlace p sorted) sorted ↔
      q ∈ sorted ∨ q ∈ peers := by
    induction peers with
    | nil => simp
    | cons x xs ih =>
      intro sorted
      rw [List.foldl_cons, ih, sort_place_mem, List.mem_cons]
      tauto
  rw [ngxSort, List.mem_reverse, hfold]
  simp

theorem peers_of_configured (single : Bool) (peers : List Peer) (hne : peers ≠ [])
    (h : ∀ p ∈ peers, p.down = false → 0 < p.weight) : Configured (peersOf single peers) := by
  refine ⟨List.length_pos_of_ne_nil hne,rfl,fun i hi hd => ?_⟩
  have hget : (peersOf single peers).peer i = peers[i] := by
    show peers.getD i default = peers[i]
    rw [List.getD_eq_getElem?_getD, List.getElem?_eq_getElem hi, Option.getD_some]
  rw [hget] at hd ⊢
  exact h _ (List.getElem_mem hi) hd

theorem primaries_weight (servers : List Server) (h : ∀ server ∈ servers, 0 < server.weight) :
    ∀ p ∈ primaries servers, p.down = false → 0 < p.weight := by
  intro p hp hd
  obtain ⟨server,hs,hp⟩ := List.mem_flatMap.mp hp
  have hpeer := (List.mem_replicate.mp hp).2
  subst hpeer
  rw [primaryPeer] at hd ⊢
  simp only at hd ⊢
  rw [hd, if_neg Bool.false_ne_true]
  exact h server (List.mem_filter.mp hs).1

theorem backups_weight (servers : List Server) (h : ∀ server ∈ servers, 0 < server.weight) :
    ∀ p ∈ backups servers, p.down = false → 0 < p.weight := by
  intro p hp _
  obtain ⟨server,hs,hp⟩ := List.mem_flatMap.mp hp
  have hpeer := (List.mem_replicate.mp hp).2
  subst hpeer
  exact h server (List.mem_filter.mp hs).1

def Ready (up : Upstream) : Prop := Configured up.peers ∧
  ∀ backup, up.next = some backup → Configured backup ∧ backup.single = false

theorem init_ready (servers : List Server) (hweight : ∀ server ∈ servers, 0 < server.weight)
    (hserver : primaries servers ≠ []) : Ready (ngxHttpUpstreamInitRoundRobin servers) := by
  have hne : ∀ peers, peers ≠ [] → ngxSort peers ≠ [] := by
    intro peers hp
    obtain ⟨p,hp⟩ := List.exists_mem_of_ne_nil peers hp
    exact List.ne_nil_of_mem ((sort_mem p peers).mpr hp)
  have hprimary : ∀ single, Configured (peersOf single (ngxSort (primaries servers))) :=
    fun single => peers_of_configured single _ (hne _ hserver) (fun p hp =>
      primaries_weight servers hweight p ((sort_mem p _).mp hp))
  simp only [ngxHttpUpstreamInitRoundRobin]
  split_ifs with hlen
  · exact ⟨hprimary _,nofun⟩
  · refine ⟨hprimary _,fun backup hb => ?_⟩
    cases hb
    exact ⟨peers_of_configured _ _ (fun hn => hlen (by rw [hn]; rfl)) (fun p hp =>
      backups_weight servers hweight p ((sort_mem p _).mp hp)),rfl⟩

theorem implicit_ready (naddrs : ℕ) (h : 0 < naddrs) : Ready (implicitUpstream naddrs) := by
  refine ⟨peers_of_configured _ _ (fun hn => ?_) (fun p hp _ => ?_),nofun⟩
  · have hlen := congrArg List.length hn
    rw [List.length_replicate] at hlen
    simp at hlen
    omega
  · rw [(List.mem_replicate.mp hp).2]
    decide

theorem ready_after (up up' : Upstream) (h : Ready up) (hs : SameUpstream up up') : Ready up' := by
  refine ⟨same_configured _ _ hs.primary h.1,fun b' hb' => ?_⟩
  cases hnext : up.next with
  | none =>
    rw [hs.none hnext] at hb'
    cases hb'
  | some backup =>
    obtain ⟨b,hb,hsb⟩ := hs.some backup hnext
    rw [hb] at hb'
    cases hb'
    obtain ⟨hconf,hsingle⟩ := h.2 backup hnext
    exact ⟨same_configured _ _ hsb hconf,hsb.single.trans hsingle⟩

section Turn
variable (now : ℤ) (peers : Peers) (tried : ℕ → Bool)

theorem live_from_append (s a b : ℕ) :
    liveFrom peers s (a+b) = liveFrom peers s a++liveFrom peers (s+a) b := by
  rw [liveFrom, liveFrom, liveFrom, ← List.filter_append, ← List.range'_append, Nat.one_mul]

theorem refused_or_available (i : ℕ) (h : tried i = false ∧ (peers.peer i).down = false) :
    Available now peers tried i ∨ Refused now peers tried i :=
  (Classical.em (Alive now (peers.peer i))).imp (⟨h.1,·⟩) (⟨h.1,h.2,·⟩)

theorem last_available (h : ∃ i < peers.number, Available now peers tried i) :
    ∃ i < peers.number, Available now peers tried i ∧
      ∀ j ∈ behind peers i, ¬ Available now peers tried j := by
  classical
  obtain ⟨i,hi,hav⟩ := h
  let P := fun j => j < peers.number ∧ Available now peers tried j
  obtain ⟨hlt,hlast⟩ : P (Nat.findGreatest P peers.number) := Nat.findGreatest_spec hi.le ⟨hi,hav⟩
  refine ⟨_,hlt,hlast,fun j hj hj' => ?_⟩
  obtain ⟨hbehind,hnumber⟩ := List.mem_range'_1.mp (List.mem_filter.mp hj).1
  have hn : j < peers.number := by omega
  exact Nat.findGreatest_is_greatest (Nat.lt_of_succ_le hbehind) hn.le ⟨hn,hj'⟩

theorem spared_first (hconf : Configured peers) (h : FirstSpared now peers tried)
    (hav : ∃ i < peers.number, Available now peers tried i) : FirstTry now peers tried := by
  have hlength : (live peers).length ≤ peers.number :=
    (List.length_filter_le ..).trans (List.length_range' ..).le
  obtain ⟨ys,hperm,hoffers⟩ := offers_all (ahead peers) (live (resetWeights peers)) peers.number
    (live peers) hlength
  rw [FirstTry, turns, hoffers, serves_append]
  by_cases hlive : ∃ j ∈ live peers, Available now peers tried j
  · obtain ⟨j,hj,hav⟩ := hlive
    exact Or.inl (serves_mixed _ _ j ys (hperm.mem_iff.mpr hj) hav (fun y hy =>
      refused_or_available now peers tried y (h.front y (hperm.mem_iff.mp hy))))
  have hnone : ∀ j ∈ live peers, ¬ Available now peers tried j :=
    fun j hj hav => hlive ⟨j,hj,hav⟩
  refine Or.inr ⟨fun y hy => ?_,?_⟩
  · have hy := hperm.mem_iff.mp hy
    exact (refused_or_available now peers tried y (h.front y hy)).resolve_left (hnone y hy)
  obtain ⟨i,hi,hlast,hbehind⟩ := last_available now peers tried hav
  obtain ⟨hrounds,hclear⟩ := h.reset hnone i hi hlast hbehind
  -- after the reset the peers behind `i` come first, then `i`
  have hall : live (resetWeights peers) = liveFrom (resetWeights peers) 0 i++i::behind peers i := by
    have hweight : ¬ ((resetWeights peers).peer i).currentWeight ≤ 0 :=
      not_le.mpr (hconf.weight i hi hlast.2.1)
    have hsplit := live_from_append (resetWeights peers) 0 i (peers.number-(i+1)+1)
    rw [show i+(peers.number-(i+1)+1) = peers.number by omega, Nat.zero_add, live_from_succ,
      if_neg hweight] at hsplit
    exact hsplit
  obtain ⟨m,hm⟩ : ∃ m, peers.number-(live peers).length = (behind peers i).reverse.length+(m+1) :=
    ⟨peers.number-(live peers).length-(behind peers i).length-1,by
      rw [List.length_reverse]
      omega⟩
  rw [hall, List.reverse_append, List.reverse_cons, List.append_assoc, hm, List.take_length_add_append,
    serves_append]
  refine Or.inr ⟨fun j hj => ?_,Or.inl hlast⟩
  have hj := List.mem_reverse.mp hj
  exact (refused_or_available now peers tried j (hclear j hj)).resolve_left (hbehind j hj)

theorem spared_later (r : Request) (hc : r.current < peers.number) (h : NextSpared now peers r)
    (hav : ∃ i < peers.number, Available now peers r.tried i) : Near now peers r := by
  classical
  have hd : ∃ d, Available now peers r.tried ((r.current+d) % peers.number) := by
    obtain ⟨i,hi,hav⟩ := hav
    refine ⟨i+(peers.number-r.current),?_⟩
    rwa [show r.current+(i+(peers.number-r.current)) = i+peers.number by omega,
      Nat.add_mod_right, Nat.mod_eq_of_lt hi]
  obtain ⟨hrounds,htried⟩ := h _ (Nat.find_spec hd) (fun j hj => Nat.find_min hd hj)
  rw [Near]
  by_cases hzero : r.tries = 0
  · rw [rounds, if_pos hzero] at hrounds
    rw [if_pos hzero]
    exact ⟨htried hzero,_,hrounds,Nat.find_spec hd⟩
  · rw [rounds, if_neg hzero] at hrounds
    rw [if_neg hzero]
    exact ⟨_,hrounds,Nat.find_spec hd⟩

variable (up : Upstream) (r : Request)

theorem list_configured (hf : Fits up r) : Configured (up.list r) := by
  rw [Upstream.list]
  split_ifs with hon
  · cases hnext : up.next with
    | none => exact absurd hnext (hf.onBackup hon)
    | some backup => exact (hf.backup backup hnext).1
  · exact hf.primary

theorem spared_chance (hf : Fits up r) (h : Spared now up r) (hchoice : Choice now up r) : Chance now up r := by
  by_cases hav : ∃ i < (up.list r).number, Available now (up.list r) r.tried i
  · left
    rw [Offered]
    by_cases hsingle : (up.list r).single = true
    · exact Or.inl hsingle
    have hsingle : (up.list r).single = false := by simpa using hsingle
    right
    split_ifs with htries
    · exact spared_first now _ _ (list_configured up r hf) (h.first hsingle htries) hav
    · exact spared_later now _ r hf.current (h.later hsingle htries) hav
  obtain ⟨hoff,backup,hnext,i,hi,halive⟩ := hchoice.resolve_left hav
  exact Or.inr ⟨hoff,backup,hnext,Or.inr (spared_first now backup _ (hf.backup backup hnext).1
    (h.backup hoff (fun i hi ha => hav ⟨i,hi,ha⟩) backup hnext) ⟨i,hi,rfl,halive⟩)⟩

theorem passed_eq (places : List ℕ) : places.foldl passOver r = passed places r := by
  induction places generalizing r with
  | nil => simp [passed]
  | cons p places ih =>
    rw [List.foldl_cons, ih, passOver]
    by_cases htried : r.tried p = true
    · have hmarked : (fun i => r.tried i || decide (i ∈ p::places)) =
          fun i => r.tried i || decide (i ∈ places) := by
        funext i
        by_cases hi : i = p
        · simp [hi, htried]
        · simp [hi]
      rw [if_pos htried, passed, passed, hmarked, List.toFinset_cons, Finset.filter_insert,
        if_neg (by simp [htried]), List.length_cons, Nat.add_right_comm, ← Nat.add_assoc]
    have hmarked : (fun i => Function.update r.tried p true i || decide (i ∈ places)) =
        fun i => r.tried i || decide (i ∈ p::places) := by
      funext i
      by_cases hi : i = p
      · simp [hi]
      · simp [hi]
    have hcount : (places.toFinset.filter (fun i => Function.update r.tried p true i = false)) =
        (places.toFinset.filter (fun i => r.tried i = false)).erase p := by
      ext i
      by_cases hi : i = p
      · simp [hi]
      · simp [hi]
    have hone := Finset.card_erase_add_one
      (Finset.mem_insert_self p (places.toFinset.filter (fun i => r.tried i = false)))
    rw [Finset.erase_insert_eq_erase] at hone
    rw [if_neg htried, passed, passed, ← hmarked, hcount, List.toFinset_cons, Finset.filter_insert,
      if_pos (by simpa using htried), ← hone, Function.iterate_succ_apply, List.length_cons,
      Nat.add_right_comm, ← Nat.add_assoc]

theorem hash_spared_chance (hf : Fits up r) (h : HashSpared now up r)
    (hchoice : Choice now up r) : HashChance now up r := by
  rw [HashSpared] at h
  rw [HashChance]
  by_cases hover : r.hashTries > 20 ∨ (up.list r).single = true
  · rw [if_pos hover] at h ⊢
    exact spared_chance now up r hf h hchoice
  rw [if_neg hover] at h ⊢
  simp only at h ⊢
  generalize hashed (up.list r).number r.addr _ r.hash = places at h ⊢
  by_cases hav : ∃ p ∈ places, Available now (up.list r) r.tried p
  · exact Or.inl hav
  have hnone : ∀ p ∈ places, ¬ Available now (up.list r) r.tried p :=
    fun p hp hp' => hav ⟨p,hp,hp'⟩
  right
  rw [passed_eq]
  have hsame : Fits up (passed places r) := ⟨hf.primary,hf.backup,hf.current,hf.onBackup⟩
  refine spared_chance now up (passed places r) hsame (h hnone) (hchoice.imp_left ?_)
  rintro ⟨i,hi,htried,halive⟩
  refine ⟨i,hi,?_,halive⟩
  have hi : i ∉ places := fun hp => hnone i hp ⟨htried,halive⟩
  simp [passed, htried, hi]

end Turn

structure Inv (s : State) : Prop where
  ready : Ready s.up
  fits : ∀ k r, s.requests k = some r → Fits s.up r

theorem inv_put (s : State) (k : ℕ) (up : Upstream) (r : Request) (h : Inv s)
    (hs : SameUpstream s.up up) (hfits : Fits up r) : Inv (s.put k up r) := by
  refine ⟨ready_after s.up up h.ready hs,fun k' r' hr' => ?_⟩
  by_cases hk : k' = k
  · subst hk
    have hput : Function.update s.requests k' (some r) k' = some r' := hr'
    rw [Function.update_self] at hput
    cases hput
    exact hfits
  · have hold := h.fits k' r' ((Function.update_of_ne hk _ _).symm.trans hr')
    exact fits_after s.up up r' r' hold hs hold.current hold.onBackup

theorem call_inv (s : State) (k : ℕ) (c : Call) (h : Inv s) : Inv (s.call k c) := by
  cases c with
  | start addr =>
    exact inv_put s k s.up _ h (upstream_refl s.up)
      ⟨h.ready.1,h.ready.2,h.ready.1.number,nofun⟩
  | get now =>
    cases hr : s.requests k with
    | none =>
      simp only [State.call, hr]
      exact h
    | some r =>
      simp only [State.call, hr]
      obtain ⟨-,hs,hfits⟩ := get_answered now s.up r (h.fits k r hr)
      exact inv_put s k _ _ h hs hfits
  | getIpHash now =>
    cases hr : s.requests k with
    | none =>
      simp only [State.call, hr]
      exact h
    | some r =>
      simp only [State.call, hr]
      obtain ⟨-,hs,hfits⟩ := get_hash_answered now s.up r (h.fits k r hr)
      exact inv_put s k _ _ h hs hfits
  | free now state =>
    cases hr : s.requests k with
    | none =>
      simp only [State.call, hr]
      exact h
    | some r =>
      simp only [State.call, hr]
      obtain ⟨hs,hfits⟩ := free_fits now s.up r state (h.fits k r hr)
      exact inv_put s k _ _ h hs hfits

theorem reached_inv (s : State) (h : Reached s) : Inv s := by
  induction h with
  | init servers hweight hserver => exact ⟨init_ready servers hweight hserver,nofun⟩
  | implicit naddrs h => exact ⟨implicit_ready naddrs h,nofun⟩
  | call s k c h ih => exact call_inv s k c ih

/-- Two servers of weight 2 with `max_fails=3`. -/
def twoServers : List Server := [⟨1,2,3,10,false,false⟩, ⟨1,2,3,10,false,false⟩]

def runCalls (s : State) (calls : List (ℕ × Call)) : State :=
  calls.foldl (fun s (k, c) => s.call k c) s

theorem run_calls_reached (s : State) (calls : List (ℕ × Call)) (h : Reached s) :
    Reached (runCalls s calls) := by
  induction calls generalizing s with
  | nil => exact h
  | cons call calls ih => exact ih _ (Reached.call s call.1 call.2 h)

theorem two_servers_reached (calls : List (ℕ × Call)) :
    Reached (runCalls ⟨ngxHttpUpstreamInitRoundRobin twoServers,fun _ => none⟩ calls) :=
  run_calls_reached _ calls (Reached.init twoServers (by decide) (by decide))

/-- The requests go to the second server and to the first one, where they fail, in turn. -/
def firstFails : List (ℕ × Call) :=
  let round : List (ℕ × Call) := [(1, .start [0,0,0]), (1, .get 0), (2, .start [0,0,0]), (2, .get 0)]
  round++(2, .free 0 ⟨true,false⟩)::round++(2, .free 0 ⟨true,false⟩)::round++
    [(2, .free 0 ⟨true,false⟩), (1, .start [0,0,0]), (1, .get 0), (3, .start [0,0,0])]

def failed : State :=
  runCalls ⟨ngxHttpUpstreamInitRoundRobin twoServers,fun _ => none⟩ firstFails

theorem third_spared : (failed.requests 3).any (fun r => decide (
    (r.onBackup = false ∧ r.tries = failed.up.peers.number ∧ failed.up.next.isNone ∧
      failed.up.peers.single = false ∧ r.hashTries = 0) ∧
    (live failed.up.peers = [0] ∧ ¬ Available 0 failed.up.peers r.tried 0) ∧
    (∀ j ∈ live failed.up.peers, r.tried j = false ∧ (failed.up.peers.peer j).down = false) ∧
    (∀ i < failed.up.peers.number, Available 0 failed.up.peers r.tried i →
      (live failed.up.peers).length+(behind failed.up.peers i).length < failed.up.peers.number ∧
        ∀ j ∈ behind failed.up.peers i,
          r.tried j = false ∧ (failed.up.peers.peer j).down = false) ∧
    (∃ i ∈ List.range failed.up.peers.number, Available 0 failed.up.peers r.tried i) ∧
    ∃ p ∈ hashed failed.up.peers.number r.addr 20 r.hash,
      Available 0 failed.up.peers r.tried p)) = true := by
  decide +kernel

def threeFailures : List (ℕ × Call) :=
  [(1, .start [0,0,0]), (2, .start [0,0,0]), (3, .start [0,0,0]), (4, .start [0,0,0]),
    (5, .start [0,0,0]), (1, .get 0), (1, .free 0 ⟨true,false⟩), (1, .get 0), (2, .get 0),
    (2, .free 0 ⟨true,false⟩), (3, .get 0), (4, .get 0), (4, .free 0 ⟨true,false⟩), (2, .get 0),
    (4, .get 0)]

def crowded : State :=
  runCalls ⟨ngxHttpUpstreamInitRoundRobin twoServers,fun _ => none⟩ threeFailures

theorem fifth_run : (crowded.requests 5).any (fun r => decide (
    (ngxHttpUpstreamGetRoundRobinPeer 0 crowded.up r).1 = .busy ∧
    0 < (crowded.up.list r).number ∧ Available 0 (crowded.up.list r) r.tried 0)) = true := by
  decide +kernel

end Nginx.RoundRobinLaw
