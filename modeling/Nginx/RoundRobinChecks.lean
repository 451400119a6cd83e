import Nginx.RoundRobinLaw

/-!
# The divisions and places of the round robin

The calls once more, in a form that ends without a result when a division by zero comes up
or a place outside of the list is looked at. Current weights stay below the weights, which
are not negative, and so the two forms agree.
-/

set_option autoImplicit false

namespace Nginx.RoundRobinChecks
open Nginx.RoundRobin Nginx.Rotation Nginx.RoundRobinTurns Nginx.RoundRobinLaw

def checkedPerMille (one two : ℤ) : Option ℤ := if two = 0 then none else some (perMille one two)

def checkedAhead (peers : Peers) (n i : ℕ) : Option Bool :=
  (checkedPerMille (peers.peer n).currentWeight (peers.peer i).currentWeight).bind (fun current =>
    (checkedPerMille (peers.peer n).weight (peers.peer i).weight).map (fun weight => current > weight))

def checkedPeer (peers : Peers) (i : ℕ) : Option Peer :=
  if i < peers.number then some (peers.peer i) else none

@[grind =] def checkedScanAhead (peers : Peers) : ℕ → ℕ → ℕ → Option ℕ
  | 0, i, n => (checkedPeer peers i).map (fun peer => if peer.currentWeight > 0 then i else n)
  | k+1, i, n =>
    (checkedPeer peers (i+1)).bind (fun peer =>
      if peer.currentWeight ≤ 0 then checkedScanAhead peers k (i+1) n
      else (checkedAhead peers n (i+1)).bind (fun ahead =>
        if ahead then some n else checkedScanAhead peers k (i+1) (i+1)))

@[grind =] def checkedScanPeers (peers : Peers) : ℕ → Option (Option ℕ)
  | 0 => some none
  | k+1 =>
    let i := peers.number-(k+1)
    (checkedPeer peers i).bind (fun peer =>
      if peer.currentWeight ≤ 0 then checkedScanPeers peers k
      else (checkedScanAhead peers k i i).map some)

def checkedGetPeer (peers : Peers) : Option (ℕ × Peers) :=
  (checkedScanPeers peers peers.number).bind (fun found =>
    match found with
    | some n => some (n, peers)
    | none =>
      let peers := resetWeights peers
      (checkedScanPeers peers peers.number).map (fun found => (found.getD 0, peers)))

@[grind =] def checkedFirstLoop (now : ℤ) : ℕ → Peers → Request → Option (Bool × Peers × Request)
  | 0, peers, r => some (false, peers, r)
  | i+1, peers, r =>
    (checkedGetPeer peers).bind (fun (current, peers) =>
      (checkedPeer peers current).bind (fun _ =>
        let (found, peers, r) := look now peers { r with current := current }
        if found then some (true, peers, r)
        else if r.tries = 0 then some (false, peers, r)
        else checkedFirstLoop now i peers r))

@[grind =] def checkedNextLoop (now : ℤ) : ℕ → Peers → Request → Option (Bool × Peers × Request)
  | 0, peers, r => some (false, peers, r)
  | i+1, peers, r =>
    (checkedPeer peers r.current).bind (fun _ =>
      let (found, peers, r) := look now peers r
      if found then some (true, peers, r)
      else
        let r := { r with current := if r.current+1 ≥ peers.number then 0 else r.current+1 }
        if r.tries = 0 then some (false, peers, r)
        else checkedNextLoop now i peers r)

def checkedSearchPeers (now : ℤ) (peers : Peers) (r : Request) : Option (Bool × Peers × Request) :=
  if r.tries = peers.number then checkedFirstLoop now (rounds r.tries) peers r
  else checkedNextLoop now (rounds r.tries) peers r

def checkedGetFrom (now : ℤ) (peers : Peers) (next : Option Peers) (r : Request) :
    Option (Bool × Peers × Request) :=
  if peers.lastCached ≠ 0 then some (true, { peers with lastCached := peers.lastCached-1 }, r)
  else if peers.single then (checkedPeer peers 0).map (fun _ => (true, peers, addBackup next r))
  else
    (checkedSearchPeers now peers r).map (fun (found, peers, r) =>
      if found then
        let peer := peers.peer r.current
        (true, peers.set r.current { peer with currentWeight := peer.currentWeight-1 },
          addBackup next { r with tried := Function.update r.tried r.current true })
      else (false, peers, r))

def checkedGetLast (now : ℤ) (peers : Peers) (r : Request) : Option (Rc × Peers × Request) :=
  (checkedGetFrom now peers none r).map (fun (found, peers, r) =>
    if found then (.ok, peers, r) else (.busy, markLive peers, r))

def checkedGetRoundRobinPeer (now : ℤ) (up : Upstream) (r : Request) :
    Option (Rc × Upstream × Request) :=
  match up.next with
  | none => (checkedGetLast now up.peers r).map (fun (rc, peers, r) => (rc, ⟨peers,none⟩, r))
  | some backup =>
    if r.onBackup then
      (checkedGetLast now backup r).map (fun (rc, backup, r) => (rc, ⟨up.peers,some backup⟩, r))
    else
      (checkedGetFrom now up.peers (some backup) r).bind (fun (found, peers, r) =>
        if found then some (.ok, ⟨peers,some backup⟩, r)
        else
          let r := clearTried backup.number { r with onBackup := true, tries := backup.number }
          (checkedGetLast now backup r).map (fun (rc, backup, r) =>
            if rc = .ok then (.ok, ⟨peers,some backup⟩, r)
            else (.busy, ⟨markLive peers,some backup⟩, r)))

def checkedGetIpHashPeer (now : ℤ) (up : Upstream) (r : Request) :
    Option (Rc × Upstream × Request) :=
  if r.hashTries > 20 ∨ (up.list r).single then checkedGetRoundRobinPeer now up r
  else if (up.list r).number = 0 then none
  else
    let (found, peers, r) :=
      hashLoop now (if r.hashTries < 20 then 20-r.hashTries else 1) r.hash (up.list r) r
    let up := up.setList r peers
    if found then some (.ok, up, r) else checkedGetRoundRobinPeer now up r

structure Weighed (peers : Peers) : Prop where
  weight : ∀ i < peers.number, 0 ≤ (peers.peer i).weight
  current : ∀ i < peers.number, (peers.peer i).currentWeight ≤ (peers.peer i).weight

section Weighed
variable (now : ℤ) (peers : Peers) (r : Request)

theorem peer_set_self (i : ℕ) (peer : Peer) : (peers.set i peer).peer i = peer :=
  Function.update_self ..

theorem peer_set_of_ne (i j : ℕ) (peer : Peer) (h : j ≠ i) : (peers.set i peer).peer j = peers.peer j :=
  Function.update_of_ne h ..

theorem weighed_set (i : ℕ) (peer : Peer) (h : Weighed peers) (hw : peer.weight = (peers.peer i).weight)
    (hc : i < peers.number → peer.currentWeight ≤ peer.weight) : Weighed (peers.set i peer) := by
  refine ⟨fun j hj => ?_,fun j hj => ?_⟩
  · by_cases he : j = i
    · subst he
      rw [peer_set_self, hw]
      exact h.weight j hj
    · rw [peer_set_of_ne _ _ _ _ he]
      exact h.weight j hj
  · by_cases he : j = i
    · subst he
      rw [peer_set_self]
      exact hc hj
    · rw [peer_set_of_ne _ _ _ _ he]
      exact h.current j hj

theorem reset_weighed (h : Weighed peers) : Weighed (resetWeights peers) :=
  ⟨h.weight,fun _ _ => Int.le_refl _⟩

theorem mark_weighed (h : Weighed peers) : Weighed (markLive peers) := ⟨h.weight,h.current⟩

theorem look_weighed (h : Weighed peers) : Weighed (look now peers r).2.1 := by
  rw [look]
  split_ifs
  · exact h
  · exact h
  · exact h
  · exact weighed_set peers r.current _ h rfl (fun hi => h.current r.current hi)
  · exact weighed_set peers r.current _ h rfl (fun hi => h.weight r.current hi)

theorem get_peer_weighed (h : Weighed peers) : Weighed (ngxHttpUpstreamGetPeer peers).2 := by
  rw [ngxHttpUpstreamGetPeer]
  split
  · exact h
  · simp only
    split <;> exact reset_weighed peers h

theorem hash_loop_weighed (k hash : ℕ) (h : Weighed peers) : Weighed (hashLoop now k hash peers r).2.1 := by
  induction k generalizing hash r with
  | zero => exact h
  | succ k ih =>
    simp only [hashLoop]
    split_ifs
    · exact ih _ _
    · exact ih _ _
    · exact h
    · exact weighed_set peers _ _ h rfl (fun hi => h.current _ hi)
    · exact ih _ _

theorem hash_loop_searched (k hash : ℕ) (hc : r.current < peers.number) :
    Searched peers r (hashLoop now k hash peers r) := by
  induction k generalizing hash r with
  | zero => exact ⟨servers_refl peers,hc,rfl⟩
  | succ k ih =>
    have hp : hashAddr hash r.addr % peers.number < peers.number := Nat.mod_lt _ (Nat.zero_lt_of_lt hc)
    simp only [hashLoop]
    split_ifs
    · obtain ⟨hs,hcurrent,hb⟩ := ih { r with hashTries := r.hashTries+1 } (hashAddr hash r.addr) hc
      exact ⟨hs,hcurrent,hb⟩
    · obtain ⟨hs,hcurrent,hb⟩ := ih { r with
        tried := Function.update r.tried (hashAddr hash r.addr % peers.number) true,
        tries := decr r.tries, hashTries := r.hashTries+1 } (hashAddr hash r.addr) hc
      exact ⟨hs,hcurrent,hb⟩
    · exact ⟨servers_refl peers,hp,rfl⟩
    · exact ⟨servers_set peers _ _ rfl rfl,hp,rfl⟩
    · obtain ⟨hs,hcurrent,hb⟩ := ih { r with
        tried := Function.update r.tried (hashAddr hash r.addr % peers.number) true,
        tries := decr r.tries, hashTries := r.hashTries+1 } (hashAddr hash r.addr) hc
      exact ⟨hs,hcurrent,hb⟩

theorem checked_per_mille (one two : ℤ) (h : two ≠ 0) : checkedPerMille one two = some (perMille one two) :=
  if_neg h

theorem checked_ahead (n i : ℕ) (h : Weighed peers) (hi : i < peers.number)
    (hpos : 0 < (peers.peer i).currentWeight) : checkedAhead peers n i = some (ahead peers n i) := by
  have hle := h.current i hi
  rw [checkedAhead, checked_per_mille _ _ (by omega), checked_per_mille _ _ (by omega)]
  rfl

theorem checked_peer (i : ℕ) (hi : i < peers.number) : checkedPeer peers i = some (peers.peer i) := if_pos hi

theorem checked_scan_ahead (k i n : ℕ) (h : Weighed peers) (hi : i+k < peers.number) :
    checkedScanAhead peers k i n = some (scanAhead peers k i n) := by
  induction k generalizing i n with
  | zero =>
    rw [checkedScanAhead, checked_peer peers i hi]
    rfl
  | succ k ih =>
    rw [checkedScanAhead, scanAhead, checked_peer peers (i+1) (by omega), Option.bind_some]
    by_cases hw : (peers.peer (i+1)).currentWeight ≤ 0
    · rw [if_pos hw, if_pos hw]
      exact ih (i+1) n (by omega)
    rw [if_neg hw, if_neg hw, checked_ahead peers n (i+1) h (by omega) (by omega), Option.bind_some]
    split_ifs
    · rfl
    · exact ih (i+1) (i+1) (by omega)

theorem checked_scan_peers (k : ℕ) (h : Weighed peers) (hk : k ≤ peers.number) :
    checkedScanPeers peers k = some (scanPeers peers k) := by
  induction k with
  | zero => rfl
  | succ k ih =>
    rw [checkedScanPeers, scanPeers, checked_peer peers _ (by omega)]
    simp only [Option.bind_some]
    by_cases hw : (peers.peer (peers.number-(k+1))).currentWeight ≤ 0
    · rw [if_pos hw, if_pos hw]
      exact ih (by omega)
    · rw [if_neg hw, if_neg hw, checked_scan_ahead peers k _ _ h (by omega)]
      rfl

theorem checked_get_peer (h : Weighed peers) : checkedGetPeer peers = some (ngxHttpUpstreamGetPeer peers) := by
  rw [checkedGetPeer, ngxHttpUpstreamGetPeer, checked_scan_peers peers _ h (Nat.le_refl _), Option.bind_some]
  cases scanPeers peers peers.number with
  | some n => rfl
  | none =>
    simp only
    rw [checked_scan_peers (resetWeights peers) _ (reset_weighed peers h) (Nat.le_refl _), Option.map_some]
    cases scanPeers (resetWeights peers) (resetWeights peers).number with
    | some n => rfl
    | none => rfl

structure Safe (checked : Option (Bool × Peers × Request)) (out : Bool × Peers × Request) : Prop where
  same : checked = some out
  weighed : Weighed out.2.1

theorem first_loop_safe (k : ℕ) (h : Weighed peers) (hpos : 0 < peers.number) :
    Safe (checkedFirstLoop now k peers r) (firstLoop now k peers r) := by
  induction k generalizing peers r with
  | zero => exact ⟨rfl,h⟩
  | succ k ih =>
    obtain ⟨hp,hsame⟩ := get_peer_place peers hpos
    have hp' : (ngxHttpUpstreamGetPeer peers).1 < (ngxHttpUpstreamGetPeer peers).2.number := by
      rw [hsame.number]
      exact hp
    have hservers := (look_searched now (ngxHttpUpstreamGetPeer peers).2
      { r with current := (ngxHttpUpstreamGetPeer peers).1 } hp').servers
    have hweighed := look_weighed now (ngxHttpUpstreamGetPeer peers).2
      { r with current := (ngxHttpUpstreamGetPeer peers).1 } (get_peer_weighed peers h)
    simp only [checkedFirstLoop, firstLoop, checked_get_peer peers h, checked_peer _ _ hp', Option.bind_some]
    split_ifs
    · exact ⟨rfl,hweighed⟩
    · exact ⟨rfl,hweighed⟩
    · exact ih _ _ hweighed (by rw [hservers.number, hsame.number]; exact hpos)

theorem next_loop_safe (k : ℕ) (h : Weighed peers) (hc : r.current < peers.number) :
    Safe (checkedNextLoop now k peers r) (nextLoop now k peers r) := by
  induction k generalizing peers r with
  | zero => exact ⟨rfl,h⟩
  | succ k ih =>
    obtain ⟨hservers,hcurrent,-⟩ := look_searched now peers r hc
    have hweighed := look_weighed now peers r h
    have hwrap : (if (look now peers r).2.2.current+1 ≥ (look now peers r).2.1.number then 0
        else (look now peers r).2.2.current+1) < (look now peers r).2.1.number := by
      rw [hservers.number]
      split_ifs <;> omega
    simp only [checkedNextLoop, nextLoop, checked_peer _ _ hc, Option.bind_some]
    generalize (if (look now peers r).2.2.current+1 ≥ (look now peers r).2.1.number then 0
      else (look now peers r).2.2.current+1) = current at hwrap ⊢
    split_ifs
    · exact ⟨rfl,hweighed⟩
    · exact ⟨rfl,hweighed⟩
    · exact ih (look now peers r).2.1 { (look now peers r).2.2 with current := current } hweighed hwrap

theorem get_from_safe (next : Option Peers) (h : Weighed peers) (hpos : 0 < peers.number)
    (hc : r.tries ≠ peers.number → r.current < peers.number) :
    Safe (checkedGetFrom now peers next r) (getFrom now peers next r) := by
  have hsearch : Safe (checkedSearchPeers now peers r) (searchPeers now peers r) := by
    rw [checkedSearchPeers, searchPeers]
    split_ifs with htries
    · exact first_loop_safe now peers r _ h hpos
    · exact next_loop_safe now peers r _ h (hc htries)
  simp only [checkedGetFrom, getFrom, hsearch.same, checked_peer peers 0 hpos, Option.map_some]
  split_ifs
  · exact ⟨rfl,h.weight,h.current⟩
  · exact ⟨rfl,h⟩
  · refine ⟨rfl,weighed_set _ _ _ hsearch.weighed rfl (fun hi => ?_)⟩
    have hle := hsearch.weighed.current _ hi
    exact Int.le_trans (Int.sub_le_self _ (by decide)) hle
  · exact ⟨rfl,hsearch.weighed⟩

theorem get_last_safe (h : Weighed peers) (hpos : 0 < peers.number)
    (hc : r.tries ≠ peers.number → r.current < peers.number) :
    checkedGetLast now peers r = some (getLast now peers r) ∧ Weighed (getLast now peers r).2.1 := by
  obtain ⟨hsame,hweighed⟩ := get_from_safe now peers r none h hpos hc
  simp only [checkedGetLast, getLast, hsame, Option.map_some]
  split_ifs
  · exact ⟨trivial,hweighed⟩
  · exact ⟨trivial,mark_weighed _ hweighed⟩

end Weighed

structure AllWeighed (up : Upstream) : Prop where
  primary : Weighed up.peers
  backup : ∀ backup, up.next = some backup → Weighed backup

section Calls
variable (now : ℤ) (up : Upstream) (r : Request)

theorem list_weighed (h : AllWeighed up) (hfits : Fits up r) : Weighed (up.list r) := by
  rw [Upstream.list]
  split_ifs with hon
  · cases hnext : up.next with
    | none => exact absurd hnext (hfits.onBackup hon)
    | some backup => exact h.backup backup hnext
  · exact h.primary

theorem set_list_weighed (peers : Peers) (h : AllWeighed up) (hp : Weighed peers) :
    AllWeighed (up.setList r peers) := by
  rw [Upstream.setList]
  split_ifs
  · refine ⟨h.primary,fun backup hb => ?_⟩
    cases hb
    exact hp
  · exact ⟨hp,h.backup⟩

theorem get_safe (h : AllWeighed up) (hfits : Fits up r) :
    checkedGetRoundRobinPeer now up r = some (ngxHttpUpstreamGetRoundRobinPeer now up r) ∧
      AllWeighed (ngxHttpUpstreamGetRoundRobinPeer now up r).2.1 := by
  obtain ⟨peers,next⟩ := up
  have hcurrent := hfits.current
  cases next with
  | none =>
    have hoff : r.onBackup = false := by
      by_contra hb
      exact hfits.onBackup (by simpa using hb) rfl
    rw [Upstream.list, hoff, if_neg Bool.false_ne_true] at hcurrent
    obtain ⟨hsame,hweighed⟩ := get_last_safe now peers r h.primary hfits.primary.number (fun _ => hcurrent)
    simp only [checkedGetRoundRobinPeer, ngxHttpUpstreamGetRoundRobinPeer, hsame, Option.map_some]
    exact ⟨trivial,hweighed,by rintro _ ⟨⟩⟩
  | some backup =>
    have hb := h.backup backup rfl
    have hp : Weighed peers := h.primary
    have hnumber := (hfits.backup backup rfl).1.number
    simp only [checkedGetRoundRobinPeer, ngxHttpUpstreamGetRoundRobinPeer]
    by_cases hon : r.onBackup = true
    · rw [Upstream.list, if_pos hon] at hcurrent
      obtain ⟨hsame,hweighed⟩ := get_last_safe now backup r hb hnumber (fun _ => hcurrent)
      rw [if_pos hon, if_pos hon, hsame, Option.map_some]
      refine ⟨rfl,hp,fun backup' hb' => ?_⟩
      cases hb'
      exact hweighed
    rw [Upstream.list, if_neg hon] at hcurrent
    obtain ⟨hsame,hweighed⟩ := get_from_safe now peers r (some backup) hp hfits.primary.number
      (fun _ => hcurrent)
    rw [if_neg hon, if_neg hon, hsame, Option.bind_some]
    have hkept : ∀ backup', some backup = some backup' → Weighed backup' := by
      intro backup' hb'
      cases hb'
      exact hb
    by_cases hfound : (getFrom now peers (some backup) r).1 = true
    · simp only [hfound, if_true]
      exact ⟨trivial,hweighed,hkept⟩
    simp only [hfound, Bool.false_eq_true, if_false]
    obtain ⟨hlast,hweighed'⟩ := get_last_safe now backup (clearTried backup.number
      { (getFrom now peers (some backup) r).2.2 with onBackup := true, tries := backup.number })
      hb hnumber (fun hne => absurd rfl hne)
    rw [hlast, Option.map_some]
    have hbackup : ∀ backup', some (getLast now backup (clearTried backup.number
        { (getFrom now peers (some backup) r).2.2 with onBackup := true, tries := backup.number })).2.1 =
        some backup' → Weighed backup' := by
      intro backup' hb'
      cases hb'
      exact hweighed'
    split_ifs
    · exact ⟨rfl,hweighed,hbackup⟩
    · exact ⟨rfl,mark_weighed _ hweighed,hbackup⟩

theorem hash_fits (k : ℕ) (hfits : Fits up r) :
    Fits (up.setList (hashLoop now k r.hash (up.list r) r).2.2 (hashLoop now k r.hash (up.list r) r).2.1)
      (hashLoop now k r.hash (up.list r) r).2.2 := by
  obtain ⟨hs,hc,hb⟩ := hash_loop_searched now (up.list r) r k r.hash hfits.current
  generalize hashLoop now k r.hash (up.list r) r = out at hs hc hb ⊢
  have hlist : up.list out.2.2 = up.list r := by rw [Upstream.list, Upstream.list, hb]
  have hset : up.setList out.2.2 out.2.1 = up.setList r out.2.1 := by
    rw [Upstream.setList, Upstream.setList, hb]
  rw [hset]
  exact fits_after up _ r _ hfits (set_list_upstream up r out.2.1 hfits hs) (hlist ▸ hc)
    (fun hon => hfits.onBackup (hb ▸ hon))

theorem get_hash_safe (h : AllWeighed up) (hfits : Fits up r) :
    checkedGetIpHashPeer now up r = some (ngxHttpUpstreamGetIpHashPeer now up r) ∧
      AllWeighed (ngxHttpUpstreamGetIpHashPeer now up r).2.1 := by
  rw [checkedGetIpHashPeer, ngxHttpUpstreamGetIpHashPeer]
  by_cases hplain : r.hashTries > 20 ∨ (up.list r).single
  · rw [if_pos hplain, if_pos hplain]
    exact get_safe now up r h hfits
  have hnumber : 0 < (up.list r).number := Nat.zero_lt_of_lt hfits.current
  rw [if_neg hplain, if_neg hplain, if_neg (by omega)]
  generalize hk : (if r.hashTries < 20 then 20-r.hashTries else 1) = k
  have hweighed := set_list_weighed up (hashLoop now k r.hash (up.list r) r).2.2 _ h
    (hash_loop_weighed now (up.list r) r k r.hash (list_weighed up r h hfits))
  have hafter := hash_fits now up r k hfits
  simp only
  split_ifs
  · exact ⟨rfl,hweighed⟩
  · exact get_safe now _ _ hweighed hafter

theorem free_weighed (state : FreeState) (h : AllWeighed up) (hfits : Fits up r) :
    AllWeighed (ngxHttpUpstreamFreeRoundRobinPeer now up r state).1 := by
  have hlist := list_weighed up r h hfits
  have hplace := hfits.current
  have hw := hlist.weight _ hplace
  have hc := hlist.current _ hplace
  rw [ngxHttpUpstreamFreeRoundRobinPeer]
  by_cases hdone : state.failed = false ∧ state.next = false ∧ r.tries = 0
  · rw [if_pos hdone]
    exact h
  rw [if_neg hdone]
  by_cases hsingle : (up.list r).single = true
  · rw [if_pos hsingle]
    exact h
  rw [if_neg hsingle]
  refine set_list_weighed up r _ h ?_
  by_cases hfailed : state.failed = true
  · simp only [hfailed, if_true]
    refine weighed_set _ _ _ hlist rfl (fun _ => ?_)
    have hdiv : 0 ≤ ((up.list r).peer r.current).weight/(((up.list r).peer r.current).maxFails : ℤ) :=
      Int.ediv_nonneg hw (by omega)
    simp only
    split_ifs <;> omega
  · simp only [hfailed, Bool.false_eq_true, if_false]
    exact hlist

end Calls

theorem call_weighed (s : State) (k : ℕ) (c : Call) (h : Inv s) (hw : AllWeighed s.up) :
    AllWeighed (s.call k c).up := by
  cases c with
  | start addr => exact hw
  | get now =>
    cases hr : s.requests k with
    | none =>
      simp only [State.call, hr]
      exact hw
    | some r =>
      simp only [State.call, hr]
      exact (get_safe now s.up r hw (h.fits k r hr)).2
  | getIpHash now =>
    cases hr : s.requests k with
    | none =>
      simp only [State.call, hr]
      exact hw
    | some r =>
      simp only [State.call, hr]
      exact (get_hash_safe now s.up r hw (h.fits k r hr)).2
  | free now state =>
    cases hr : s.requests k with
    | none =>
      simp only [State.call, hr]
      exact hw
    | some r =>
      simp only [State.call, hr]
      exact free_weighed now s.up r state hw (h.fits k r hr)

theorem peers_of_weighed (single : Bool) (peers : List Peer)
    (h : ∀ p ∈ peers, 0 ≤ p.weight ∧ p.currentWeight = p.weight) : Weighed (peersOf single peers) := by
  have hget : ∀ i < peers.length, (peersOf single peers).peer i ∈ peers := by
    intro i hi
    show peers.getD i default ∈ peers
    rw [List.getD_eq_getElem?_getD, List.getElem?_eq_getElem hi, Option.getD_some]
    exact List.getElem_mem hi
  exact ⟨fun i hi => (h _ (hget i hi)).1,fun i hi => le_of_eq (h _ (hget i hi)).2⟩

theorem init_weighed (servers : List Server) (h : ∀ server ∈ servers, 0 < server.weight) :
    AllWeighed (ngxHttpUpstreamInitRoundRobin servers) := by
  have hprimary : ∀ p ∈ ngxSort (primaries servers), 0 ≤ p.weight ∧ p.currentWeight = p.weight := by
    intro p hp
    obtain ⟨server,hs,hp⟩ := List.mem_flatMap.mp ((sort_mem p _).mp hp)
    have hpos := h server (List.mem_filter.mp hs).1
    rw [(List.mem_replicate.mp hp).2, primaryPeer]
    simp only
    split_ifs
    · exact ⟨Int.le_refl _,trivial⟩
    · exact ⟨Int.le_of_lt hpos,trivial⟩
  have hbackup : ∀ p ∈ ngxSort (backups servers), 0 ≤ p.weight ∧ p.currentWeight = p.weight := by
    intro p hp
    obtain ⟨server,hs,hp⟩ := List.mem_flatMap.mp ((sort_mem p _).mp hp)
    have hpos := h server (List.mem_filter.mp hs).1
    rw [(List.mem_replicate.mp hp).2]
    exact ⟨Int.le_of_lt hpos,rfl⟩
  simp only [ngxHttpUpstreamInitRoundRobin]
  split_ifs
  · exact ⟨peers_of_weighed _ _ hprimary,by rintro _ ⟨⟩⟩
  · refine ⟨peers_of_weighed _ _ hprimary,fun backup hb => ?_⟩
    cases hb
    exact peers_of_weighed _ _ hbackup

theorem implicit_weighed (naddrs : ℕ) : AllWeighed (implicitUpstream naddrs) := by
  refine ⟨peers_of_weighed _ _ (fun p hp => ?_),nofun⟩
  rw [(List.mem_replicate.mp hp).2]
  decide

theorem reached_weighed (s : State) (h : Reached s) : AllWeighed s.up := by
  induction h with
  | init servers hweight hserver => exact init_weighed servers hweight
  | implicit naddrs h => exact implicit_weighed naddrs
  | call s k c h ih => exact call_weighed s k c (reached_inv s h) ih

end Nginx.RoundRobinChecks
