import Nginx.RoundRobin
import Nginx.Rotation

/-!
# Whose turn it is

A first try asks for peers in the order of `offers`, by the ratio of the current weight to
the weight, where a peer that is refused loses its current weight. A later try goes
through the peers behind the current one. Both stop at the first available peer, and
a first try gets no further than the first peer that is down or has been tried.
-/

set_option autoImplicit false

namespace Nginx.RoundRobinTurns
open Nginx.RoundRobin Nginx.Rotation

/-- Not down, and not over `max_fails` within `fail_timeout`. -/
def Alive (now : ℤ) (peer : Peer) : Prop := peer.down = false ∧
  (peer.maxFails = 0 ∨ peer.fails < peer.maxFails ∨ now-peer.accessed > peer.failTimeout)

def Available (now : ℤ) (peers : Peers) (tried : ℕ → Bool) (i : ℕ) : Prop :=
  tried i = false ∧ Alive now (peers.peer i)

instance (now : ℤ) (peer : Peer) : Decidable (Alive now peer) := inferInstanceAs (Decidable (_ ∧ _))

instance (now : ℤ) (peers : Peers) (tried : ℕ → Bool) (i : ℕ) :
    Decidable (Available now peers tried i) := inferInstanceAs (Decidable (_ ∧ _))

def Refused (now : ℤ) (peers : Peers) (tried : ℕ → Bool) (i : ℕ) : Prop :=
  tried i = false ∧ (peers.peer i).down = false ∧ ¬ Alive now (peers.peer i)

def liveFrom (peers : Peers) (s k : ℕ) : List ℕ :=
  (List.range' s k).filter (fun i => 0 < (peers.peer i).currentWeight)

def live (peers : Peers) : List ℕ := liveFrom peers 0 peers.number

variable (peers : Peers)

theorem live_from_succ (s k : ℕ) :
    liveFrom peers s (k+1) =
    if (peers.peer s).currentWeight ≤ 0 then liveFrom peers (s+1) k
    else s::liveFrom peers (s+1) k := by
  rw [liveFrom, List.range'_succ, List.filter_cons]
  by_cases h : (peers.peer s).currentWeight ≤ 0
  · rw [if_pos h, if_neg (by simpa using h)]
    rfl
  · rw [if_neg h, if_pos (by simpa using h)]
    rfl

variable (k i : ℕ)

theorem scan_ahead_front (n : ℕ) (h : (peers.peer i).currentWeight > 0 → n = i) :
    scanAhead peers k i n = front (ahead peers) n (liveFrom peers (i+1) k) := by
  induction k generalizing i n with
  | zero =>
    rw [scanAhead]
    split_ifs with hi
    · exact (h hi).symm
    · rfl
  | succ k ih =>
    rw [scanAhead, live_from_succ]
    by_cases hw : (peers.peer (i+1)).currentWeight ≤ 0
    · rw [if_pos hw, if_pos hw]
      exact ih (i+1) n (fun hpos => absurd hpos (by omega))
    rw [if_neg hw, if_neg hw, front]
    split_ifs
    · rfl
    · exact ih (i+1) (i+1) (fun _ => rfl)

theorem scan_peers_front :
    scanPeers peers peers.number =
    match live peers with
    | [] => none
    | n::rest => some (front (ahead peers) n rest) := by
  have hscan : ∀ k s, s+k = peers.number → scanPeers peers k =
      match liveFrom peers s k with
      | [] => none
      | n::rest => some (front (ahead peers) n rest) := by
    intro k
    induction k with
    | zero => exact fun s _ => rfl
    | succ k ih =>
      intro s hs
      rw [scanPeers, show peers.number-(k+1) = s by omega, live_from_succ]
      by_cases hw : (peers.peer s).currentWeight ≤ 0
      · simp only [hw, if_true]
        exact ih (s+1) (by omega)
      · simp only [hw, if_false]
        rw [scan_ahead_front peers k s s (fun _ => rfl)]
  exact hscan peers.number 0 (Nat.zero_add _)

theorem get_peer_live (n : ℕ) (rest : List ℕ) (h : live peers = n::rest) :
    ngxHttpUpstreamGetPeer peers = (front (ahead peers) n rest, peers) := by
  rw [ngxHttpUpstreamGetPeer, scan_peers_front, h]

theorem get_peer_reset (h : live peers = []) :
    ngxHttpUpstreamGetPeer peers = (match live (resetWeights peers) with
      | [] => 0
      | n::rest => front (ahead (resetWeights peers)) n rest, resetWeights peers) := by
  rw [ngxHttpUpstreamGetPeer, scan_peers_front, h]
  simp only
  rw [scan_peers_front]
  cases live (resetWeights peers) with
  | nil => rfl
  | cons n rest => rfl

section Look
variable (now : ℤ) (peers : Peers) (r : Request)

theorem look_tried (h : r.tried r.current = true) : look now peers r = (false, peers, r) := by
  simp [look, h]

theorem look_down (h : r.tried r.current = false) (hdown : (peers.peer r.current).down = true) :
    look now peers r = (false, peers,
      { r with tried := Function.update r.tried r.current true, tries := decr r.tries }) := by
  simp [look, h, hdown]

theorem look_available (h : Available now peers r.tried r.current) :
    (look now peers r).1 = true := by
  obtain ⟨htried,hdown,hlive⟩ := h
  simp only [look, htried, hdown, Bool.false_eq_true, if_false]
  split_ifs with hfails htime
  · rfl
  · rfl
  · exact absurd hlive (fun hl => hl.elim (fun h => hfails (Or.inl h))
      (fun h => h.elim (fun h => hfails (Or.inr h)) htime))

theorem look_refused (h : Refused now peers r.tried r.current) :
    look now peers r = (false, peers.set r.current { peers.peer r.current with currentWeight := 0 },
      { r with tries := decr r.tries }) := by
  obtain ⟨htried,hdown,hlive⟩ := h
  have hfails : ¬ ((peers.peer r.current).maxFails = 0 ∨
      (peers.peer r.current).fails < (peers.peer r.current).maxFails) :=
    fun hf => hlive ⟨hdown,hf.elim Or.inl (fun h => Or.inr (Or.inl h))⟩
  have htime : ¬ now-(peers.peer r.current).accessed > (peers.peer r.current).failTimeout :=
    fun ht => hlive ⟨hdown,Or.inr (Or.inr ht)⟩
  simp [look, htried, hdown, hfails, htime]

end Look

variable (now : ℤ)

theorem available_xor (peers : Peers) (tried : ℕ → Bool) (i : ℕ) (h : Available now peers tried i) :
    ¬ Refused now peers tried i :=
  fun hr => hr.2.2 h.2

structure SameServers (peers peers' : Peers) : Prop where
  number : peers'.number = peers.number
  single : peers'.single = peers.single
  cached : peers'.lastCached = peers.lastCached
  weight : ∀ i, (peers'.peer i).weight = (peers.peer i).weight
  down : ∀ i, (peers'.peer i).down = (peers.peer i).down

structure SamePeers (peers peers' : Peers) : Prop extends SameServers peers peers' where
  alive : ∀ now i, Alive now (peers'.peer i) ↔ Alive now (peers.peer i)

variable (peers' : Peers)

theorem servers_trans (peers'' : Peers) (h : SameServers peers peers')
    (h' : SameServers peers' peers'') : SameServers peers peers'' :=
  ⟨h'.number.trans h.number,h'.single.trans h.single,h'.cached.trans h.cached,fun i => (h'.weight i).trans (h.weight i),
    fun i => (h'.down i).trans (h.down i)⟩

theorem servers_set (peer : Peer) (hw : peer.weight = (peers.peer i).weight)
    (hd : peer.down = (peers.peer i).down) : SameServers peers (peers.set i peer) := by
  refine ⟨rfl,rfl,rfl,fun j => ?_,fun j => ?_⟩
  · by_cases hj : j = i
    · subst hj
      simp [Peers.set, hw]
    · simp [Peers.set, hj]
  · by_cases hj : j = i
    · subst hj
      simp [Peers.set, hd]
    · simp [Peers.set, hj]

theorem same_available (peers peers' : Peers) (tried : ℕ → Bool) (h : SamePeers peers peers') :
    Available now peers' tried = Available now peers tried := by
  funext i
  rw [Available, Available, h.alive]

theorem same_refused (peers peers' : Peers) (tried : ℕ → Bool) (h : SamePeers peers peers') :
    Refused now peers' tried = Refused now peers tried := by
  funext i
  rw [Refused, Refused, h.alive, h.down]

theorem same_reset : SamePeers peers (resetWeights peers) :=
  ⟨⟨rfl,rfl,rfl,fun _ => rfl,fun _ => rfl⟩,fun _ _ => Iff.rfl⟩

theorem same_set (w : ℤ) :
    SamePeers peers (peers.set i { peers.peer i with currentWeight := w }) := by
  refine ⟨servers_set peers i _ rfl rfl,fun now j => ?_⟩
  by_cases hj : j = i
  · subst hj
    simp [Peers.set, Alive]
  · simp [Peers.set, hj]

theorem live_set :
    live (peers.set i { peers.peer i with currentWeight := 0 }) = (live peers).erase i := by
  have hnodup : (live peers).Nodup := (List.nodup_range' ..).filter _
  rw [hnodup.erase_eq_filter, live, live, liveFrom, liveFrom, List.filter_filter]
  refine List.filter_congr (fun j _ => ?_)
  by_cases hj : j = i
  · subst hj
    simp [Peers.set]
  · simp [Peers.set, hj]

theorem reset_set (w : ℤ) :
    resetWeights (peers.set i { peers.peer i with currentWeight := w }) = resetWeights peers := by
  rw [resetWeights, resetWeights]
  congr 1
  funext j
  by_cases hj : j = i
  · subst hj
    simp [Peers.set]
  · simp [Peers.set, hj]

theorem reset_reset : resetWeights (resetWeights peers) = resetWeights peers := rfl

theorem first_loop_stuck (k p : ℕ) (peers : Peers) (r : Request)
    (hp : ngxHttpUpstreamGetPeer peers = (p, peers)) (ht : r.tried p = true) :
    (firstLoop now k peers r).1 = false := by
  induction k generalizing r with
  | zero => rfl
  | succ k ih =>
    have hlook := look_tried now peers { r with current := p } ht
    simp only [firstLoop, hp, hlook, Bool.false_eq_true, if_false]
    split_ifs
    · rfl
    · exact ih _ ht

theorem first_loop_round (k p : ℕ) (peers peers' : Peers) (r : Request)
    (hp : ngxHttpUpstreamGetPeer peers = (p, peers'))
    (hstay : ngxHttpUpstreamGetPeer peers' = (p, peers')) (htries : k+1 ≤ r.tries) :
    (firstLoop now (k+1) peers r).1 = true ↔ Available now peers' r.tried p ∨
      Refused now peers' r.tried p ∧ (firstLoop now k
        (peers'.set p { peers'.peer p with currentWeight := 0 })
        { r with current := p, tries := r.tries-1 }).1 = true := by
  have hdecr : decr r.tries = r.tries-1 := by rw [decr, if_neg (by omega)]
  by_cases htried : r.tried p = true
  · have hstuck := first_loop_stuck now k p peers' { r with current := p } hstay htried
    have hlook := look_tried now peers' { r with current := p } htried
    simp only [firstLoop, hp, hlook, Bool.false_eq_true, if_false]
    rw [if_neg (by omega)]
    simp [hstuck, Available, Refused, htried]
  have htried : r.tried p = false := by simpa using htried
  by_cases hdown : (peers'.peer p).down = true
  · have hlook := look_down now peers' { r with current := p } htried hdown
    simp only [firstLoop, hp, hlook, Bool.false_eq_true, if_false]
    have hno : ¬ (Available now peers' r.tried p ∨ Refused now peers' r.tried p ∧ (firstLoop now k
        (peers'.set p { peers'.peer p with currentWeight := 0 })
        { r with current := p, tries := r.tries-1 }).1 = true) := by
      simp [Available, Refused, Alive, hdown]
    refine iff_of_false ?_ hno
    have hmarked : Function.update r.tried p true p = true := Function.update_self ..
    rw [Bool.not_eq_true]
    split_ifs
    · rfl
    · exact first_loop_stuck now k p peers' _ hstay hmarked
  have hdown : (peers'.peer p).down = false := by simpa using hdown
  by_cases halive : Alive now (peers'.peer p)
  · have hlook := look_available now peers' { r with current := p } ⟨htried,halive⟩
    simp only [firstLoop, hp, hlook, if_true]
    exact iff_of_true trivial (Or.inl ⟨htried,halive⟩)
  have hrefused : Refused now peers' r.tried p := ⟨htried,hdown,halive⟩
  have hlook := look_refused now peers' { r with current := p } hrefused
  simp only [firstLoop, hp, hlook, Bool.false_eq_true, if_false, hdecr]
  have hnot : ¬ Available now peers' r.tried p := fun h => halive h.2
  by_cases hend : r.tries-1 = 0
  · have hk : k = 0 := by omega
    subst hk
    simp [hend, hnot, firstLoop]
  · simp [hend, hnot, hrefused]

/-- Every peer that is not down has a weight, and no connection is cached. -/
structure Configured (peers : Peers) : Prop where
  number : 0 < peers.number
  cached : peers.lastCached = 0
  weight : ∀ i < peers.number, (peers.peer i).down = false → 0 < (peers.peer i).weight

theorem same_configured (h : SameServers peers peers') (hc : Configured peers) :
    Configured peers' :=
  ⟨h.number ▸ hc.number,h.cached.trans hc.cached,fun i hi hd => by
    rw [h.weight]
    rw [h.number] at hi
    rw [h.down] at hd
    exact hc.weight i hi hd⟩

theorem first_loop_none (k : ℕ) (peers : Peers) (r : Request) (hw : Configured peers)
    (h : live peers = []) (hall : live (resetWeights peers) = []) :
    (firstLoop now k peers r).1 = false := by
  cases k with
  | zero => rfl
  | succ k =>
    have hp : ngxHttpUpstreamGetPeer peers = (0, resetWeights peers) := by
      rw [get_peer_reset peers h, hall]
    have hstay : ngxHttpUpstreamGetPeer (resetWeights peers) = (0, resetWeights peers) := by
      rw [get_peer_reset _ hall, reset_reset, hall]
    have hdown : (peers.peer 0).down = true := by
      by_contra hup
      have hpos := hw.weight 0 hw.number (by simpa using hup)
      have hmem : 0 ∈ live (resetWeights peers) :=
        List.mem_filter.mpr ⟨List.mem_range'_1.mpr ⟨Nat.le_refl 0,by
          rw [Nat.zero_add]
          exact hw.number⟩,decide_eq_true hpos⟩
      rw [hall] at hmem
      cases hmem
    by_cases htried : r.tried 0 = true
    · have hlook := look_tried now (resetWeights peers) { r with current := 0 } htried
      simp only [firstLoop, hp, hlook, Bool.false_eq_true, if_false]
      split_ifs
      · rfl
      · exact first_loop_stuck now k 0 _ _ hstay htried
    have htried : r.tried 0 = false := by simpa using htried
    have hlook := look_down now (resetWeights peers) { r with current := 0 } htried hdown
    have hmarked : Function.update r.tried 0 true 0 = true := Function.update_self ..
    simp only [firstLoop, hp, hlook, Bool.false_eq_true, if_false]
    split_ifs
    · rfl
    · exact first_loop_stuck now k 0 _ _ hstay hmarked

/-- The offers that a first try with `k` rounds makes. -/
def turns (peers : Peers) (k : ℕ) : List ℕ :=
  offers (ahead peers) (live (resetWeights peers)) k (live peers)

theorem turns_lt : ∀ i ∈ turns peers k, i < peers.number := by
  intro i hi
  have hrange : ∀ peers' : Peers, peers'.number = peers.number → i ∈ live peers' →
      i < peers.number := by
    intro peers' hnumber hmem
    have hlt := (List.mem_range'_1.mp (List.mem_filter.mp hmem).1).2
    rwa [hnumber, Nat.zero_add] at hlt
  exact (offers_mem _ _ _ _ i hi).elim (hrange peers rfl) (hrange (resetWeights peers) rfl)

theorem first_loop_found (k : ℕ) (peers : Peers) (r : Request) (hw : Configured peers)
    (htries : k ≤ r.tries) :
    (firstLoop now k peers r).1 = true ↔
      Serves (Available now peers r.tried) (Refused now peers r.tried) (turns peers k) := by
  induction k generalizing peers r with
  | zero => simp [firstLoop, turns, offers, Serves]
  | succ k ih =>
    -- a round with a live peer in front
    have hround : ∀ peers n rest, Configured peers → live peers = n::rest → ∀ peers0,
        ngxHttpUpstreamGetPeer peers0 = (front (ahead peers) n rest, peers) →
        ((firstLoop now (k+1) peers0 r).1 = true ↔
          Serves (Available now peers r.tried) (Refused now peers r.tried) (turns peers (k+1))) := by
      intro peers n rest hw hlive peers0 hp0
      have hstay := get_peer_live peers n rest hlive
      rw [first_loop_round now k _ peers0 peers r hp0 hstay htries, turns, hlive, offers, Serves]
      have hsame := same_set peers (front (ahead peers) n rest) 0
      rw [ih _ { r with current := _, tries := r.tries-1 } (same_configured _ _ hsame.toSameServers hw)
        (by show k ≤ r.tries-1; omega), same_available now _ _ _ hsame, same_refused now _ _ _ hsame,
        turns, reset_set, live_set, hlive]
      rw [offers_congr _ (ahead peers) _ k _ (fun x hx y hy => ?_)]
      have hnodup : (n::rest).Nodup := hlive ▸ (List.nodup_range' ..).filter _
      have hx := (hnodup.mem_erase_iff.mp hx).1
      have hy := (hnodup.mem_erase_iff.mp hy).1
      simp [ahead, Peers.set, hx, hy]
    cases hlive : live peers with
    | cons n rest => exact hround peers n rest hw hlive peers (get_peer_live peers n rest hlive)
    | nil =>
      cases hall : live (resetWeights peers) with
      | nil =>
        simp [first_loop_none now (k+1) peers r hw hlive hall, turns, hlive, hall, offers, Serves]
      | cons n rest =>
        have hp := get_peer_reset peers hlive
        rw [hall] at hp
        have hsame := same_reset peers
        have hnodup : (live (resetWeights peers)).Nodup := (List.nodup_range' ..).filter _
        have hlevel : ∀ x ∈ live (resetWeights peers), ∀ y ∈ live (resetWeights peers),
            ahead (resetWeights peers) x y = false :=
          fun x _ y _ => decide_eq_false (lt_irrefl _)
        rw [hround (resetWeights peers) n rest (same_configured _ _ hsame.toSameServers hw) hall peers hp,
          same_available now _ _ _ hsame, same_refused now _ _ _ hsame, turns, reset_reset,
          offers_level _ _ _ _ hnodup hlevel,
          serves_again _ _ _ _ _ (available_xor now peers r.tried) (fun y hy => Or.inl hy), turns,
          hlive]
        rfl

theorem look_passed (peers : Peers) (r : Request) (h : ¬ Available now peers r.tried r.current) :
    ∃ peers' r',
      look now peers r = (false, peers', r') ∧ SamePeers peers peers' ∧ r'.current = r.current ∧
      (∀ i, Available now peers' r'.tried i ↔ Available now peers r.tried i) ∧
      r'.tries = if r.tried r.current then r.tries else decr r.tries := by
  have hrefl : SamePeers peers peers := ⟨⟨rfl,rfl,rfl,fun _ => rfl,fun _ => rfl⟩,fun _ _ => Iff.rfl⟩
  by_cases htried : r.tried r.current = true
  · rw [if_pos htried]
    exact ⟨peers,r,look_tried now peers r htried,hrefl,rfl,fun _ => Iff.rfl,rfl⟩
  rw [if_neg htried]
  have htried : r.tried r.current = false := by simpa using htried
  by_cases hdown : (peers.peer r.current).down = true
  · refine ⟨peers,_,look_down now peers r htried hdown,hrefl,rfl,fun i => ?_,rfl⟩
    by_cases hi : i = r.current
    · subst hi
      simp [Available, Alive, hdown]
    · simp [Available, hi]
  have hdown : (peers.peer r.current).down = false := by simpa using hdown
  have hrefused : Refused now peers r.tried r.current :=
    ⟨htried,hdown,fun halive => h ⟨htried,halive⟩⟩
  have hsame := same_set peers r.current 0
  exact ⟨_,_,look_refused now peers r hrefused,hsame,rfl,
    fun i => by rw [same_available now _ _ _ hsame],rfl⟩

theorem next_loop_round (k : ℕ) (peers : Peers) (r : Request) (hc : r.current < peers.number)
    (h : ¬ Available now peers r.tried r.current) :
    ∃ peers' r', (nextLoop now (k+1) peers r).1 =
        (if r'.tries = 0 then false else (nextLoop now k peers' r').1) ∧
      SamePeers peers peers' ∧ r'.current = (r.current+1) % peers.number ∧
      (∀ i, Available now peers' r'.tried i ↔ Available now peers r.tried i) ∧
      r'.tries = if r.tried r.current then r.tries else decr r.tries := by
  obtain ⟨peers',r',hlook,hsame,hcurrent,havail,htries⟩ := look_passed now peers r h
  have hnext : (if r'.current+1 ≥ peers'.number then 0 else r'.current+1) =
      (r.current+1) % peers.number := by
    rw [hcurrent, hsame.number]
    split_ifs with hlast
    · rw [show r.current+1 = peers.number by omega, Nat.mod_self]
    · rw [Nat.mod_eq_of_lt (by omega)]
  refine ⟨peers',{ r' with current := (r.current+1) % peers.number },?_,hsame,rfl,havail,
    htries⟩
  simp only [nextLoop, hlook, Bool.false_eq_true, if_false, hnext]
  split_ifs <;> rfl

theorem next_shift (k : ℕ) (peers : Peers) (r : Request) (hc : r.current < peers.number)
    (h : ¬ Available now peers r.tried r.current) :
    (∃ j < k+1, Available now peers r.tried ((r.current+j) % peers.number)) ↔
      ∃ j < k, Available now peers r.tried ((r.current+(j+1)) % peers.number) := by
  constructor
  · rintro ⟨j,hj,havail⟩
    cases j with
    | zero =>
      rw [Nat.add_zero, Nat.mod_eq_of_lt hc] at havail
      exact absurd havail h
    | succ j => exact ⟨j,by omega,havail⟩
  · rintro ⟨j,hj,havail⟩
    exact ⟨j+1,by omega,havail⟩

theorem next_loop_found (k : ℕ) (peers : Peers) (r : Request) (hc : r.current < peers.number)
    (htries : k ≤ r.tries) :
    (nextLoop now k peers r).1 = true ↔
      ∃ j < k, Available now peers r.tried ((r.current+j) % peers.number) := by
  induction k generalizing peers r with
  | zero => simp [nextLoop]
  | succ k ih =>
    by_cases havail : Available now peers r.tried r.current
    · have hlook := look_available now peers r havail
      simp only [nextLoop, hlook, if_true]
      refine iff_of_true trivial ⟨0,Nat.succ_pos k,?_⟩
      rw [Nat.add_zero, Nat.mod_eq_of_lt hc]
      exact havail
    obtain ⟨peers',r',hround,hsame,hcurrent,hsameavail,htries'⟩ :=
      next_loop_round now k peers r hc havail
    have hle : k ≤ r'.tries := by
      rw [htries', decr]
      split_ifs <;> omega
    rw [hround, next_shift now k peers r hc havail]
    by_cases hend : r'.tries = 0
    · have hk : k = 0 := by omega
      subst hk
      simp [hend]
    rw [if_neg hend, ih peers' r' (by rw [hcurrent, hsame.number]; exact Nat.mod_lt _ (by omega))
      hle]
    refine exists_congr (fun j => and_congr_right (fun _ => ?_))
    rw [hsameavail, hcurrent, hsame.number, Nat.mod_add_mod, Nat.add_right_comm, Nat.add_assoc]

/-- An available peer among the next ones. A request with no tries left looks at the
current peer only, unless its counter runs below zero there. -/
def Near (now : ℤ) (peers : Peers) (r : Request) : Prop :=
  if r.tries = 0 then r.tried r.current = false ∧
    ∃ j < 2^64, Available now peers r.tried ((r.current+j) % peers.number)
  else ∃ j < r.tries, Available now peers r.tried ((r.current+j) % peers.number)

theorem no_tries_found (k : ℕ) (hk : k+1 = 2^64) (peers : Peers) (r : Request)
    (hc : r.current < peers.number) (hzero : r.tries = 0) :
    (nextLoop now (k+1) peers r).1 = true ↔ r.tried r.current = false ∧
      ∃ j < k+1, Available now peers r.tried ((r.current+j) % peers.number) := by
  by_cases havail : Available now peers r.tried r.current
  · have hlook := look_available now peers r havail
    simp only [nextLoop, hlook, if_true]
    refine iff_of_true trivial ⟨havail.1,0,Nat.succ_pos k,?_⟩
    rw [Nat.add_zero, Nat.mod_eq_of_lt hc]
    exact havail
  obtain ⟨peers',r',hround,hsame,hcurrent,hsameavail,htries⟩ :=
    next_loop_round now k peers r hc havail
  rw [hround, next_shift now k peers r hc havail]
  by_cases htried : r.tried r.current = true
  · rw [if_pos htried] at htries
    simp [htries, hzero, htried]
  have htried : r.tried r.current = false := by simpa using htried
  have hle : r'.tries = k := by
    rw [htries, htried, if_neg Bool.false_ne_true, decr, if_pos hzero]
    omega
  rw [if_neg (by omega), next_loop_found now k peers' r'
    (by rw [hcurrent, hsame.number]; exact Nat.mod_lt _ (by omega)) (by omega)]
  simp only [htried, true_and]
  refine exists_congr (fun j => and_congr_right (fun _ => ?_))
  rw [hsameavail, hcurrent, hsame.number, Nat.mod_add_mod, Nat.add_right_comm, Nat.add_assoc]

theorem later_try_found (peers : Peers) (r : Request) (hc : r.current < peers.number) :
    (nextLoop now (rounds r.tries) peers r).1 = true ↔ Near now peers r := by
  by_cases hzero : r.tries = 0
  · obtain ⟨k,hk⟩ := Nat.exists_eq_add_one_of_ne_zero (show 2^64 ≠ 0 by decide)
    rw [Near, if_pos hzero, rounds, if_pos hzero, hk]
    exact no_tries_found now k hk.symm peers r hc hzero
  · rw [Near, if_neg hzero, rounds, if_neg hzero]
    exact next_loop_found now r.tries peers r hc (Nat.le_refl _)

end Nginx.RoundRobinTurns
