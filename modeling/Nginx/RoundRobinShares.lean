import Nginx.RoundRobinChecks
import Mathlib.Algebra.BigOperators.Group.Finset.Piecewise
import Mathlib.Algebra.Order.BigOperators.Group.Finset

/-!
# The shares of the peers

While nothing fails every request gets a peer with a current weight, which goes down by one.
So between two resets of the weights each peer is picked as often as its weight says.
-/

set_option autoImplicit false

namespace Nginx.RoundRobinShares
open Nginx.RoundRobin Nginx.Rotation Nginx.RoundRobinTurns Nginx.RoundRobinLaw Nginx.RoundRobinChecks

/-- From `s` on new requests start, get their first peer and free it without a failure. The
list has the peers they got. -/
inductive Picks (s : State) : State → List ℕ → Prop where
  | refl : Picks s s []
  | start (s' : State) (ps : List ℕ) (k : ℕ) (addr : List ℕ) (h : Picks s s' ps) :
      Picks s (s'.call k (.start addr)) ps
  | get (s' : State) (ps : List ℕ) (k : ℕ) (addr : List ℕ) (now : ℤ) (h : Picks s s' ps)
      (hr : s'.requests k = some (ngxHttpUpstreamInitRoundRobinPeer s'.up addr)) :
      Picks s (s'.call k (.get now)) (ps++[(ngxHttpUpstreamGetRoundRobinPeer now s'.up
        (ngxHttpUpstreamInitRoundRobinPeer s'.up addr)).2.2.current])
  | free (s' : State) (ps : List ℕ) (k : ℕ) (now : ℤ) (next : Bool) (h : Picks s s' ps) :
      Picks s (s'.call k (.free now ⟨false,next⟩)) ps

def Opened (s : State) : Prop :=
  (∃ servers, (∀ server ∈ servers, 0 < server.weight ∧ server.down = false) ∧ primaries servers ≠ [] ∧
    s = ⟨ngxHttpUpstreamInitRoundRobin servers,fun _ => none⟩) ∨
  ∃ naddrs, 0 < naddrs ∧ s = ⟨implicitUpstream naddrs,fun _ => none⟩

def AtReset (peers : Peers) : Prop :=
  live peers = [] ∨ ∀ i < peers.number, (peers.peer i).currentWeight = (peers.peer i).weight

def total (peers : Peers) : ℤ := ∑ i ∈ Finset.range peers.number, (peers.peer i).weight

structure Calm (peers : Peers) : Prop extends Configured peers where
  up : ∀ i < peers.number, (peers.peer i).down = false
  fails : ∀ i < peers.number, (peers.peer i).fails = 0
  low : ∀ i < peers.number, 0 ≤ (peers.peer i).currentWeight

theorem mem_live (peers : Peers) (i : ℕ) : i ∈ live peers ↔
    i < peers.number ∧ 0 < (peers.peer i).currentWeight := by
  simp [live, liveFrom]

theorem live_reset_ne (peers : Peers) (h : Calm peers) : live (resetWeights peers) ≠ [] := by
  refine List.ne_nil_of_mem ((mem_live _ 0).mpr ⟨h.number,?_⟩)
  exact h.weight 0 h.number (h.up 0 h.number)

section Pick
variable (now : ℤ) (peers : Peers) (addr : List ℕ)

def charged (peers : Peers) : Peers := if live peers = [] then resetWeights peers else peers

theorem get_peer_charged (h : Calm peers) : (ngxHttpUpstreamGetPeer peers).2 = charged peers ∧
    (ngxHttpUpstreamGetPeer peers).1 ∈ live (charged peers) := by
  cases hlive : live peers with
  | cons n rest =>
    rw [charged, if_neg (by rw [hlive]; exact List.cons_ne_nil _ _), get_peer_live peers n rest hlive, hlive]
    exact ⟨rfl,front_mem _ _ _⟩
  | nil =>
    rw [charged, if_pos hlive, get_peer_reset peers hlive]
    cases hall : live (resetWeights peers) with
    | nil => exact absurd hall (live_reset_ne peers h)
    | cons n rest => exact ⟨rfl,front_mem _ _ _⟩

theorem charged_calm (h : Calm peers) : Calm (charged peers) ∧ SameServers peers (charged peers) := by
  rw [charged]
  split_ifs
  · refine ⟨⟨⟨h.number,h.cached,h.weight⟩,h.up,h.fails,fun i hi => ?_⟩,(same_reset peers).toSameServers⟩
    exact Int.le_of_lt (h.weight i hi (h.up i hi))
  · exact ⟨h,servers_refl peers⟩

def picked (peers : Peers) : Peers :=
  let n := (ngxHttpUpstreamGetPeer peers).1
  (charged peers).set n { (charged peers).peer n with
    currentWeight := ((charged peers).peer n).currentWeight-1 }

theorem look_calm (r : Request) (h : Calm peers) (hi : r.current < peers.number)
    (ht : r.tried r.current = false) : look now peers r = (true, peers, r) := by
  have hfails : (peers.peer r.current).maxFails = 0 ∨
      (peers.peer r.current).fails < (peers.peer r.current).maxFails := by
    have hzero := h.fails _ hi
    omega
  simp [look, ht, h.up _ hi, hfails]

theorem search_first (r : Request) (h : Calm peers) (htries : r.tries = peers.number)
    (htried : ∀ i, r.tried i = false) : searchPeers now peers r =
      (true, charged peers, { r with current := (ngxHttpUpstreamGetPeer peers).1 }) := by
  obtain ⟨hcharged,hmem⟩ := get_peer_charged peers h
  have hlt := ((mem_live _ _).mp hmem).1
  have hpos := h.number
  obtain ⟨k,hk⟩ := Nat.exists_eq_add_one_of_ne_zero (show rounds r.tries ≠ 0 by
    rw [rounds, if_neg (by omega)]
    omega)
  have hlook := look_calm now (charged peers) { r with current := (ngxHttpUpstreamGetPeer peers).1 }
    (charged_calm peers h).1 hlt (htried _)
  rw [searchPeers, if_pos htries, hk]
  simp only [firstLoop, hcharged, hlook, if_true]

theorem get_from_calm (next : Option Peers) (r : Request) (h : Calm peers) (htries : r.tries = peers.number)
    (htried : ∀ i, r.tried i = false) (hcurrent : r.current = 0) :
    (getFrom now peers next r).1 = true ∧
    (getFrom now peers next r).2.1 = (if peers.single then peers else picked peers) ∧
    (getFrom now peers next r).2.2.current =
      if peers.single then 0 else (ngxHttpUpstreamGetPeer peers).1 := by
  simp only [getFrom]
  rw [if_neg (not_not.mpr h.cached)]
  by_cases hsingle : peers.single = true
  · rw [if_pos hsingle, if_pos hsingle, if_pos hsingle]
    exact ⟨rfl,rfl,(add_backup_same next r).1.trans hcurrent⟩
  · rw [if_neg hsingle, if_neg hsingle, if_neg hsingle, search_first now peers r h htries htried]
    exact ⟨rfl,rfl,(add_backup_same next _).1⟩

end Pick

theorem get_calm (now : ℤ) (up : Upstream) (addr : List ℕ) (h : Calm up.peers) :
    (ngxHttpUpstreamGetRoundRobinPeer now up (ngxHttpUpstreamInitRoundRobinPeer up addr)).1 = .ok ∧
    (ngxHttpUpstreamGetRoundRobinPeer now up (ngxHttpUpstreamInitRoundRobinPeer up addr)).2.1.peers =
      (if up.peers.single then up.peers else picked up.peers) ∧
    (ngxHttpUpstreamGetRoundRobinPeer now up (ngxHttpUpstreamInitRoundRobinPeer up addr)).2.2.current =
      if up.peers.single then 0 else (ngxHttpUpstreamGetPeer up.peers).1 := by
  obtain ⟨peers,next⟩ := up
  obtain ⟨hfound,hpeers,hcurrent⟩ := get_from_calm now peers next
    (ngxHttpUpstreamInitRoundRobinPeer ⟨peers,next⟩ addr) h rfl (fun _ => rfl) rfl
  rw [ngxHttpUpstreamGetRoundRobinPeer]
  cases next with
  | none =>
    simp only [getLast, hfound, if_true]
    exact ⟨trivial,hpeers,hcurrent⟩
  | some backup =>
    have hoff : (ngxHttpUpstreamInitRoundRobinPeer ⟨peers,some backup⟩ addr).onBackup = false := rfl
    simp only [hoff, hfound, Bool.false_eq_true, if_false, if_true]
    exact ⟨trivial,hpeers,hcurrent⟩

theorem picked_calm (peers : Peers) (h : Calm peers) : Calm (picked peers) ∧
    SameServers peers (picked peers) := by
  obtain ⟨-,hmem⟩ := get_peer_charged peers h
  obtain ⟨hcalm,hsame⟩ := charged_calm peers h
  obtain ⟨hlt,hlive⟩ := (mem_live _ _).mp hmem
  have hset := servers_set (charged peers) (ngxHttpUpstreamGetPeer peers).1
    { (charged peers).peer (ngxHttpUpstreamGetPeer peers).1 with
      currentWeight := ((charged peers).peer (ngxHttpUpstreamGetPeer peers).1).currentWeight-1 } rfl rfl
  have hconf := same_configured _ _ hset hcalm.toConfigured
  refine ⟨⟨hconf,fun i hi => ?_,fun i hi => ?_,fun i hi => ?_⟩,servers_trans _ _ _ hsame hset⟩
  · exact (hset.down i).trans (hcalm.up i hi)
  · by_cases he : i = (ngxHttpUpstreamGetPeer peers).1
    · subst he
      rw [picked, peer_set_self]
      exact hcalm.fails _ hi
    · rw [picked, peer_set_of_ne _ _ _ _ he]
      exact hcalm.fails _ hi
  · by_cases he : i = (ngxHttpUpstreamGetPeer peers).1
    · subst he
      rw [picked, peer_set_self]
      show 0 ≤ ((charged peers).peer _).currentWeight-1
      omega
    · rw [picked, peer_set_of_ne _ _ _ _ he]
      exact hcalm.low _ hi

theorem free_peers (now : ℤ) (up : Upstream) (r : Request) (next : Bool) (hfits : Fits up r) :
    (ngxHttpUpstreamFreeRoundRobinPeer now up r ⟨false,next⟩).1 = up := by
  have hset := set_list_same up r hfits
  rw [ngxHttpUpstreamFreeRoundRobinPeer]
  by_cases hdone : (⟨false,next⟩ : FreeState).failed = false ∧ (⟨false,next⟩ : FreeState).next = false ∧
      r.tries = 0
  · rw [if_pos hdone]
  rw [if_neg hdone]
  by_cases hsingle : (up.list r).single = true
  · rw [if_pos hsingle]
  · rw [if_neg hsingle]
    exact hset

/-- What the picks have left of the weights: a single peer keeps all of it. -/
structure Window (start peers : Peers) (ps : List ℕ) : Prop where
  calm : Calm peers
  same : SameServers start peers
  inside : ∀ p ∈ ps, p < peers.number
  single : peers.single = true → ∀ p ∈ ps, p = 0
  left : peers.single = false → (ps = [] ∧ live peers = []) ∨
    ∀ i < peers.number, (peers.peer i).currentWeight+ps.count i = (peers.peer i).weight

theorem sum_counts (n : ℕ) (ps : List ℕ) (h : ∀ p ∈ ps, p < n) :
    ∑ i ∈ Finset.range n, (ps.count i : ℤ) = ps.length := by
  induction ps with
  | nil => simp
  | cons p ps ih =>
    have hp : p ∈ Finset.range n := Finset.mem_range.mpr (h p List.mem_cons_self)
    have hcount : ∀ i, ((p::ps).count i : ℤ) = ps.count i+if p = i then 1 else 0 := by
      intro i
      rw [List.count_cons]
      by_cases he : p = i <;> simp [he]
    simp only [hcount]
    rw [Finset.sum_add_distrib, ih (fun q hq => h q (List.mem_cons_of_mem _ hq)), Finset.sum_ite_eq,
      if_pos hp, List.length_cons]
    push_cast
    rfl

theorem total_same (peers peers' : Peers) (h : SameServers peers peers') : total peers' = total peers := by
  rw [total, total, h.number]
  exact Finset.sum_congr rfl (fun i _ => h.weight i)

theorem sum_left (peers : Peers) (ps : List ℕ) (hinside : ∀ p ∈ ps, p < peers.number)
    (h : ∀ i < peers.number, (peers.peer i).currentWeight+ps.count i = (peers.peer i).weight) :
    ∑ i ∈ Finset.range peers.number, (peers.peer i).currentWeight+ps.length = total peers := by
  rw [← sum_counts peers.number ps hinside, ← Finset.sum_add_distrib, total]
  exact Finset.sum_congr rfl (fun i hi => h i (Finset.mem_range.mp hi))

theorem window_pick (start peers : Peers) (ps : List ℕ) (h : Window start peers ps)
    (hlen : (ps.length : ℤ) < total start) :
    Window start (if peers.single then peers else picked peers)
      (ps++[if peers.single then 0 else (ngxHttpUpstreamGetPeer peers).1]) := by
  by_cases hsingle : peers.single = true
  · rw [if_pos hsingle, if_pos hsingle]
    have hlast : ∀ p ∈ ps++[0], p ∈ ps ∨ p = 0 := by
      intro p hp
      simpa using hp
    refine ⟨h.calm,h.same,fun p hp => ?_,fun _ p hp => ?_,fun hno => ?_⟩
    · rcases hlast p hp with hp | rfl
      · exact h.inside p hp
      · exact h.calm.number
    · rcases hlast p hp with hp | rfl
      · exact h.single hsingle p hp
      · rfl
    · rw [hsingle] at hno
      cases hno
  have hseveral : peers.single = false := by simpa using hsingle
  rw [if_neg hsingle, if_neg hsingle]
  obtain ⟨-,hmem⟩ := get_peer_charged peers h.calm
  obtain ⟨hcalm,hsame⟩ := picked_calm peers h.calm
  have hcharged := (charged_calm peers h.calm).2
  obtain ⟨hlt,-⟩ := (mem_live _ _).mp hmem
  rw [hcharged.number] at hlt
  have hbefore : ∀ i < peers.number, ((charged peers).peer i).currentWeight+ps.count i =
      (peers.peer i).weight := by
    intro i hi
    rcases h.left hseveral with ⟨rfl,hlive⟩ | hleft
    · rw [charged, if_pos hlive]
      exact Int.add_zero _
    have hne : live peers ≠ [] := by
      intro hlive
      have hsum := sum_left peers ps h.inside hleft
      have hzero : ∑ i ∈ Finset.range peers.number, (peers.peer i).currentWeight ≤ 0 := by
        refine Finset.sum_nonpos (fun j hj => ?_)
        by_contra hpos
        have hj' : j ∈ live peers := (mem_live _ _).mpr ⟨Finset.mem_range.mp hj,by omega⟩
        rw [hlive] at hj'
        cases hj'
      rw [total_same start peers h.same] at hsum
      omega
    rw [charged, if_neg hne]
    exact hleft i hi
  refine ⟨hcalm,servers_trans _ _ _ h.same hsame,fun p hp => ?_,fun hyes => ?_,fun _ => Or.inr ?_⟩
  · rw [hsame.number]
    rcases List.mem_append.mp hp with hp | hp
    · exact h.inside p hp
    · rw [List.mem_singleton.mp hp]
      exact hlt
  · rw [hsame.single, hseveral] at hyes
    cases hyes
  · intro i hi
    rw [hsame.number] at hi
    have hb := hbefore i hi
    rw [hsame.weight, List.count_append]
    by_cases he : i = (ngxHttpUpstreamGetPeer peers).1
    · subst he
      rw [picked, peer_set_self, List.count_singleton_self]
      push_cast
      show ((charged peers).peer _).currentWeight-1+_ = _
      omega
    have hzero : [(ngxHttpUpstreamGetPeer peers).1].count i = 0 :=
      List.count_eq_zero_of_not_mem (fun hm => he (List.mem_singleton.mp hm))
    rw [picked, peer_set_of_ne _ _ _ _ he, hzero]
    exact hb

theorem window_shares (start peers : Peers) (ps : List ℕ) (h : Window start peers ps)
    (hlen : (ps.length : ℤ) = total start) (hone : start.single = true → start.number = 1) :
    ∀ i < start.number, (ps.count i : ℤ) = (start.peer i).weight := by
  intro i hi
  have hnumber := h.same.number
  cases hsingle : peers.single with
  | true =>
    rw [hone (h.same.single ▸ hsingle)] at hi
    have hzero : i = 0 := by omega
    subst hzero
    have hall : ps = List.replicate ps.length 0 := List.eq_replicate_iff.mpr ⟨rfl,h.single hsingle⟩
    rw [hall, List.count_replicate_self, hlen, total, hone (h.same.single ▸ hsingle)]
    exact Finset.sum_range_one _
  | false =>
    have hpos : 0 < total start := by
      rw [← total_same start peers h.same, total]
      refine Finset.sum_pos (fun j hj => ?_) ⟨0,Finset.mem_range.mpr h.calm.number⟩
      have hj := Finset.mem_range.mp hj
      exact h.calm.weight j hj (h.calm.up j hj)
    rcases h.left hsingle with ⟨rfl,-⟩ | hleft
    · rw [List.length_nil] at hlen
      omega
    have hsum := sum_left peers ps h.inside hleft
    rw [total_same start peers h.same] at hsum
    have hnone : ∑ j ∈ Finset.range peers.number, (peers.peer j).currentWeight = 0 := by omega
    rw [Finset.sum_eq_zero_iff_of_nonneg (fun j hj => h.calm.low j (Finset.mem_range.mp hj))] at hnone
    rw [← hnumber] at hi
    have hcount := hleft i hi
    rw [hnone i (Finset.mem_range.mpr hi), h.same.weight] at hcount
    omega

theorem picks_reached (s s' : State) (ps : List ℕ) (hs : Reached s) (h : Picks s s' ps) : Reached s' := by
  induction h with
  | refl => exact hs
  | start s' ps k addr _ ih => exact Reached.call s' k _ ih
  | get s' ps k addr now _ hr ih => exact Reached.call s' k _ ih
  | free s' ps k now next _ ih => exact Reached.call s' k _ ih

theorem call_get (s : State) (k : ℕ) (now : ℤ) (r : Request) (hr : s.requests k = some r) :
    (s.call k (.get now)).up = (ngxHttpUpstreamGetRoundRobinPeer now s.up r).2.1 := by
  simp only [State.call, hr]
  rfl

theorem call_free (s : State) (k : ℕ) (now : ℤ) (next : Bool) (h : Inv s) :
    (s.call k (.free now ⟨false,next⟩)).up = s.up := by
  cases hr : s.requests k with
  | none => simp only [State.call, hr]
  | some r =>
    simp only [State.call, hr]
    exact free_peers now s.up r next (h.fits k r hr)

theorem picks_calm (s s' : State) (ps : List ℕ) (hs : Reached s) (hcalm : Calm s.up.peers)
    (h : Picks s s' ps) : Calm s'.up.peers ∧ SameServers s.up.peers s'.up.peers := by
  induction h with
  | refl => exact ⟨hcalm,servers_refl _⟩
  | start s' ps k addr _ ih => exact ih
  | get s' ps k addr now hp hr ih =>
    obtain ⟨hc,hsame⟩ := ih
    rw [call_get s' k now _ hr, (get_calm now s'.up addr hc).2.1]
    split_ifs
    · exact ⟨hc,hsame⟩
    · obtain ⟨hc',hsame'⟩ := picked_calm _ hc
      exact ⟨hc',servers_trans _ _ _ hsame hsame'⟩
  | free s' ps k now next hp ih =>
    rw [call_free s' k now next (reached_inv s' (picks_reached s s' ps hs hp))]
    exact ih

theorem picks_window (s s' : State) (ps : List ℕ) (hs : Reached s) (hcalm : Calm s.up.peers)
    (hreset : AtReset s.up.peers) (h : Picks s s' ps) (hlen : (ps.length : ℤ) ≤ total s.up.peers) :
    Window s.up.peers s'.up.peers ps := by
  induction h with
  | refl =>
    refine ⟨hcalm,servers_refl _,nofun,fun _ => nofun,fun _ => ?_⟩
    rcases hreset with hlive | hfull
    · exact Or.inl ⟨rfl,hlive⟩
    · exact Or.inr (fun i hi => (Int.add_zero _).trans (hfull i hi))
  | start s' ps k addr _ ih => exact ih hlen
  | get s' ps k addr now hp hr ih =>
    rw [List.length_append, List.length_singleton] at hlen
    push_cast at hlen
    have hwindow := ih (by omega)
    obtain ⟨-,hpeers,hcurrent⟩ := get_calm now s'.up addr hwindow.calm
    rw [call_get s' k now _ hr, hpeers, hcurrent]
    exact window_pick s.up.peers s'.up.peers ps hwindow (by omega)
  | free s' ps k now next hp ih =>
    rw [call_free s' k now next (reached_inv s' (picks_reached s s' ps hs hp))]
    exact ih hlen

theorem peers_of_calm (single : Bool) (peers : List Peer) (hne : peers ≠ [])
    (h : ∀ p ∈ peers, 0 < p.weight ∧ p.currentWeight = p.weight ∧ p.down = false ∧ p.fails = 0) :
    Calm (peersOf single peers) ∧ AtReset (peersOf single peers) := by
  have hget : ∀ i < peers.length, (peersOf single peers).peer i ∈ peers := by
    intro i hi
    show peers.getD i default ∈ peers
    rw [List.getD_eq_getElem?_getD, List.getElem?_eq_getElem hi, Option.getD_some]
    exact List.getElem_mem hi
  refine ⟨⟨peers_of_configured single peers hne (fun p hp _ => (h p hp).1),fun i hi => ?_,fun i hi => ?_,
    fun i hi => ?_⟩,Or.inr (fun i hi => ?_)⟩
  · exact (h _ (hget i hi)).2.2.1
  · exact (h _ (hget i hi)).2.2.2
  · obtain ⟨hpos,hcurrent,-⟩ := h _ (hget i hi)
    omega
  · exact (h _ (hget i hi)).2.1

theorem opened_calm (s : State) (h : Opened s) : Reached s ∧ Calm s.up.peers ∧ AtReset s.up.peers ∧
    (s.up.peers.single = true → s.up.peers.number = 1) := by
  rcases h with ⟨servers,hservers,hne,rfl⟩ | ⟨naddrs,hpos,rfl⟩
  · have hall : ∀ p ∈ ngxSort (primaries servers),
        0 < p.weight ∧ p.currentWeight = p.weight ∧ p.down = false ∧ p.fails = 0 := by
      intro p hp
      obtain ⟨server,hs,hp⟩ := List.mem_flatMap.mp ((sort_mem p _).mp hp)
      obtain ⟨hpos,hdown⟩ := hservers server (List.mem_filter.mp hs).1
      rw [(List.mem_replicate.mp hp).2, primaryPeer, hdown]
      exact ⟨hpos,rfl,rfl,rfl⟩
    have hsorted : ngxSort (primaries servers) ≠ [] := by
      obtain ⟨p,hp⟩ := List.exists_mem_of_ne_nil _ hne
      exact List.ne_nil_of_mem ((sort_mem p _).mpr hp)
    refine ⟨Reached.init servers (fun server hs => (hservers server hs).1) hne,?_⟩
    simp only [ngxHttpUpstreamInitRoundRobin]
    split_ifs
    · obtain ⟨hcalm,hreset⟩ := peers_of_calm (decide ((ngxSort (primaries servers)).length = 1)) _ hsorted hall
      exact ⟨hcalm,hreset,fun hone => of_decide_eq_true hone⟩
    · obtain ⟨hcalm,hreset⟩ := peers_of_calm false _ hsorted hall
      exact ⟨hcalm,hreset,by rintro ⟨⟩⟩
  obtain ⟨hcalm,hreset⟩ := peers_of_calm (decide (naddrs = 1)) (List.replicate naddrs ⟨1,1,0,0,1,10,false⟩)
    (fun hn => by simp at hn; omega) (fun p hp => by rw [(List.mem_replicate.mp hp).2]; decide)
  exact ⟨Reached.implicit naddrs hpos,hcalm,hreset,fun hone => by
    show (List.replicate naddrs _).length = 1
    rw [List.length_replicate]
    exact of_decide_eq_true hone⟩

/-- From a reset on, as many picks as all weights together give each peer its weight. In every
state that calls lead to, with failures and retries and servers that are down, no call divides
by zero or leaves its lists. -/
theorem weighted_round_robin :
    (∀ s s' s'' before ps, Opened s → Picks s s' before → AtReset s'.up.peers → Picks s' s'' ps →
      (ps.length : ℤ) = total s'.up.peers → (∀ p ∈ ps, p < s'.up.peers.number) ∧
        ∀ i < s'.up.peers.number, (ps.count i : ℤ) = (s'.up.peers.peer i).weight) ∧
    ∀ s k r now, Reached s → s.requests k = some r →
      checkedGetPeer (s.up.list r) = some (ngxHttpUpstreamGetPeer (s.up.list r)) ∧
      (ngxHttpUpstreamGetPeer (s.up.list r)).1 < (s.up.list r).number ∧
      checkedGetRoundRobinPeer now s.up r = some (ngxHttpUpstreamGetRoundRobinPeer now s.up r) ∧
      checkedGetIpHashPeer now s.up r = some (ngxHttpUpstreamGetIpHashPeer now s.up r) := by
  refine ⟨fun s s' s'' before ps hopened hbefore hreset hps hlen => ?_,fun s k r now hs hr => ?_⟩
  · obtain ⟨hreached,hcalm,-,hone⟩ := opened_calm s hopened
    obtain ⟨hcalm',hsame⟩ := picks_calm s s' before hreached hcalm hbefore
    have hwindow := picks_window s' s'' ps (picks_reached s s' before hreached hbefore) hcalm' hreset hps
      (le_of_eq hlen)
    refine ⟨fun p hp => hwindow.same.number ▸ hwindow.inside p hp,
      window_shares s'.up.peers s''.up.peers ps hwindow hlen (fun hsingle => ?_)⟩
    rw [hsame.number]
    exact hone (hsame.single ▸ hsingle)
  · have hfits := (reached_inv s hs).fits k r hr
    have hweighed := reached_weighed s hs
    exact ⟨checked_get_peer _ (list_weighed s.up r hweighed hfits),
      (get_peer_place _ (Nat.zero_lt_of_lt hfits.current)).1,
      (get_safe now s.up r hweighed hfits).1,(get_hash_safe now s.up r hweighed hfits).1⟩

def openedTwo : State := ⟨ngxHttpUpstreamInitRoundRobin twoServers,fun _ => none⟩

theorem pick_next (s s' : State) (ps : List ℕ) (k : ℕ) (h : Picks s s' ps) :
    ∃ s'' n, Picks s s'' (ps++[n]) :=
  ⟨_,_,Picks.get _ _ k [0,0,0] 0 (Picks.start s' ps k [0,0,0] h) (Function.update_self ..)⟩

/-- Two servers of weight 2 have two of four picks each. -/
theorem weighted_round_robin_two : ∃ s ps, Picks openedTwo s ps ∧ ps.length = 4 ∧
    ∀ i < 2, (ps.count i : ℤ) = 2 := by
  obtain ⟨s1,n1,h1⟩ := pick_next openedTwo _ _ 1 Picks.refl
  obtain ⟨s2,n2,h2⟩ := pick_next openedTwo _ _ 2 h1
  obtain ⟨s3,n3,h3⟩ := pick_next openedTwo _ _ 3 h2
  obtain ⟨s4,n4,h4⟩ := pick_next openedTwo _ _ 4 h3
  have htotal : total openedTwo.up.peers = 4 := by decide
  have hopened : Opened openedTwo := Or.inl ⟨twoServers,by decide,by decide,rfl⟩
  have hshares := weighted_round_robin.1 openedTwo openedTwo s4 [] _ hopened Picks.refl
    (Or.inr (by decide)) h4 htotal.symm
  refine ⟨s4,_,h4,rfl,fun i hi => (hshares.2 i hi).trans ?_⟩
  have hweights : ∀ j < 2, (openedTwo.up.peers.peer j).weight = 2 := by decide
  exact hweights i hi

end Nginx.RoundRobinShares
