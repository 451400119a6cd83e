import Mathlib.Logic.Function.Basic
import Mathlib.Data.List.Nodup

/-!
# The connections of a worker

The free list, the queue of the reusable connections and the instance bit by which events of an
earlier use of a connection are told apart.
-/

set_option autoImplicit false

namespace Nginx.Connections
open Function

/-- `fd` is `none` for `-1`; `inst` is the `instance` of both events. -/
structure Connection where
  fd : Option ℕ
  inst : Bool
  reusable : Bool
  close : Bool

/-- What `epoll_ctl` was given: `c | c->read->instance`, and which use of `c` it was -/
structure Event where
  c : ℕ
  inst : Bool
  use : ℕ

/-- `filesN` is `none` where there is no `files`. `uses` and `events` record how often each
connection was taken and what was registered. -/
structure Cycle where
  connections : ℕ → Connection
  connectionN : ℕ
  freeConnections : List ℕ
  freeConnectionN : ℕ
  files : ℕ → Option ℕ
  filesN : Option ℕ
  queue : List ℕ
  uses : ℕ → ℕ
  events : List Event

def ngxEventProcessInit (connectionN : ℕ) (filesN : Option ℕ) : Cycle :=
  ⟨fun _ => ⟨none,true,false,false⟩,connectionN,List.range connectionN,connectionN,
    fun _ => none,filesN,[],fun _ => 0,[]⟩

def Cycle.set (s : Cycle) (c : ℕ) (x : Connection) : Cycle :=
  { s with connections := update s.connections c x }

def ngxFreeConnection (c : ℕ) (s : Cycle) : Cycle :=
  { s with
    freeConnections := c::s.freeConnections
    freeConnectionN := s.freeConnectionN+1
    files := match s.filesN, (s.connections c).fd with
      | some _, some fd => update s.files fd none
      | _, _ => s.files }

def ngxReusableConnection (c : ℕ) (reusable : Bool) (s : Cycle) : Cycle :=
  let queue := if (s.connections c).reusable then s.queue.erase c else s.queue
  { s.set c { s.connections c with reusable := reusable } with
    queue := if reusable then c::queue else queue }

/-- `ngx_close_accepted_connection`, and the end of `ngx_close_connection` -/
def ngxCloseAcceptedConnection (c : ℕ) (s : Cycle) : Cycle :=
  (ngxFreeConnection c s).set c { s.connections c with fd := none }

def ngxCloseConnection (c : ℕ) (s : Cycle) : Cycle :=
  if (s.connections c).fd = none then s
  else ngxCloseAcceptedConnection c (ngxReusableConnection c false s)

/-- The loop of `ngx_drain_connections`; a handler closes its connection unless the SSL shutdown
has to wait, which `closes` tells for each round. -/
def drainLoop : List Bool → Cycle → Cycle
  | [], s => s
  | closes::rounds, s =>
    match s.queue.getLast? with
    | none => s
    | some c =>
      let s := s.set c { s.connections c with close := true }
      drainLoop rounds (if closes then ngxCloseConnection c s else s)

def ngxDrainConnections (closes : ℕ → Bool) : Cycle → Cycle :=
  drainLoop ((List.range 32).map closes)

def drained (closes : ℕ → Bool) (s : Cycle) : Cycle :=
  if s.freeConnections.isEmpty then ngxDrainConnections closes s else s

/-- `c` comes off the free list and is initialized for `fd`. -/
def Cycle.take (s : Cycle) (c : ℕ) (free : List ℕ) (fd : ℕ) : Cycle :=
  { s.set c ⟨some fd,!(s.connections c).inst,false,false⟩ with
    freeConnections := free
    freeConnectionN := s.freeConnectionN-1
    files := if s.filesN.isSome then update s.files fd (some c) else s.files
    uses := update s.uses c (s.uses c+1) }

def ngxGetConnection (closes : ℕ → Bool) (fd : ℕ) (s : Cycle) : Option ℕ × Cycle :=
  if s.filesN.any (· ≤ fd) then (none,s)
  else
    match (drained closes s).freeConnections with
    | [] => (none,drained closes s)
    | c::free => (some c,(drained closes s).take c free fd)

def ngxEpollAddConnection (c : ℕ) (s : Cycle) : Cycle :=
  { s with events := ⟨c,(s.connections c).inst,s.uses c⟩::s.events }

/-- The test that `ngx_epoll_process_events` makes of each event -/
def stale (s : Cycle) (e : Event) : Bool :=
  (s.connections e.c).fd = none || (s.connections e.c).inst != e.inst

/-- What is done with the connections; `fails` is an error before the new connection is passed
on. -/
inductive Act where
  | get (closes : ℕ → Bool) (fd : ℕ) (fails : Bool)
  | add (c : ℕ)
  | reusable (c : ℕ) (reusable : Bool)
  | close (c : ℕ)

def step (s : Cycle) : Act → Cycle
  | .get closes fd fails =>
    -- the system does not give out the number of an open connection
    if ∃ c < s.connectionN, (s.connections c).fd = some fd then s
    else
      match ngxGetConnection closes fd s with
      | (none,s) => s
      | (some c,s) => if fails then ngxCloseAcceptedConnection c s else s
  | .add c => if (s.connections c).fd = none then s else ngxEpollAddConnection c s
  | .reusable c reusable =>
    if (s.connections c).fd = none then s else ngxReusableConnection c reusable s
  | .close c => ngxCloseConnection c s

structure Inv (s : Cycle) : Prop where
  free : s.freeConnections.Nodup
  count : s.freeConnectionN = s.freeConnections.length
  closed : ∀ c, c ∈ s.freeConnections ↔ c < s.connectionN ∧ (s.connections c).fd = none
  below : ∀ c, (s.connections c).fd ≠ none → c < s.connectionN
  queue : s.queue.Nodup
  reusable : ∀ c, c ∈ s.queue ↔ (s.connections c).reusable = true
  live : ∀ c, (s.connections c).reusable = true → (s.connections c).fd ≠ none
  files : s.filesN ≠ none → ∀ fd c, s.files fd = some c ↔ (s.connections c).fd = some fd
  inst : ∀ c, (s.connections c).inst = decide (s.uses c%2 = 0)
  events : ∀ e ∈ s.events, e.use ≤ s.uses e.c ∧ e.inst = decide (e.use%2 = 0)

theorem init_inv (connectionN : ℕ) (filesN : Option ℕ) :
    Inv (ngxEventProcessInit connectionN filesN) := by
  constructor <;> simp [ngxEventProcessInit, List.nodup_range]

section Operations
variable (s : Cycle) (c : ℕ) (h : Inv s)
include h

theorem mark_inv (b : Bool) : Inv (s.set c { s.connections c with close := b }) := by
  have hsame (x : ℕ) : ((s.set c { s.connections c with close := b }).connections x).fd =
      (s.connections x).fd ∧ ((s.set c { s.connections c with close := b }).connections x).reusable =
      (s.connections x).reusable ∧ ((s.set c { s.connections c with close := b }).connections x).inst =
      (s.connections x).inst := by
    rcases eq_or_ne x c with rfl | hx <;> simp [Cycle.set, *]
  constructor <;> simp only [hsame]
  exacts [h.free,h.count,h.closed,h.below,h.queue,h.reusable,h.live,h.files,h.inst,h.events]

theorem reusable_inv (b : Bool) (hopen : (s.connections c).fd ≠ none) :
    Inv (ngxReusableConnection c b s) := by
  have hsame (x : ℕ) : ((ngxReusableConnection c b s).connections x).fd = (s.connections x).fd ∧
      ((ngxReusableConnection c b s).connections x).inst = (s.connections x).inst := by
    rcases eq_or_ne x c with rfl | hx <;> simp [ngxReusableConnection, Cycle.set, *]
  have hflag (x : ℕ) : ((ngxReusableConnection c b s).connections x).reusable =
      if x = c then b else (s.connections x).reusable := by
    by_cases hx : x = c <;> simp [ngxReusableConnection, Cycle.set, hx]
  -- without `c` the queue holds the other reusable connections
  have hrest : ∃ q, q.Nodup ∧ (∀ x, x ∈ q ↔ x ≠ c ∧ (s.connections x).reusable = true) ∧
      (ngxReusableConnection c b s).queue = if b then c::q else q := by
    refine ⟨if (s.connections c).reusable then s.queue.erase c else s.queue,?_,fun x => ?_,rfl⟩
    · split_ifs
      exacts [h.queue.erase c,h.queue]
    · split_ifs with hc
      · rw [h.queue.mem_erase_iff, h.reusable]
      · rw [h.reusable]
        exact ⟨fun hx => ⟨fun hxc => hc (hxc ▸ hx),hx⟩,fun hx => hx.2⟩
  obtain ⟨q,hnodup,hmem,hqueue⟩ := hrest
  refine { h with
    closed := fun x => (hsame x).1 ▸ h.closed x
    below := fun x => (hsame x).1 ▸ h.below x
    queue := ?_
    reusable := fun x => ?_
    live := fun x hx => ?_
    files := fun hn fd x => (hsame x).1 ▸ h.files hn fd x
    inst := fun x => (hsame x).2 ▸ h.inst x }
  · cases b <;> simp [hqueue, hnodup, hmem]
  · rw [hqueue, hflag]
    cases b <;> by_cases hx : x = c <;> simp [hx, hmem]
  · rw [hflag] at hx
    rw [(hsame x).1]
    split_ifs at hx with hxc
    · exact hxc ▸ hopen
    · exact h.live x hx

theorem free_inv (hopen : (s.connections c).fd ≠ none) (hr : (s.connections c).reusable = false) :
    Inv (ngxCloseAcceptedConnection c s) := by
  obtain ⟨fd,hfd⟩ := Option.ne_none_iff_exists'.mp hopen
  have hfd' (x : ℕ) : ((ngxCloseAcceptedConnection c s).connections x).fd =
      if x = c then none else (s.connections x).fd := by
    by_cases hx : x = c <;> simp [ngxCloseAcceptedConnection, ngxFreeConnection, Cycle.set, hx]
  have hsame (x : ℕ) : ((ngxCloseAcceptedConnection c s).connections x).reusable =
      (s.connections x).reusable ∧
      ((ngxCloseAcceptedConnection c s).connections x).inst = (s.connections x).inst := by
    rcases eq_or_ne x c with rfl | hx <;>
      simp [ngxCloseAcceptedConnection, ngxFreeConnection, Cycle.set, *]
  refine { h with
    free := List.nodup_cons.mpr ⟨fun hc => hopen ((h.closed c).mp hc).2,h.free⟩
    count := congrArg (·+1) h.count
    closed := fun x => ?_
    below := fun x hx => ?_
    reusable := fun x => (hsame x).1 ▸ h.reusable x
    live := fun x hx => ?_
    files := fun hn fd' x => ?_
    inst := fun x => (hsame x).2 ▸ h.inst x }
  · have hc := h.below c hopen
    rw [hfd']
    show x ∈ c::s.freeConnections ↔ x < s.connectionN ∧ _
    rw [List.mem_cons, h.closed]
    split_ifs with hx <;> simp [hx, hc]
  · rw [hfd'] at hx
    split_ifs at hx
    exacts [absurd rfl hx,h.below x hx]
  · rw [(hsame x).1] at hx
    rw [hfd']
    split_ifs with hxc
    · exact absurd (hxc ▸ hx) (by simp [hr])
    · exact h.live x hx
  · obtain ⟨n,hn'⟩ : ∃ n, s.filesN = some n := Option.ne_none_iff_exists'.mp hn
    have hfiles := h.files hn
    rw [hfd']
    simp only [ngxCloseAcceptedConnection, ngxFreeConnection, Cycle.set, hn', hfd]
    rcases eq_or_ne fd' fd with rfl | hne
    · split_ifs with hx
      · simp
      · have := (hfiles fd' x).not.mp (by simp [(hfiles fd' c).mpr hfd, Ne.symm hx])
        simp [this]
    · rw [update_of_ne hne, hfiles]
      split_ifs with hx
      · simp [hx, hfd, Ne.symm hne]
      · rfl

theorem close_inv : Inv (ngxCloseConnection c s) := by
  rw [ngxCloseConnection]
  split_ifs with hopen
  · exact h
  · refine free_inv _ c (reusable_inv s c h false hopen) ?_ ?_ <;>
      simp [ngxReusableConnection, Cycle.set, hopen]

end Operations

theorem close_fd (s : Cycle) (c x fd : ℕ)
    (hx : ((ngxCloseConnection c s).connections x).fd = some fd) :
    (s.connections x).fd = some fd := by
  rw [ngxCloseConnection] at hx
  split_ifs at hx
  · exact hx
  · rcases eq_or_ne x c with rfl | hne
    · simp [ngxCloseAcceptedConnection, Cycle.set] at hx
    · simpa [ngxCloseAcceptedConnection, ngxFreeConnection, ngxReusableConnection, Cycle.set, hne]
        using hx

/-- The loop keeps the invariant, opens nothing, and leaves the free list empty only where it had
nothing that it could close. -/
theorem drain_loop (rounds : List Bool) (s : Cycle) (h : Inv s) :
    Inv (drainLoop rounds s) ∧
    (∀ x fd, ((drainLoop rounds s).connections x).fd = some fd → (s.connections x).fd = some fd) ∧
    ((drainLoop rounds s).freeConnections = [] ↔
      s.freeConnections = [] ∧ (s.queue = [] ∨ ∀ b ∈ rounds, b = false)) := by
  induction rounds generalizing s with
  | nil => exact ⟨h,fun _ _ hx => hx,by simp [drainLoop]⟩
  | cons closes rounds ih =>
    rw [drainLoop]
    split
    · rename_i hlast
      simp [h, List.getLast?_eq_none_iff.mp hlast]
    · rename_i c hlast
      have hmem := List.mem_of_getLast? hlast
      have hnonempty : s.queue ≠ [] := List.ne_nil_of_mem hmem
      have hopen := h.live c ((h.reusable c).mp hmem)
      have hmark := mark_inv s c h true
      have hmarked (x fd : ℕ) : ((s.set c { s.connections c with close := true }).connections x).fd =
          some fd → (s.connections x).fd = some fd := by
        rcases eq_or_ne x c with rfl | hne <;> simp [Cycle.set, *]
      cases closes with
      | false =>
        obtain ⟨hinv,hfd,hfree⟩ := ih _ hmark
        refine ⟨hinv,fun x fd hx => hmarked x fd (hfd x fd hx),hfree.trans ?_⟩
        simp [Cycle.set]
      | true =>
        obtain ⟨hinv,hfd,hfree⟩ := ih _ (close_inv _ c hmark)
        refine ⟨hinv,fun x fd hx => hmarked x fd (close_fd _ c x fd (hfd x fd hx)),hfree.trans ?_⟩
        simp [ngxCloseConnection, ngxCloseAcceptedConnection, ngxFreeConnection, Cycle.set, hopen,
          hnonempty]

theorem drained_spec (closes : ℕ → Bool) (s : Cycle) (h : Inv s) :
    Inv (drained closes s) ∧
    (∀ x fd, ((drained closes s).connections x).fd = some fd → (s.connections x).fd = some fd) ∧
    ((drained closes s).freeConnections = [] ↔
      s.freeConnections = [] ∧ (s.queue = [] ∨ ∀ i < 32, closes i = false)) := by
  rw [drained]
  split_ifs with hempty
  · simpa [ngxDrainConnections] using drain_loop ((List.range 32).map closes) s h
  · exact ⟨h,fun _ _ hx => hx,by simp [mt List.isEmpty_iff.mpr hempty]⟩

theorem take_inv (s : Cycle) (h : Inv s) (c : ℕ) (free : List ℕ) (hfree : s.freeConnections = c::free)
    (fd : ℕ) (hfresh : ∀ x, (s.connections x).fd ≠ some fd) : Inv (s.take c free fd) := by
  obtain ⟨hc,hfd⟩ := (h.closed c).mp (hfree ▸ List.mem_cons_self)
  have hreusable : (s.connections c).reusable = false :=
    Bool.eq_false_iff.mpr (fun hr => h.live c hr hfd)
  have hself : (s.take c free fd).connections c = ⟨some fd,!(s.connections c).inst,false,false⟩ :=
    update_self ..
  have hother (x : ℕ) (hx : x ≠ c) : (s.take c free fd).connections x = s.connections x :=
    update_of_ne hx ..
  have hnodup := List.nodup_cons.mp (hfree ▸ h.free)
  refine { h with
    free := hnodup.2
    count := ?_
    closed := fun x => ?_
    below := fun x hx => ?_
    reusable := fun x => ?_
    live := fun x hx => ?_
    files := fun hn fd' x => ?_
    inst := fun x => ?_
    events := fun e he => ⟨?_,(h.events e he).2⟩ }
  · have hcount := h.count
    rw [hfree, List.length_cons] at hcount
    exact Nat.sub_eq_of_eq_add hcount
  · rcases eq_or_ne x c with rfl | hx
    · rw [hself]
      exact iff_of_false hnodup.1 (fun hx => by cases hx.2)
    · rw [hother x hx]
      exact ⟨fun hm => (h.closed x).mp (hfree ▸ List.mem_cons_of_mem _ hm),fun hm =>
        (List.mem_cons.mp (hfree ▸ (h.closed x).mpr hm)).resolve_left hx⟩
  · rcases eq_or_ne x c with rfl | hxc
    · exact hc
    · exact h.below x (by rwa [hother x hxc] at hx)
  · rcases eq_or_ne x c with rfl | hx
    · rw [hself]
      exact (h.reusable x).trans (by simp [hreusable])
    · rw [hother x hx]
      exact h.reusable x
  · rcases eq_or_ne x c with rfl | hxc
    · simp [hself]
    · rw [hother x hxc] at hx ⊢
      exact h.live x hx
  · have hfiles := h.files hn
    have hsome : s.filesN.isSome := Option.isSome_iff_ne_none.mpr hn
    simp only [Cycle.take, if_pos hsome]
    change update s.files fd (some c) fd' = some x ↔ ((s.take c free fd).connections x).fd = some fd'
    rcases eq_or_ne x c with rfl | hx
    · rw [hself]
      rcases eq_or_ne fd' fd with rfl | hne
      · simp
      · simp [update_of_ne hne, hfiles, hfd, Ne.symm hne]
    · rw [hother x hx]
      rcases eq_or_ne fd' fd with rfl | hne
      · simp [hfresh x, Ne.symm hx]
      · rw [update_of_ne hne, hfiles]
  · rcases eq_or_ne x c with rfl | hx
    · rw [hself, h.inst]
      simp only [Cycle.take, update_self, ← decide_not]
      exact decide_eq_decide.mpr (by omega)
    · rw [hother x hx, h.inst]
      simp [Cycle.take, hx]
  · have huse := (h.events e he).1
    rcases eq_or_ne e.c c with hec | hec
    · simp only [Cycle.take, hec, update_self]
      exact Nat.le_succ_of_le (hec ▸ huse)
    · simpa [Cycle.take, hec] using huse

theorem get_inv (closes : ℕ → Bool) (fd : ℕ) (fails : Bool) (s : Cycle) (h : Inv s) :
    Inv (step s (.get closes fd fails)) := by
  rw [step]
  split
  · exact h
  · rename_i hused
    obtain ⟨hinv,hfd,-⟩ := drained_spec closes s h
    have hfresh (x : ℕ) : ((drained closes s).connections x).fd ≠ some fd := fun hx =>
      hused ⟨x,h.below x (by simp [hfd x fd hx]),hfd x fd hx⟩
    rw [ngxGetConnection]
    by_cases hfull : s.filesN.any (· ≤ fd)
    · rw [if_pos hfull]
      exact h
    · rw [if_neg hfull]
      rcases hfree : (drained closes s).freeConnections with _ | ⟨c,free⟩
      · exact hinv
      · have htake := take_inv _ hinv c free hfree fd hfresh
        cases fails with
        | false => exact htake
        | true =>
          refine free_inv _ c htake ?_ ?_ <;> simp [Cycle.take, Cycle.set]

theorem step_inv (s : Cycle) (a : Act) (h : Inv s) : Inv (step s a) := by
  cases a with
  | get closes fd fails => exact get_inv closes fd fails s h
  | add c =>
    simp only [step]
    split_ifs
    · exact h
    · refine { h with events := fun e he => ?_ }
      rcases List.mem_cons.mp he with rfl | he
      · exact ⟨Nat.le_refl _,h.inst c⟩
      · exact h.events e he
  | reusable c reusable =>
    simp only [step]
    split_ifs with hopen
    · exact h
    · exact reusable_inv s c h reusable hopen
  | close c => exact close_inv s c h

theorem run_inv (acts : List Act) (s : Cycle) (h : Inv s) : Inv (acts.foldl step s) := by
  induction acts generalizing s with
  | nil => exact h
  | cons a acts ih => exact ih _ (step_inv s a h)

/-- A worker's connections stay accounted for, whatever is done with them: the free list has each
closed one once and its length is counted, the queue has each reusable one once, and these are
open, and `files` leads from each open number to its connection. -/
theorem connections_accounted (connectionN : ℕ) (filesN : Option ℕ) (acts : List Act) :
    Inv (acts.foldl step (ngxEventProcessInit connectionN filesN)) :=
  run_inv acts _ (init_inv connectionN filesN)

/-- A connection is refused exactly where `files` has no room for its number, or where no
connection is free and none is reusable or each of the 32 rounds met one that could not be
closed. -/
theorem get_connection_fails (connectionN : ℕ) (filesN : Option ℕ) (acts : List Act)
    (closes : ℕ → Bool) (fd : ℕ) :
    let s := acts.foldl step (ngxEventProcessInit connectionN filesN)
    (ngxGetConnection closes fd s).1 = none ↔ (∃ n, s.filesN = some n ∧ n ≤ fd) ∨
      s.freeConnectionN = 0 ∧
        ((∀ c, (s.connections c).reusable = false) ∨ ∀ i < 32, closes i = false) := by
  intro s
  have h : Inv s := run_inv acts _ (init_inv connectionN filesN)
  obtain ⟨-,-,hfree⟩ := drained_spec closes s h
  have hnone : s.queue = [] ↔ ∀ c, (s.connections c).reusable = false := by
    simp [List.eq_nil_iff_forall_not_mem, h.reusable]
  have hgot : (ngxGetConnection closes fd s).1 = none ↔
      s.filesN.any (· ≤ fd) ∨ (drained closes s).freeConnections = [] := by
    rw [ngxGetConnection]
    split_ifs with hfull
    · simp [hfull]
    · cases (drained closes s).freeConnections <;> simp [hfull]
  rw [hgot, hfree, hnone, h.count, List.length_eq_zero_iff]
  simp [Option.any_eq_true]

/-- An event is taken exactly where its connection is open and was taken again an even number of
times since the event was registered; so it is dropped once the connection was closed and reused,
and taken for another's when that happened twice. -/
theorem stale_event (connectionN : ℕ) (filesN : Option ℕ) (acts : List Act) :
    let s := acts.foldl step (ngxEventProcessInit connectionN filesN)
    ∀ e ∈ s.events, stale s e = false ↔
      (s.connections e.c).fd ≠ none ∧ (s.uses e.c-e.use)%2 = 0 := by
  intro s e he
  have h : Inv s := run_inv acts _ (init_inv connectionN filesN)
  obtain ⟨huse,hinst⟩ := h.events e he
  have hparity : (s.uses e.c%2 = 0 ↔ e.use%2 = 0) ↔ (s.uses e.c-e.use)%2 = 0 := by omega
  rw [← hparity]
  simp [stale, h.inst, hinst]

end Nginx.Connections
