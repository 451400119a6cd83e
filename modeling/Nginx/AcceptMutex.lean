import Nginx.Runs
import Nginx.Shmtx
import Mathlib.Data.List.Basic

/-!
# Workers that take turns at the listening sockets

Each worker goes round its event loop: it tries the accept mutex, or lets the turn pass when
`ngx_accept_disabled` is positive, polls, and unlocks if it takes itself for the holder. The
sockets are in the set that a worker polls from the turn in which it gets the mutex to the turn
in which it fails to, unless one of them cannot be added or taken out: the turn then ends without
a poll. A worker that shuts down is left out.
-/

set_option autoImplicit false

namespace Nginx.AcceptMutex
open Shmtx Tally

inductive Phase where
  | top
  | tryCas (val : ℕ)
  | poll
  | unlockRead
  | unlockCas (old : ℕ)
  deriving DecidableEq

/-- `held` is `ngx_accept_mutex_held`, `disabled` is `ngx_accept_disabled`, `events` is
`ngx_accept_events`, and `active` says which listening sockets are among those the worker polls. -/
structure Worker where
  phase : Phase
  held : Bool
  disabled : ℤ
  events : Bool
  active : List Bool
  deriving DecidableEq

/-- What the event module does in a turn: the sockets that it fails to add or to delete, those
whose events an event port gives (it takes them out of its set), and what is left in
`ngx_accept_disabled` by what is accepted. -/
structure Events where
  fails : ℕ → Bool
  fired : ℕ → Bool
  disabled : ℤ

def ngxEnableAcceptEvents : List Bool → (ℕ → Bool) → List Bool × Bool
  | [], _ => ([], true)
  | a::ls, fails =>
    if fails 0 then (a::ls, false)
    else
      let (ls, ok) := ngxEnableAcceptEvents ls (fun i => fails (i+1))
      (true::ls, ok)

def ngxDisableAcceptEvents : List Bool → (ℕ → Bool) → List Bool × Bool
  | [], _ => ([], true)
  | a::ls, fails =>
    if a && fails 0 then (a::ls, false)
    else
      let (ls, ok) := ngxDisableAcceptEvents ls (fun i => fails (i+1))
      (false::ls, ok)

/-- The end of `ngx_trylock_accept_mutex` with the mutex. On an error it unlocks, and the turn
is over. -/
def haveLocked (rtsig : Bool) (w : Worker) (e : Events) : Worker :=
  if w.held && !w.events && !rtsig then { w with phase := .poll }
  else
    match ngxEnableAcceptEvents w.active e.fails with
    | (active, false) => { w with phase := .unlockRead, active := active }
    | (active, true) =>
      { w with phase := .poll, events := false, held := true, active := active }

/-- The end of `ngx_trylock_accept_mutex` without the mutex -/
def notLocked (w : Worker) (e : Events) : Worker :=
  if w.held then
    match ngxDisableAcceptEvents w.active e.fails with
    | (active, false) => { w with phase := .top, active := active }
    | (active, true) => { w with phase := .poll, held := false, active := active }
  else { w with phase := .poll }

/-- The events of the sockets polled, where an event port deactivates those it gives -/
def polled (w : Worker) (e : Events) : Worker :=
  if true ∈ w.active then
    { w with active := w.active.mapIdx (fun i a => a && !e.fired i),
             events := w.events || true ∈ w.active.mapIdx (fun i a => a && e.fired i),
             disabled := e.disabled }
  else w

/-- One access to the mutex, or the polling, in `ngx_process_events_and_timers`. `rtsig` is the
flag of the event module for real-time signals. -/
def turn (rtsig : Bool) (lock : ℕ) (w : Worker) (e : Events) : ℕ × Worker :=
  match w.phase with
  | .top =>
    if w.disabled > 0 then (lock, { w with phase := .poll, disabled := w.disabled-1 })
    else if Free lock then (lock, { w with phase := .tryCas lock })
    else (lock, notLocked w e)
  | .tryCas val =>
    if lock = val then (locked val, haveLocked rtsig w e)
    else (lock, notLocked w e)
  | .poll => (lock, { polled w e with phase := if w.held then .unlockRead else .top })
  | .unlockRead => (lock, { w with phase := .unlockCas lock })
  | .unlockCas old =>
    if lock = old then (unlocked old, { w with phase := .top })
    else (lock, { w with phase := .unlockRead })

/-- A turn that is let pass by a worker that is marked as the holder. -/
def Skips (w : Worker) : Prop := w.phase = .top ∧ w.disabled > 0 ∧ w.held = true

/-- A turn in which the mutex is locked, the first socket is added and a later one fails. -/
def Strands (lock : ℕ) (w : Worker) (e : Events) : Prop :=
  w.phase = .tryCas lock ∧ w.held = false ∧ e.fails 0 = false ∧
    ∃ i < w.active.length, e.fails i = true

def Polls (w : Worker) : Prop := w.phase = .poll ∧ true ∈ w.active

instance (w : Worker) : Decidable (Polls w) := inferInstanceAs (Decidable (_ ∧ _))

structure State (P : Type) where
  lock : ℕ
  worker : P → Worker

section Run
variable {P : Type} [DecidableEq P] (rtsig : Bool)

def next (s : State P) (p : P) (e : Events) : State P :=
  ⟨(turn rtsig s.lock (s.worker p) e).1,
    Function.update s.worker p (turn rtsig s.lock (s.worker p) e).2⟩

/-- The states of runs over `n` sockets, `strict` ones without a turn that `Skips` or
`Strands`. -/
inductive Reached (n : ℕ) (strict : Bool) : State P → Prop where
  | start : Reached n strict ⟨0,fun _ => ⟨.top,false,0,false,List.replicate n false⟩⟩
  | next (s : State P) (p : P) (e : Events) (hs : Reached n strict s)
      (hstrict : strict = true → ¬Skips (s.worker p) ∧ ¬Strands s.lock (s.worker p) e) :
      Reached n strict (next rtsig s p e)

end Run

section Sockets
variable (ls : List Bool) (fails : ℕ → Bool)

theorem enable_failed (h : (ngxEnableAcceptEvents ls fails).2 = false) :
    (fails 0 = true ∧ (ngxEnableAcceptEvents ls fails).1 = ls) ∨
      fails 0 = false ∧ ∃ i < ls.length, fails i = true := by
  induction ls generalizing fails with
  | nil => cases h
  | cons a ls ih =>
    rw [ngxEnableAcceptEvents] at h ⊢
    by_cases hfirst : fails 0 = true
    · rw [if_pos hfirst]
      exact Or.inl ⟨hfirst,rfl⟩
    rw [if_neg hfirst] at h
    refine Or.inr ⟨by simpa using hfirst,?_⟩
    rcases ih _ h with ⟨hnext,-⟩ | ⟨-,i,hi,hfails⟩
    · refine ⟨1,?_,hnext⟩
      cases ls with
      | nil => cases h
      | cons b ls => simp
    · exact ⟨i+1,by simpa using hi,hfails⟩

theorem disable_all (h : (ngxDisableAcceptEvents ls fails).2 = true) :
    true ∉ (ngxDisableAcceptEvents ls fails).1 := by
  induction ls generalizing fails with
  | nil => exact List.not_mem_nil
  | cons a ls ih =>
    rw [ngxDisableAcceptEvents] at h ⊢
    split_ifs at h ⊢ with hfails
    simpa using ih _ h

end Sockets

/-- A worker that has locked the mutex and has not unlocked it yet. -/
def owns (w : Worker) : ℕ :=
  match w.phase with
  | .poll => w.held.toNat
  | .unlockRead => 1
  | .unlockCas _ => 1
  | _ => 0

structure Fits (w : Worker) : Prop where
  active : w.held = false → true ∉ w.active
  cas : ∀ val, w.phase = .tryCas val → Free val

inductive Effect (lock : ℕ) (w : Worker) : ℕ → Worker → Prop where
  | quiet (w' : Worker) (h : owns w' = owns w) : Effect lock w lock w'
  | acquire (w' : Worker) (hfree : Free lock) (h : owns w = 0) (h' : owns w' = 1) :
      Effect lock w (locked lock) w'
  | release (w' : Worker) (h : owns w = 1) (h' : owns w' = 0) : Effect lock w (unlocked lock) w'

theorem not_locked (w : Worker) (e : Events) (h : Fits w) :
    owns (notLocked w e) = 0 ∧ Fits (notLocked w e) := by
  rw [notLocked]
  by_cases hheld : w.held = true
  · rw [if_pos hheld]
    rcases hoff : ngxDisableAcceptEvents w.active e.fails with ⟨active,_ | _⟩
    · exact ⟨rfl,fun hno => absurd (hheld.symm.trans hno) nofun,fun val h => by cases h⟩
    · refine ⟨rfl,fun _ => ?_,fun val h => by cases h⟩
      have hall := disable_all w.active e.fails
      rw [hoff] at hall
      exact hall rfl
  rw [if_neg hheld]
  have hnot : w.held = false := by simpa using hheld
  refine ⟨?_,h.active,fun val h => by cases h⟩
  rw [owns]
  exact congrArg Bool.toNat hnot

theorem have_locked (rtsig : Bool) (lock : ℕ) (w : Worker) (e : Events) (h : Fits w)
    (hphase : w.phase = .tryCas lock) (hstrand : ¬Strands lock w e) :
    owns (haveLocked rtsig w e) = 1 ∧ Fits (haveLocked rtsig w e) := by
  rw [haveLocked]
  by_cases hkept : (w.held && !w.events && !rtsig) = true
  · rw [if_pos hkept]
    have hheld : w.held = true := by
      rw [Bool.and_assoc] at hkept
      exact (Bool.and_eq_true_iff.mp hkept).1
    exact ⟨congrArg Bool.toNat hheld,h.active,fun val h => by cases h⟩
  rw [if_neg hkept]
  rcases hon : ngxEnableAcceptEvents w.active e.fails with ⟨active,_ | _⟩
  · refine ⟨rfl,fun hheld => ?_,fun val h => by cases h⟩
    have hfailed := enable_failed w.active e.fails
    rw [hon] at hfailed
    rcases hfailed rfl with ⟨-,hsame⟩ | ⟨hfirst,hlater⟩
    · rw [show active = w.active from hsame]
      exact h.active hheld
    · exact absurd ⟨hphase,hheld,hfirst,hlater⟩ hstrand
  · exact ⟨rfl,nofun,fun val h => by cases h⟩

theorem polled_fits (w : Worker) (e : Events) (h : Fits w) :
    (polled w e).held = w.held ∧ (w.held = false → true ∉ (polled w e).active) := by
  rw [polled]
  by_cases hactive : true ∈ w.active
  · rw [if_pos hactive]
    exact ⟨rfl,fun hheld => absurd hactive (h.active hheld)⟩
  · rw [if_neg hactive]
    exact ⟨rfl,h.active⟩

theorem turn_effect (rtsig : Bool) (lock : ℕ) (w : Worker) (e : Events) (h : Fits w)
    (hskip : ¬Skips w) (hstrand : ¬Strands lock w e) :
    Effect lock w (turn rtsig lock w e).1 (turn rtsig lock w e).2 ∧
      Fits (turn rtsig lock w e).2 := by
  rw [turn]
  cases hphase : w.phase with
  | top =>
    have hzero : owns w = 0 := by rw [owns, hphase]
    dsimp only
    split_ifs with hdisabled hfree
    · have hheld : w.held = false := by
        by_contra hno
        exact hskip ⟨hphase,hdisabled,by simpa using hno⟩
      refine ⟨.quiet _ ?_,h.active,fun val h => by cases h⟩
      rw [hzero]
      exact congrArg Bool.toNat hheld
    · exact ⟨.quiet _ hzero.symm,h.active,fun val h => by cases h; exact hfree⟩
    · exact ⟨.quiet _ ((not_locked w e h).1.trans hzero.symm),(not_locked w e h).2⟩
  | tryCas val =>
    have hzero : owns w = 0 := by rw [owns, hphase]
    dsimp only
    split_ifs with hval
    · subst hval
      obtain ⟨howns,hfits⟩ := have_locked rtsig lock w e h hphase hstrand
      exact ⟨.acquire _ (h.cas lock hphase) hzero howns,hfits⟩
    · exact ⟨.quiet _ ((not_locked w e h).1.trans hzero.symm),(not_locked w e h).2⟩
  | poll =>
    obtain ⟨hheld,hnone⟩ := polled_fits w e h
    dsimp only
    refine ⟨.quiet _ ?_,fun hno => hnone (hheld.symm.trans hno),fun val h => ?_⟩
    · rw [owns, owns, hphase]
      cases w.held <;> rfl
    · dsimp only at h
      split_ifs at h
  | unlockRead =>
    refine ⟨.quiet _ ?_,h.active,fun val h => by cases h⟩
    rw [owns, owns, hphase]
  | unlockCas old =>
    have hone : owns w = 1 := by rw [owns, hphase]
    dsimp only
    split_ifs with hold
    · subst hold
      exact ⟨.release _ hone rfl,h.active,fun val h => by cases h⟩
    · exact ⟨.quiet _ hone.symm,h.active,fun val h => by cases h⟩

section Law
variable {P : Type} [Fintype P]

structure Inv (s : State P) : Prop where
  fits : ∀ p, Fits (s.worker p)
  word : s.lock = 2^31*tally owns s.worker
  one : tally owns s.worker ≤ 1

variable [DecidableEq P] (rtsig : Bool)

theorem next_inv (s : State P) (p : P) (e : Events) (hskip : ¬Skips (s.worker p))
    (hstrand : ¬Strands s.lock (s.worker p) e) (h : Inv s) : Inv (next rtsig s p e) := by
  obtain ⟨hfits,hword,hone⟩ := h
  obtain ⟨heffect,hfit⟩ := turn_effect rtsig s.lock (s.worker p) e (hfits p) hskip hstrand
  have hmove := tally_move owns s.worker p (turn rtsig s.lock (s.worker p) e).2
  have hmem := tally_member owns s.worker p
  have hfits' : ∀ q, Fits ((next rtsig s p e).worker q) := fun q => by
    rcases eq_or_ne q p with rfl | hq
    · simpa [next] using hfit
    · simpa [next, Function.update_of_ne hq] using hfits q
  suffices hcount : (turn rtsig s.lock (s.worker p) e).1 =
      2^31*tally owns (Function.update s.worker p (turn rtsig s.lock (s.worker p) e).2) ∧
      tally owns (Function.update s.worker p (turn rtsig s.lock (s.worker p) e).2) ≤ 1 from
    ⟨hfits',hcount.1,hcount.2⟩
  generalize turn rtsig s.lock (s.worker p) e = r at *
  obtain ⟨lock,w⟩ := r
  dsimp only at *
  cases heffect with
  | quiet _ h => omega
  | acquire _ hfree h h' =>
    have hzero : tally owns s.worker = 0 := by
      by_contra hno
      rw [hword, show tally owns s.worker = 1 by omega] at hfree
      exact absurd hfree (by decide)
    rw [hword, hzero, show tally owns (Function.update s.worker p w) = 1 by omega]
    decide
  | release _ h h' =>
    rw [hword, show tally owns s.worker = 1 by omega,
      show tally owns (Function.update s.worker p w) = 0 by omega]
    decide

variable (n : ℕ)

theorem reached_inv (s : State P) (h : Reached rtsig n true s) : Inv s := by
  induction h with
  | start =>
    have hzero := tally_const (P := P) owns ⟨.top,false,0,false,List.replicate n false⟩ rfl
    refine ⟨fun _ => ⟨fun _ hmem => ?_,fun val h => by cases h⟩,by simp only [hzero, Nat.mul_zero],
      hzero.trans_le zero_le_one⟩
    exact absurd (List.eq_of_mem_replicate hmem) nofun
  | next s p e _ hstrict ih =>
    exact next_inv rtsig s p e (hstrict rfl).1 (hstrict rfl).2 ih

/-- At most one worker polls the listening sockets, as long as no worker lets its turn pass
while it is marked as the holder, and none fails to add a socket behind the first. -/
theorem one_accepts (s : State P) (h : Reached rtsig n true s) (p q : P)
    (hp : Polls (s.worker p)) (hq : Polls (s.worker q)) : p = q := by
  have hinv := reached_inv rtsig n s h
  have howns (p : P) (hp : Polls (s.worker p)) : owns (s.worker p) = 1 := by
    have hheld : (s.worker p).held = true := by
      by_contra hno
      exact (hinv.fits p).active (by simpa using hno) hp.2
    rw [owns, hp.1]
    exact congrArg Bool.toNat hheld
  by_contra hpq
  have htwo := tally_two owns s.worker p q hpq
  rw [howns p hp, howns q hq] at htwo
  have hone := hinv.one
  omega

end Law

/-! ## Two workers with two sockets -/

instance (w : Worker) : Decidable (Skips w) := inferInstanceAs (Decidable (_ ∧ _))

instance (lock : ℕ) (w : Worker) (e : Events) : Decidable (Strands lock w e) :=
  inferInstanceAs (Decidable (_ ∧ _ ∧ _ ∧ _))

/-- A turn of a worker, with what is left in `ngx_accept_disabled` and the sockets that fail -/
def runStep (s : State (Fin 2)) (t : Fin 2 × ℤ × List ℕ) : Option (State (Fin 2)) :=
  some (next false s t.1 ⟨(· ∈ t.2.2),fun _ => false,t.2.1⟩)

def runCheck (strict : Bool) (s : State (Fin 2)) (t : Fin 2 × ℤ × List ℕ) : Bool :=
  !strict || decide (¬Skips (s.worker t.1) ∧
    ¬Strands s.lock (s.worker t.1) ⟨(· ∈ t.2.2),fun _ => false,t.2.1⟩)

theorem run_reached (strict : Bool) (ts : List (Fin 2 × ℤ × List ℕ)) (last : State (Fin 2) → Bool)
    (h : (Runs.run runStep (runCheck strict)
      ⟨0,fun _ => ⟨.top,false,0,false,[false,false]⟩⟩ ts).any last = true) :
    ∃ s : State (Fin 2), Reached false 2 strict s ∧ last s = true := by
  refine Runs.run_reaches runStep (runCheck strict) (Reached false 2 strict) ?_ ts _ .start last h
  intro s t s' hs hcheck hstep
  cases hstep
  refine hs.next s t.1 _ (fun hstrict => ?_)
  subst hstrict
  exact of_decide_eq_true hcheck

/-- Worker 0 polls and unlocks. Worker 1 cannot add its first socket and unlocks at once, while
worker 0 takes its sockets back. In the next turn worker 1 gets the mutex. -/
theorem one_accepts_passed : ∃ s : State (Fin 2), Reached false 2 true s ∧
    (s.worker 0).phase = .poll ∧ Polls (s.worker 1) ∧ ∀ q, Polls (s.worker q) → 1 = q := by
  obtain ⟨s,hs,hlast⟩ := run_reached true
    [(0, 0, []), (0, 0, []), (0, 0, []), (0, 0, []), (0, 0, []), (1, 0, []), (1, 0, [0]),
      (0, 0, []), (1, 0, []), (1, 0, []), (0, 0, []), (1, 0, []), (1, 0, []), (0, 0, [])]
    (fun s => decide ((s.worker 0).phase = .poll ∧ Polls (s.worker 1))) (by decide +kernel)
  obtain ⟨hzero,hone⟩ := of_decide_eq_true hlast
  exact ⟨s,hs,hzero,hone,fun q => one_accepts false 2 s hs 1 q hone⟩

/-- Worker 0 accepts more than its share, passes its next turn with the sockets still in its set,
and worker 1 takes the mutex. -/
theorem two_accept : ∃ s : State (Fin 2), Reached false 2 false s ∧ ∀ p, Polls (s.worker p) := by
  obtain ⟨s,hs,hlast⟩ := run_reached false
    [(0, 1, []), (0, 1, []), (0, 1, []), (0, 1, []), (0, 1, []), (0, 1, []), (1, 1, []),
      (1, 1, [])]
    (fun s => decide (∀ p, Polls (s.worker p))) (by decide +kernel)
  exact ⟨s,hs,of_decide_eq_true hlast⟩

/-- Worker 0 has added the first socket when the second one fails. It unlocks, and it is not
marked as the holder, so it keeps the socket. -/
theorem two_accept_failed : ∃ s : State (Fin 2), Reached false 2 false s ∧
    (∀ p, Polls (s.worker p)) ∧ (s.worker 0).held = false := by
  obtain ⟨s,hs,hlast⟩ := run_reached false
    [(0, 0, []), (0, 0, [1]), (0, 0, []), (0, 0, []), (1, 0, []), (1, 0, []), (0, 0, [])]
    (fun s => decide ((∀ p, Polls (s.worker p)) ∧ (s.worker 0).held = false)) (by decide +kernel)
  exact ⟨s,hs,of_decide_eq_true hlast⟩

end Nginx.AcceptMutex
