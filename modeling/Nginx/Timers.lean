import Nginx.NgxRbtree
import Mathlib.Algebra.Order.Ring.Int

/-!
# Timers of events

The timers of events are the nodes of a red-black tree, with times in words that overflow. Two
times are compared by the sign of their difference. The address of an event stands for the
address of its node, and words have `v+1` bits.
-/

set_option autoImplicit false

namespace Nginx.Timers
open NgxRbtree

/-- `timedout` and `timer_set` are flags of the events, `ngx_current_msec` is the time. -/
structure Timers where
  tree : Rbtree
  timerSet : ℕ → Bool
  timedout : ℕ → Bool
  currentMsec : ℕ

def signedDiff (v a b : ℕ) : ℤ := ((a : ℤ)-b).bmod (2^(v+1))

/-- `ngx_abs`; the least word has no opposite. -/
def ngxAbs (v : ℕ) (value : ℤ) : ℤ := if value ≥ 0 then value else (-value).bmod (2^(v+1))

def ngxTimerLazyDelay : ℤ := 300

def ngxTimerInfinite (v : ℕ) : ℕ := 2^(v+1)-1

/-- The comparison of `ngx_rbtree_insert_timer_value` -/
def timerLess (v : ℕ) (t : Rbtree) (node temp : ℕ) : Bool :=
  signedDiff v (t.key node) (t.key temp) < 0

def ngxEventTimerInit (nodes : ℕ → Node) (sentinel now : ℕ) : Timers :=
  ⟨ngxRbtreeInit nodes sentinel,fun _ => false,fun _ => false,now⟩

def ngxEventDelTimer (fuel : ℕ) (s : Timers) (ev : ℕ) : Option Timers :=
  (ngxRbtreeDelete fuel s.tree ev).map fun tree =>
    { s with tree := tree, timerSet := Function.update s.timerSet ev false }

def insertTimer (v fuel : ℕ) (s : Timers) (ev key : ℕ) : Option Timers :=
  (ngxRbtreeInsert (timerLess v) fuel (s.tree.setKey ev key) ev).map fun tree =>
    { s with tree := tree, timerSet := Function.update s.timerSet ev true }

def ngxEventAddTimer (v fuel : ℕ) (s : Timers) (ev timer : ℕ) : Option Timers :=
  let key := (s.currentMsec+timer) % 2^(v+1)
  if s.timerSet ev then
    if ngxAbs v (signedDiff v key (s.tree.key ev)) < ngxTimerLazyDelay then some s
    else (ngxEventDelTimer fuel s ev).bind fun s => insertTimer v fuel s ev key
  else insertTimer v fuel s ev key

def ngxEventFindTimer (v fuel : ℕ) (s : Timers) : Option ℕ :=
  if s.tree.root = s.tree.sentinel then some (ngxTimerInfinite v)
  else (ngxRbtreeMin s.tree fuel s.tree.root).map fun node =>
    let timer := signedDiff v (s.tree.key node) s.currentMsec
    if timer > 0 then timer.toNat else 0

/-- A turn of the loop of `ngx_event_expire_timers`, up to the call of the handler: the event and
the timers left, or no event when the loop ends -/
def expireTurn (v fuel : ℕ) (s : Timers) : Option (Option (ℕ × Timers)) :=
  if s.tree.root = s.tree.sentinel then some none
  else (ngxRbtreeMin s.tree fuel s.tree.root).bind fun node =>
    if signedDiff v (s.tree.key node) s.currentMsec ≤ 0 then
      (ngxRbtreeDelete fuel s.tree node).map fun tree =>
        some (node, { s with
          tree := tree
          timerSet := Function.update s.timerSet node false
          timedout := Function.update s.timedout node true })
    else some none

/-! What callers and handlers do -/

inductive Call where
  | add (ev timer : ℕ)
  | del (ev : ℕ)
  deriving DecidableEq, Repr

def Call.event : Call → ℕ
  | .add ev _ => ev
  | .del ev => ev

def Does (v : ℕ) (s : Timers) : Call → Timers → Prop
  | .add ev timer, s' => ∃ fuel, ngxEventAddTimer v fuel s ev timer = some s'
  | .del ev, s' => ∃ fuel, ngxEventDelTimer fuel s ev = some s'

/-- A turn that leaves the timers `s'` and calls the handler of `ev` -/
def Fires (v : ℕ) (s : Timers) (ev : ℕ) (s' : Timers) : Prop :=
  ∃ fuel, expireTurn v fuel s = some (some (ev, s'))

def Ends (v : ℕ) (s : Timers) : Prop := ∃ fuel, expireTurn v fuel s = some none

end Nginx.Timers
