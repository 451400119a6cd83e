import Mathlib.Data.Nat.Bitwise
import Nginx.Tally

/-!
# The mutex of shared memory

Any number of processes run the code of the mutex, one atomic access at a time: a read of the
lock word, a compare-and-set, a turn of the semaphore. The upper bit of the word says that the
mutex is locked, the lower 31 bits count the processes that wait on the semaphore. A process
locks, tries to lock and unlocks when it likes; it unlocks only what it has locked. `sem_wait`
fails by `EINTR` alone, and `sem_post` does not fail.
-/

set_option autoImplicit false

namespace Nginx.Shmtx
open Tally

/-- `(val & 0x80000000) == 0` -/
def Free (val : ℕ) : Prop := val &&& 0x80000000 = 0

instance (val : ℕ) : Decidable (Free val) := inferInstanceAs (Decidable (_ = 0))

def locked (val : ℕ) : ℕ := val ||| 0x80000000

def waiters (old : ℕ) : ℕ := old &&& 0x7fffffff

def unlocked (old : ℕ) : ℕ := if waiters old ≠ 0 then waiters old-1 else 0

structure Config where
  ncpu : ℕ
  spin : ℕ
  semaphore : Bool

structure Shared where
  lock : ℕ
  sem : ℕ
  deriving DecidableEq

/-- Where a process is: `tryRead` and `tryCas` in `ngx_shmtx_trylock`; from `lockRead` to `asleep`
in `ngx_shmtx_lock`; `unlockRead`, `unlockCas` and `post` in `ngx_shmtx_unlock`. -/
inductive Pc where
  | outside
  | tryRead
  | tryCas (val : ℕ)
  | lockRead
  | lockCas (val : ℕ)
  | spinRead (n : ℕ)
  | spinCas (n val : ℕ)
  | waitRead
  | waitCas (val : ℕ)
  | asleep
  | inside
  | unlockRead
  | unlockCas (old : ℕ)
  | post
  deriving DecidableEq

inductive Act where
  | trylock
  | lock
  | unlock
  | go
  deriving DecidableEq

section Turn
variable (cfg : Config)

/-- `n < mtx->spin` at the head of the spinning loop -/
def spinning (n : ℕ) : Pc := if n < cfg.spin then .spinRead n else .waitRead

/-- What follows the first attempt in a round of `ngx_shmtx_lock` -/
def missed : Pc := if 1 < cfg.ncpu then spinning cfg 1 else .waitRead

/-- One access to the shared memory by a process, with the place it goes on from. -/
def turn (m : Shared) : Pc → Act → Option (Shared × Pc)
  | .outside, .trylock => some (m, .tryRead)
  | .outside, .lock => some (m, .lockRead)
  | .inside, .unlock => some (m, .unlockRead)
  | .tryRead, .go => some (m, if Free m.lock then .tryCas m.lock else .outside)
  | .tryCas val, .go =>
    if m.lock = val then some ({ m with lock := locked val }, .inside) else some (m, .outside)
  | .lockRead, .go => some (m, if Free m.lock then .lockCas m.lock else missed cfg)
  | .lockCas val, .go =>
    if m.lock = val then some ({ m with lock := locked val }, .inside) else some (m, missed cfg)
  | .spinRead n, .go =>
    some (m, if Free m.lock then .spinCas n m.lock else spinning cfg (n <<< 1))
  | .spinCas n val, .go =>
    if m.lock = val then some ({ m with lock := locked val }, .inside)
    else some (m, spinning cfg (n <<< 1))
  | .waitRead, .go =>
    some (m, if cfg.semaphore ∧ ¬Free m.lock then .waitCas m.lock else .lockRead)
  | .waitCas val, .go =>
    if m.lock = val then some ({ m with lock := (val+1) % 2^64 }, .asleep) else some (m, .lockRead)
  | .asleep, .go => if m.sem = 0 then none else some ({ m with sem := m.sem-1 }, .lockRead)
  | .unlockRead, .go => some (m, .unlockCas m.lock)
  | .unlockCas old, .go =>
    if m.lock = old then
      some ({ m with lock := unlocked old },
        if waiters old = 0 ∨ cfg.semaphore = false then .outside else .post)
    else some (m, .unlockRead)
  | .post, .go => some ({ m with sem := m.sem+1 }, .outside)
  | _, _ => none

end Turn

structure State (P : Type) where
  shared : Shared
  pc : P → Pc

section Run
variable {P : Type} [DecidableEq P] (cfg : Config)

inductive Step : State P → State P → Prop where
  | turn (s : State P) (p : P) (act : Act) (m : Shared) (pc : Pc)
      (h : turn cfg s.shared (s.pc p) act = some (m, pc)) :
      Step s ⟨m,Function.update s.pc p pc⟩

inductive Reached : State P → Prop where
  | start : Reached ⟨⟨0,0⟩,fun _ => .outside⟩
  | step (s t : State P) (hs : Reached s) (ht : Step cfg s t) : Reached t

end Run

/-! ## The word -/

theorem free_iff (val : ℕ) : Free val ↔ val.testBit 31 = false := by
  rw [Free, show (0x80000000 : ℕ) = 2^31 by rfl, Nat.and_two_pow]
  cases val.testBit 31 <;> simp

section Word
variable (w : ℕ) (hw : w < 2^31)

theorem waiters_mod (old : ℕ) : waiters old = old % 2^31 :=
  Nat.and_two_pow_sub_one_eq_mod old 31

include hw

theorem free_count : Free w := by
  rw [free_iff]
  exact Nat.testBit_lt_two_pow hw

theorem not_free_locked : ¬Free (2^31+w) := by
  rw [free_iff, Nat.testBit_two_pow_add_eq, Nat.testBit_lt_two_pow hw]
  decide

theorem locked_count : locked w = 2^31+w := by
  rw [locked, Nat.or_comm, show (0x80000000 : ℕ) = 2^31*1 by rfl,
    ← Nat.two_pow_add_eq_or_of_lt hw 1, Nat.mul_one]

theorem waiters_locked : waiters (2^31+w) = w := by
  rw [waiters_mod, Nat.add_mod_left, Nat.mod_eq_of_lt hw]

end Word

/-! ## The places of the code -/

def inside : Pc → ℕ
  | .inside => 1
  | .unlockRead => 1
  | .unlockCas _ => 1
  | _ => 0

def contends : Pc → ℕ
  | .lockRead => 1
  | .lockCas _ => 1
  | .spinRead _ => 1
  | .spinCas _ _ => 1
  | .waitRead => 1
  | .waitCas _ => 1
  | _ => 0

def sleeps : Pc → ℕ
  | .asleep => 1
  | _ => 0

def posts : Pc → ℕ
  | .post => 1
  | _ => 0

/-- What a value that was read before says when a process compares it. -/
def Fits (cfg : Config) : Pc → Prop
  | .tryCas val => Free val
  | .lockCas val => Free val
  | .spinCas _ val => Free val
  | .waitCas val => cfg.semaphore = true ∧ ¬Free val
  | _ => True

/-- A process that neither holds the mutex nor sleeps nor owes a turn of the semaphore. -/
structure Apart (pc : Pc) : Prop where
  inside : inside pc = 0
  sleeps : sleeps pc = 0
  posts : posts pc = 0

/-- What one access does to the word, to the semaphore and to the place of the process. -/
inductive Effect (cfg : Config) (m : Shared) (pc : Pc) : Shared → Pc → Prop where
  | quiet (pc' : Pc) (hin : inside pc' = inside pc) (hsleep : sleeps pc' = sleeps pc)
      (hpost : posts pc' = posts pc) (hcon : contends pc ≤ contends pc') : Effect cfg m pc m pc'
  | acquire (hfree : Free m.lock) (hpc : Apart pc) :
      Effect cfg m pc { m with lock := locked m.lock } .inside
  | register (hsem : cfg.semaphore = true) (hbusy : ¬Free m.lock) (hpc : Apart pc) :
      Effect cfg m pc { m with lock := (m.lock+1) % 2^64 } .asleep
  | awake (hsem : m.sem ≠ 0) (hpc : pc = .asleep) :
      Effect cfg m pc { m with sem := m.sem-1 } .lockRead
  | release (old : ℕ) (hpc : pc = .unlockCas old) :
      Effect cfg m pc { m with lock := unlocked m.lock }
        (if waiters m.lock = 0 ∨ cfg.semaphore = false then .outside else .post)
  | posted (hpc : pc = .post) : Effect cfg m pc { m with sem := m.sem+1 } .outside

section Effects
variable (cfg : Config) (m : Shared)

theorem spinning_contends (n : ℕ) : ∃ pc, spinning cfg n = pc ∧ Apart pc ∧ contends pc = 1 ∧
    Fits cfg pc := by
  unfold spinning
  split_ifs <;> exact ⟨_,rfl,⟨rfl,rfl,rfl⟩,rfl,trivial⟩

theorem missed_contends : ∃ pc, missed cfg = pc ∧ Apart pc ∧ contends pc = 1 ∧ Fits cfg pc := by
  unfold missed
  split_ifs
  · exact spinning_contends cfg 1
  · exact ⟨_,rfl,⟨rfl,rfl,rfl⟩,rfl,trivial⟩

theorem effect_apart (pc pc' : Pc) (hpc : Apart pc) (hpc' : Apart pc')
    (hcon : contends pc ≤ contends pc') : Effect cfg m pc m pc' :=
  .quiet pc' (hpc'.1.trans hpc.1.symm) (hpc'.2.trans hpc.2.symm) (hpc'.3.trans hpc.3.symm) hcon

theorem effect_cas (pc rest : Pc) (val : ℕ) (hfree : Free val) (hpc : Apart pc)
    (hrest : Effect cfg m pc m rest ∧ Fits cfg rest) (m' : Shared) (pc' : Pc)
    (h : (if m.lock = val then some ({ m with lock := locked val }, Pc.inside)
      else some (m, rest)) = some (m', pc')) : Effect cfg m pc m' pc' ∧ Fits cfg pc' := by
  split_ifs at h with hval
  · cases h
    subst hval
    exact ⟨.acquire hfree hpc,trivial⟩
  · cases h
    exact hrest

theorem turn_effect (m' : Shared) (pc pc' : Pc) (act : Act) (hfits : Fits cfg pc)
    (h : turn cfg m pc act = some (m', pc')) : Effect cfg m pc m' pc' ∧ Fits cfg pc' := by
  -- the process stays in `ngx_shmtx_lock`
  have hstay (pc pc' : Pc) (hpc : Apart pc) (hcon : contends pc ≤ 1)
      (h : ∃ q, pc' = q ∧ Apart q ∧ contends q = 1 ∧ Fits cfg q) :
      Effect cfg m pc m pc' ∧ Fits cfg pc' := by
    obtain ⟨q,rfl,hq,hone,hfit⟩ := h
    exact ⟨effect_apart cfg m pc pc' hpc hq (by omega),hfit⟩
  cases act with
  | trylock =>
    cases pc <;> cases h
    exact ⟨effect_apart cfg m _ _ ⟨rfl,rfl,rfl⟩ ⟨rfl,rfl,rfl⟩ le_rfl,trivial⟩
  | lock =>
    cases pc <;> cases h
    exact ⟨effect_apart cfg m _ _ ⟨rfl,rfl,rfl⟩ ⟨rfl,rfl,rfl⟩ (Nat.zero_le _),trivial⟩
  | unlock =>
    cases pc <;> cases h
    exact ⟨.quiet _ rfl rfl rfl le_rfl,trivial⟩
  | go =>
    cases pc with
    | outside => cases h
    | inside => cases h
    | tryRead =>
      cases h
      split_ifs with hfree
      · exact ⟨effect_apart cfg m _ _ ⟨rfl,rfl,rfl⟩ ⟨rfl,rfl,rfl⟩ le_rfl,hfree⟩
      · exact ⟨effect_apart cfg m _ _ ⟨rfl,rfl,rfl⟩ ⟨rfl,rfl,rfl⟩ le_rfl,trivial⟩
    | tryCas val =>
      exact effect_cas cfg m (.tryCas val) .outside val hfits ⟨rfl,rfl,rfl⟩
        ⟨effect_apart cfg m _ _ ⟨rfl,rfl,rfl⟩ ⟨rfl,rfl,rfl⟩ le_rfl,trivial⟩ m' pc' h
    | lockRead =>
      cases h
      split_ifs with hfree
      · exact hstay _ _ ⟨rfl,rfl,rfl⟩ le_rfl ⟨_,rfl,⟨rfl,rfl,rfl⟩,rfl,hfree⟩
      · exact hstay _ _ ⟨rfl,rfl,rfl⟩ le_rfl (missed_contends cfg)
    | lockCas val =>
      exact effect_cas cfg m _ _ val hfits ⟨rfl,rfl,rfl⟩
        (hstay _ _ ⟨rfl,rfl,rfl⟩ le_rfl (missed_contends cfg)) m' pc' h
    | spinRead n =>
      cases h
      split_ifs with hfree
      · exact hstay _ _ ⟨rfl,rfl,rfl⟩ le_rfl ⟨_,rfl,⟨rfl,rfl,rfl⟩,rfl,hfree⟩
      · exact hstay _ _ ⟨rfl,rfl,rfl⟩ le_rfl (spinning_contends cfg _)
    | spinCas n val =>
      exact effect_cas cfg m _ _ val hfits ⟨rfl,rfl,rfl⟩
        (hstay _ _ ⟨rfl,rfl,rfl⟩ le_rfl (spinning_contends cfg _)) m' pc' h
    | waitRead =>
      cases h
      split_ifs with hbusy
      · exact hstay _ _ ⟨rfl,rfl,rfl⟩ le_rfl ⟨_,rfl,⟨rfl,rfl,rfl⟩,rfl,hbusy⟩
      · exact hstay _ _ ⟨rfl,rfl,rfl⟩ le_rfl ⟨_,rfl,⟨rfl,rfl,rfl⟩,rfl,trivial⟩
    | waitCas val =>
      rw [turn] at h
      split_ifs at h with hval <;> cases h
      · subst hval
        exact ⟨.register hfits.1 hfits.2 ⟨rfl,rfl,rfl⟩,trivial⟩
      · exact hstay _ _ ⟨rfl,rfl,rfl⟩ le_rfl ⟨_,rfl,⟨rfl,rfl,rfl⟩,rfl,trivial⟩
    | asleep =>
      rw [turn] at h
      split_ifs at h with hsem
      cases h
      exact ⟨.awake hsem rfl,trivial⟩
    | unlockRead =>
      cases h
      exact ⟨.quiet _ rfl rfl rfl le_rfl,trivial⟩
    | unlockCas old =>
      rw [turn] at h
      split_ifs at h with hval hwait <;> cases h
      · subst hval
        exact ⟨by simpa only [if_pos hwait] using @Effect.release cfg m _ _ rfl,trivial⟩
      · subst hval
        exact ⟨by simpa only [if_neg hwait] using @Effect.release cfg m _ _ rfl,trivial⟩
      · exact ⟨.quiet _ rfl rfl rfl le_rfl,trivial⟩
    | post =>
      cases h
      exact ⟨.posted rfl,trivial⟩

end Effects

/-! ## The invariant -/

/-- `w` processes are counted by the word. With the tokens of the semaphore and those that are
still owed they are as many as the processes that sleep. -/
structure Counts (cfg : Config) (m : Shared) (ins slp pst con w : ℕ) : Prop where
  word : m.lock = 2^31*ins+w
  one : ins ≤ 1
  sleepers : w+m.sem+pst = slp
  semaphore : cfg.semaphore = false → w = 0
  woken : ins = 0 → 0 < w → 0 < m.sem+pst+con

section Counting
variable (cfg : Config) (m : Shared) (ins slp pst con w : ℕ)

theorem counts_busy (h : Counts cfg m ins slp pst con w) (hw : w < 2^31) :
    Free m.lock ↔ ins = 0 := by
  have hone := h.one
  rw [h.word]
  constructor
  · intro hfree
    by_contra hno
    rw [show ins = 1 by omega, Nat.mul_one] at hfree
    exact not_free_locked w hw hfree
  · rintro rfl
    simpa using free_count w hw

theorem effect_counts (pc pc' : Pc) (m' : Shared) (ins' slp' pst' con' : ℕ)
    (hin : ins'+inside pc = ins+inside pc') (hslp : slp'+sleeps pc = slp+sleeps pc')
    (hpst : pst'+posts pc = pst+posts pc') (hcon : con'+contends pc = con+contends pc')
    (hmem : inside pc ≤ ins) (hfew : slp < 2^31) (hfew' : slp' < 2^31)
    (heffect : Effect cfg m pc m' pc') (h : Counts cfg m ins slp pst con w) :
    ∃ w', Counts cfg m' ins' slp' pst' con' w' := by
  have hbusy := counts_busy cfg m ins slp pst con w h (by have := h.sleepers; omega)
  obtain ⟨hword,hone,hsleep,hnosem,hwoken⟩ := h
  have hw : w < 2^31 := by omega
  cases heffect with
  | quiet _ h1 h2 h3 h4 =>
    obtain rfl : ins' = ins := by omega
    exact ⟨w,hword,hone,by omega,hnosem,by omega⟩
  | acquire hf hpc =>
    obtain rfl := hbusy.mp hf
    simp only [hpc.inside, hpc.sleeps, hpc.posts] at hin hslp hpst
    simp only [inside, sleeps, posts] at hin hslp hpst
    obtain rfl : ins' = 1 := by omega
    refine ⟨w,?_,le_rfl,by dsimp only; omega,hnosem,fun h => absurd h one_ne_zero⟩
    rw [hword, Nat.mul_zero, Nat.zero_add]
    exact locked_count w hw
  | register hsem hf hpc =>
    simp only [hpc.inside, hpc.sleeps, hpc.posts] at hin hslp hpst
    simp only [inside, sleeps, posts] at hin hslp hpst
    obtain rfl : ins' = ins := by omega
    exact ⟨w+1,by dsimp only; omega,hone,by dsimp only; omega,fun h => absurd h (by simp [hsem]),
      fun h => absurd (hbusy.mpr h) hf⟩
  | awake hsem hpc =>
    subst hpc
    simp only [inside, sleeps, posts, contends] at hin hslp hpst hcon
    obtain rfl : ins' = ins := by omega
    exact ⟨w,hword,hone,by dsimp only; omega,hnosem,by dsimp only; omega⟩
  | release old hpc =>
    subst hpc
    simp only [inside] at hin hmem
    obtain rfl : ins = 1 := by omega
    have hwait : waiters m.lock = w := by
      rw [hword, Nat.mul_one]
      exact waiters_locked w hw
    by_cases hzero : w = 0
    · rw [if_pos (Or.inl (hwait.trans hzero))] at hin hslp hpst hcon
      simp only [sleeps, posts] at hin hslp hpst
      obtain rfl : ins' = 0 := by omega
      exact ⟨0,if_neg (by omega),Nat.zero_le 1,by dsimp only; omega,fun _ => rfl,by omega⟩
    · have hsem : cfg.semaphore ≠ false := fun h => hzero (hnosem h)
      rw [if_neg (not_or.mpr ⟨fun h => hzero (hwait.symm.trans h),hsem⟩)] at hin hslp hpst hcon
      simp only [sleeps, posts] at hin hslp hpst
      obtain rfl : ins' = 0 := by omega
      refine ⟨w-1,?_,Nat.zero_le 1,by dsimp only; omega,fun h => absurd h hsem,by dsimp only; omega⟩
      rw [unlocked, if_pos (by omega), hwait, Nat.mul_zero, Nat.zero_add]
  | posted hpc =>
    subst hpc
    simp only [inside, sleeps, posts] at hin hslp hpst
    obtain rfl : ins' = ins := by omega
    exact ⟨w,hword,hone,by dsimp only; omega,hnosem,by dsimp only; omega⟩

end Counting

section Law
variable {P : Type} [Fintype P] (cfg : Config)

structure Inv (s : State P) : Prop where
  fits : ∀ p, Fits cfg (s.pc p)
  counts : ∃ w, Counts cfg s.shared (tally inside s.pc) (tally sleeps s.pc) (tally posts s.pc)
    (tally contends s.pc) w

variable (hfew : Fintype.card P < 2^31)
include hfew

theorem sleepers_few (f : P → Pc) : tally sleeps f < 2^31 :=
  (tally_card sleeps f (fun pc => by cases pc <;> simp [sleeps])).trans_lt hfew

variable [DecidableEq P]

theorem step_inv (s t : State P) (h : Step cfg s t) (hinv : Inv cfg s) : Inv cfg t := by
  cases h with
  | turn p act m pc hturn =>
    obtain ⟨hfits,w,hcounts⟩ := hinv
    obtain ⟨heffect,hfit⟩ := turn_effect cfg s.shared m (s.pc p) pc act (hfits p) hturn
    constructor
    · intro q
      rcases eq_or_ne q p with rfl | hq
      · simpa using hfit
      · simpa [Function.update_of_ne hq] using hfits q
    · exact effect_counts cfg s.shared _ _ _ _ w (s.pc p) pc m _ _ _ _ (tally_move ..)
        (tally_move ..) (tally_move ..) (tally_move ..) (tally_member ..) (sleepers_few hfew _)
        (sleepers_few hfew _) heffect hcounts

theorem reached_inv (s : State P) (h : Reached cfg s) : Inv cfg s := by
  induction h with
  | start =>
    refine ⟨fun _ => trivial,0,?_⟩
    rw [tally_const inside _ rfl, tally_const sleeps _ rfl, tally_const posts _ rfl,
      tally_const contends _ rfl]
    exact ⟨rfl,Nat.zero_le 1,rfl,fun _ => rfl,fun _ h => absurd h (Nat.lt_irrefl 0)⟩
  | step s t _ ht ih => exact step_inv cfg hfew s t ht ih

/-- At most one process is between the compare-and-set that locks and the one that unlocks. -/
theorem mutual_exclusion (s : State P) (h : Reached cfg s) (p q : P)
    (hp : inside (s.pc p) = 1) (hq : inside (s.pc q) = 1) : p = q := by
  obtain ⟨-,w,hcounts⟩ := reached_inv cfg hfew s h
  by_contra hpq
  have hone := hcounts.one
  have htwo := tally_two inside s.pc p q hpq
  omega

/-- When every process is outside or sleeps, and some process sleeps, the semaphore holds a
token for it: no sleeper is left that nobody will wake. -/
theorem no_lost_wakeup (s : State P) (h : Reached cfg s)
    (hrest : ∀ p, s.pc p = .outside ∨ s.pc p = .asleep) (p : P) (hp : s.pc p = .asleep) :
    0 < s.shared.sem := by
  obtain ⟨-,w,hcounts⟩ := reached_inv cfg hfew s h
  have hzero (c : Pc → ℕ) (ho : c .outside = 0) (ha : c .asleep = 0) : tally c s.pc = 0 :=
    tally_zero c s.pc (fun q => by rcases hrest q with hq | hq <;> rw [hq] <;> assumption)
  have hin := hzero inside rfl rfl
  have hpost := hzero posts rfl rfl
  have hcon := hzero contends rfl rfl
  have hslp := tally_member sleeps s.pc p
  rw [hp, show sleeps .asleep = 1 by rfl] at hslp
  have hsleepers := hcounts.sleepers
  have hwoken := hcounts.woken hin
  omega

/-- The semaphore never has more tokens than there are sleepers. When everybody is outside again,
the memory is as it was at the start. -/
theorem tokens_used (s : State P) (h : Reached cfg s) : s.shared.sem ≤ tally sleeps s.pc ∧
    ((∀ p, s.pc p = .outside) → s.shared = ⟨0,0⟩) := by
  obtain ⟨-,w,hcounts⟩ := reached_inv cfg hfew s h
  have hsleepers := hcounts.sleepers
  have hword := hcounts.word
  constructor
  · omega
  · intro hout
    have hin := tally_zero inside s.pc (fun p => by rw [hout p]; rfl)
    have hslp := tally_zero sleeps s.pc (fun p => by rw [hout p]; rfl)
    obtain ⟨⟨lock,sem⟩,pc⟩ := s
    dsimp only at *
    obtain rfl : lock = 0 := by omega
    obtain rfl : sem = 0 := by omega
    rfl

end Law

/-! ## Runs -/

section Runs
variable {P : Type} [DecidableEq P] (cfg : Config)

def run : List (P × Act) → State P → Option (State P)
  | [], s => some s
  | (p, act)::rest, s =>
    match turn cfg s.shared (s.pc p) act with
    | some (m, pc) => run rest ⟨m,Function.update s.pc p pc⟩
    | none => none

theorem run_reached (acts : List (P × Act)) (s t : State P) (hs : Reached cfg s)
    (h : run cfg acts s = some t) : Reached cfg t := by
  induction acts generalizing s with
  | nil => exact Option.some.inj h ▸ hs
  | cons a acts ih =>
    rw [run] at h
    split at h
    · exact ih _ (hs.step _ _ (.turn s a.1 a.2 _ _ ‹_›)) h
    · cases h

end Runs

/-- Process 0 takes the mutex, process 1 goes to sleep on it, and process 0 unlocks. -/
def handover : List (Fin 2 × Act) :=
  [(0,.lock), (0,.go), (0,.go), (1,.lock), (1,.go), (1,.go), (1,.go), (0,.unlock), (0,.go), (0,.go),
    (0,.go)]

theorem mutual_exclusion_held : ∃ s : State (Fin 2), Reached ⟨1,2048,true⟩ s ∧
    inside (s.pc 0) = 1 ∧ ∀ q, inside (s.pc q) = 1 → 0 = q := by
  have hs := run_reached ⟨1,2048,true⟩ (handover.take 3) _ _ .start rfl
  exact ⟨_,hs,rfl,fun q => mutual_exclusion ⟨1,2048,true⟩ (by decide) _ hs 0 q rfl⟩

theorem no_lost_wakeup_handover : ∃ s : State (Fin 2), Reached ⟨1,2048,true⟩ s ∧
    s.pc 1 = .asleep ∧ 0 < s.shared.sem := by
  have hs := run_reached ⟨1,2048,true⟩ handover _ _ .start rfl
  exact ⟨_,hs,rfl,no_lost_wakeup ⟨1,2048,true⟩ (by decide) _ hs
    (fun p => match p with | 0 => Or.inl rfl | 1 => Or.inr rfl) 1 rfl⟩

/-- Process 1 wakes up, takes the mutex and unlocks it. -/
theorem tokens_used_handover : ∃ s : State (Fin 2), Reached ⟨1,2048,true⟩ s ∧
    s.shared = ⟨0,0⟩ := by
  have hs := run_reached ⟨1,2048,true⟩
    (handover++[(1,.go), (1,.go), (1,.go), (1,.unlock), (1,.go), (1,.go)]) _ _ .start rfl
  exact ⟨_,hs,(tokens_used ⟨1,2048,true⟩ (by decide) _ hs).2
    (fun p => match p with | 0 => rfl | 1 => rfl)⟩

end Nginx.Shmtx
