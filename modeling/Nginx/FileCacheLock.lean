import Nginx.FileCacheEffect

/-!
# Who updates a cache entry

The flag `updating` of a node belongs to the context that set it. A context counts as
updating until the section of its update or free has run; its own flag, which no
other request reads, is cleared around that section. An update clears the flag of
the node without a look at the flag of its context.
-/

set_option autoImplicit false

namespace Nginx.FileCacheLock
open Nginx.FileCacheNodes Nginx.FileCacheEffect

def Updates (n : ℕ) (c : Context) : Prop := c.node = n ∧ c.updating = true

instance (n : ℕ) (c : Context) : Decidable (Updates n c) := inferInstanceAs (Decidable (_ ∧ _))

def updaters (s : Cache) (n : ℕ) : ℕ := s.contexts.countP (fun c => Updates n c)

def flag (node : Option Node) : ℕ := if node.any Node.updating then 1 else 0

/-- One context updates a node whose flag is set, and none another. -/
def Locked (s : Cache) : Prop := ∀ n, updaters s n = flag (s.slab n)

/-- An update comes from the context that holds the flag, or finds it clear. -/
def Owned (s : Cache) : Act → Prop
  | .update c _ _ _ _ => c.updating = true ∨ flag (s.slab c.node) = 0
  | _ => True

/-- The states reached while fewer than 2^20 contexts and deletions have each node. -/
inductive Reached (allowed : Cache → Act → Prop) : Cache → Prop where
  | init : Reached allowed newCache
  | step {s s' : Cache} (act : Act) (h : Reached allowed s) (hfew : Few s) (hact : allowed s act)
      (hstep : apply s act = .done s') : Reached allowed s'

section Changed
variable (s s' : Cache) (n : ℕ) (old new : Option Node) (δ : ℤ) (contexts : List Context)
  (deletions : List ℕ)

theorem locked_changes (h : Locked s) (hc : Changes s s' n old new δ contexts deletions)
    (hothers : ∀ m, m ≠ n → updaters s' m = updaters s m) :
    Locked s' ↔ updaters s' n = flag new := by
  have hself : s'.slab n = new := by rw [hc.slab, Function.update_self]
  constructor
  · intro h'
    rw [h' n, hself]
  · intro hn m
    by_cases hm : m = n
    · rw [hm, hn, hself]
    · rw [hothers m hm, hc.slab, Function.update_of_ne hm]
      exact h m

theorem locked_same (h : Locked s) (hc : Changes s s' n old new δ contexts deletions)
    (hu : ∀ m, updaters s' m = updaters s m) (hflag : flag new = flag old) : Locked s' := by
  refine (locked_changes s s' n old new δ contexts deletions h hc (fun m _ => hu m)).mpr ?_
  rw [hu, hflag, h n, hc.old]

end Changed

theorem flag_alike (old new : Node) (h : Alike old new) : flag (some new) = flag (some old) := by
  rw [flag, flag, Option.any_some, Option.any_some, h.updating]

theorem updaters_cons (s s' : Cache) (c : Context) (n : ℕ)
    (h : s'.contexts = c::s.contexts) :
    updaters s' n = updaters s n+if Updates n c then 1 else 0 := by
  rw [updaters, updaters, h, List.countP_cons]
  simp only [decide_eq_true_eq]

theorem updaters_erase (s s' : Cache) (c : Context) (n : ℕ) (hc : c ∈ s.contexts)
    (h : s'.contexts = s.contexts.erase c) :
    updaters s' n+(if Updates n c then 1 else 0) = updaters s n := by
  have hcount := (List.perm_cons_erase hc).countP_eq (fun d => decide (Updates n d))
  rw [List.countP_cons] at hcount
  simp only [decide_eq_true_eq] at hcount
  rw [updaters, updaters, h, hcount]

theorem updaters_same (s s' : Cache) (h : s'.contexts = s.contexts) (n : ℕ) :
    updaters s' n = updaters s n := by
  rw [updaters, updaters, h]

theorem updaters_le_held (s : Cache) (n : ℕ) : updaters s n ≤ held s n := by
  have hle : updaters s n ≤ s.contexts.countP (fun c => c.node = n) :=
    List.countP_mono_left (fun c _ hc => decide_eq_true (of_decide_eq_true hc).1)
  exact Nat.le_trans hle (Nat.le_add_right _ _)

theorem freed_updaters (s : Cache) (h : Inv s) (n : ℕ) (hn : s.slab n = none) :
    updaters s n = 0 := by
  have hle := updaters_le_held s n
  rw [fresh_held s h n hn] at hle
  exact Nat.le_zero.mp hle

variable (s s' : Cache)

theorem flag_le (node : Option Node) : flag node ≤ 1 := by
  rw [flag]
  split_ifs <;> decide

theorem left_locked (c : Context) (node : Node) (new : Option Node) (δ : ℤ) (h : Locked s)
    (hc : c ∈ s.contexts)
    (hs : Changes s s' c.node (some node) new δ (s.contexts.erase c) s.deletions) :
    updaters s' c.node+(if c.updating then 1 else 0) = flag (some node) ∧
      (Locked s' ↔ updaters s' c.node = flag new) := by
  have hown : (if Updates c.node c then 1 else 0 : ℕ) = if c.updating then 1 else 0 := by
    simp [Updates]
  refine ⟨?_,locked_changes s s' c.node _ new δ _ _ h hs (fun m hm => ?_)⟩
  · rw [← hown, updaters_erase s s' c c.node hc hs.contexts, h c.node, hs.old]
  · have := updaters_erase s s' c m hc hs.contexts
    rwa [if_neg (fun hu => hm hu.1.symm), Nat.add_zero] at this

theorem update_locked (c : Context) (ok : Bool) (uniq bodyStart fsSize : ℕ) (h : Locked s)
    (heffect : Effect s s' (.update c ok uniq bodyStart fsSize)) :
    Locked s' ↔ Owned s (.update c ok uniq bodyStart fsSize) := by
  obtain ⟨hc,node,new,hs,-,-,-,hnew⟩ := heffect
  obtain ⟨hself,hlocked⟩ := left_locked s s' c node _ _ h hc hs
  have hle := flag_le (some node)
  have hclear : flag (some new) = 0 := by
    rw [flag, Option.any_some, hnew]
    rfl
  rw [hlocked, Owned, hs.old, hclear]
  split_ifs at hself with hupdating
  · exact iff_of_true (by omega) (Or.inl hupdating)
  · rw [← hself, Nat.add_zero]
    exact ⟨Or.inr,fun ho => ho.resolve_left hupdating⟩

theorem free_locked (c : Context) (error : ℕ) (validSec : ℤ) (validMsec : ℕ) (hinv : Inv s')
    (h : Locked s) (heffect : Effect s s' (.free c error validSec validMsec)) : Locked s' := by
  obtain ⟨hc,node,new,hs,hleft⟩ := heffect
  obtain ⟨hself,hlocked⟩ := left_locked s s' c node new _ h hc hs
  have hle := flag_le (some node)
  refine hlocked.mpr ?_
  cases new with
  | none => exact freed_updaters s' hinv c.node (by rw [hs.slab, Function.update_self])
  | some node' =>
    obtain ⟨-,-,-,hflag⟩ := hleft.kept node' rfl
    rw [flag, Option.any_some, hflag]
    by_cases hupdating : c.updating = true
    · rw [if_pos hupdating] at hself ⊢
      rw [if_neg Bool.false_ne_true]
      omega
    · rw [if_neg hupdating] at hself ⊢
      exact hself

theorem read_stale_locked (c : Context) (h : Locked s) (heffect : Effect s s' (.readStale c)) :
    Locked s' := by
  obtain ⟨hc,node,hnode,heffect⟩ := heffect
  split_ifs at heffect with hupdating
  · rw [heffect]
    exact h
  · have hu : ∀ m, updaters s' m+(if Updates m c then 1 else 0) =
        updaters s m+if Updates m { c with updating := true } then 1 else 0 := by
      intro m
      have hcons := updaters_cons (s.letGo c) s' { c with updating := true } m heffect.contexts
      have herase := updaters_erase s (s.letGo c) c m hc rfl
      omega
    have hlocked := h c.node
    have hself := hu c.node
    have hclear : node.updating = false := Bool.eq_false_iff.mpr hupdating
    have hown : Updates c.node { c with updating := true } := ⟨rfl,rfl⟩
    rw [hnode, flag, Option.any_some, hclear, if_neg Bool.false_ne_true] at hlocked
    refine (locked_changes s s' c.node _ _ _ _ _ h heffect (fun m hm => ?_)).mpr ?_
    · have := hu m
      rw [if_neg (fun hd => hm hd.1.symm), if_neg (fun hd => hm hd.1.symm)] at this
      exact this
    · rw [if_pos hown] at hself
      have hone : flag (some { node with updating := true }) = 1 := rfl
      rw [hone]
      split_ifs at hself with hd
      · have : 0 < updaters s c.node := List.countP_pos_iff.mpr ⟨c,hc,decide_eq_true hd⟩
        omega
      · omega

theorem inserted_locked (n : ℕ) (new : Node) (δ : ℤ) (contexts : List Context)
    (hnew : new.updating = false) (h : Locked s)
    (hs : Changes s s' n none (some new) δ contexts s.deletions)
    (hu : ∀ m, updaters s' m = updaters s m) : Locked s' :=
  locked_same s s' n none (some new) δ contexts _ h hs hu (by rw [flag, Option.any_some, hnew]; rfl)

theorem deleted_locked (n : ℕ) (hinv : Inv s') (h : Locked s) (hs : Deleted s s' n) :
    Locked s' := by
  obtain ⟨node,hnode,hs⟩ := hs
  split_ifs at hs with hexists
  · obtain ⟨new,hs,hlike⟩ := hs
    exact locked_same s s' n _ _ _ _ _ h hs (updaters_same s s' hs.contexts)
      (flag_alike node new hlike)
  · exact (locked_changes s s' n _ _ _ _ _ h hs
      (fun m _ => updaters_same s s' hs.contexts m)).mpr
      (freed_updaters s' hinv n (by rw [hs.slab, Function.update_self]))

theorem delete_end_locked (n : ℕ) (hinv : Inv s') (h : Locked s)
    (heffect : Effect s s' (.deleteEnd n)) : Locked s' := by
  obtain ⟨-,node,new,hs,-,hlike⟩ := heffect
  cases new with
  | none =>
    exact (locked_changes s s' n _ _ _ _ _ h hs
      (fun m _ => updaters_same s s' hs.contexts m)).mpr
      (freed_updaters s' hinv n (by rw [hs.slab, Function.update_self]))
  | some node' =>
    exact locked_same s s' n _ _ _ _ _ h hs (updaters_same s s' hs.contexts)
      (flag_alike node node' (hlike node' rfl))

theorem step_locked (act : Act) (hinv : Inv s') (h : Locked s) (heffect : Effect s s' act) :
    Locked s' ↔ Owned s act := by
  have hclear : ∀ (n minUses m : ℕ), s'.contexts = ⟨n,minUses,false⟩::s.contexts →
      updaters s' m = updaters s m := by
    intro n minUses m hcontexts
    rw [updaters_cons s s' _ m hcontexts, if_neg (fun hu => Bool.false_ne_true hu.2), Nat.add_zero]
  cases act with
  | found n minUses now inactive =>
    obtain ⟨node,new,hs,-,hflag,-⟩ := heffect
    refine iff_of_true (locked_same s s' n _ _ _ _ _ h hs
      (fun m => hclear n minUses m hs.contexts) ?_) trivial
    rw [flag, flag, Option.any_some, Option.any_some, hflag]
  | create key minUses n now inactive retried =>
    obtain ⟨new,hs,-,-,-,hflag⟩ := heffect
    exact iff_of_true (inserted_locked s s' n new _ _ hflag h hs
      (fun m => hclear n minUses m hs.contexts)) trivial
  | readCold c uniq bodyStart fsSize =>
    obtain ⟨node,hnode,heffect⟩ := heffect
    refine iff_of_true ?_ trivial
    split_ifs at heffect with hexists
    · rw [heffect]
      exact h
    · exact locked_same s s' _ _ _ _ _ _ h heffect (updaters_same s s' heffect.contexts) rfl
  | readStale c => exact iff_of_true (read_stale_locked s s' c h heffect) trivial
  | update c ok uniq bodyStart fsSize =>
    exact update_locked s s' c ok uniq bodyStart fsSize h heffect
  | free c error validSec validMsec =>
    exact iff_of_true (free_locked s s' c error validSec validMsec hinv h heffect) trivial
  | addFound n now inactive =>
    obtain ⟨node,new,hs,hlike⟩ := heffect
    exact iff_of_true (locked_same s s' _ _ _ _ _ _ h hs (updaters_same s s' hs.contexts)
      (flag_alike node new hlike)) trivial
  | addNew key fsSize n now inactive =>
    obtain ⟨new,hs,-,-,-,hflag⟩ := heffect
    exact iff_of_true (inserted_locked s s' n new _ _ hflag h hs
      (updaters_same s s' hs.contexts)) trivial
  | expire now inactive =>
    refine iff_of_true ?_ trivial
    rw [Effect] at heffect
    cases hlast : lastIdle s now with
    | some n =>
      rw [hlast] at heffect
      exact deleted_locked s s' n hinv h heffect
    | none =>
      rw [hlast] at heffect
      rcases heffect with heq | ⟨n,node,new,hs,hlike⟩
      · rw [heq]
        exact h
      · exact locked_same s s' _ _ _ _ _ _ h hs (updaters_same s s' hs.contexts)
          (flag_alike node new hlike)
  | forcedExpire =>
    refine iff_of_true ?_ trivial
    rw [Effect] at heffect
    cases hfirst : firstIdle s with
    | some n =>
      rw [hfirst] at heffect
      exact deleted_locked s s' n hinv h heffect
    | none =>
      rw [hfirst] at heffect
      rw [show s' = s from heffect]
      exact h
  | deleteEnd n => exact iff_of_true (delete_end_locked s s' n hinv h heffect) trivial

theorem done_inv (act : Act) (hinv : Inv s) (hfew : Few s) (hstep : apply s act = .done s') :
    Inv s' := by
  have hsafe := apply_safe s hinv hfew act
  rw [hstep] at hsafe
  exact hsafe.inv

theorem reached_locked (h : Reached Owned s) : Inv s ∧ Locked s := by
  induction h with
  | init => exact ⟨new_inv,fun n => rfl⟩
  | step act h hfew howned hstep ih =>
    have hinv := done_inv _ _ act ih.1 hfew hstep
    exact ⟨hinv,(step_locked _ _ act hinv ih.2 (step_effect _ _ ih.1 act hstep)).mpr howned⟩

/-- In every state of a run whose updates have the lock or find it free, with fewer than 2^20
contexts and deletions at each node, a node's flag is set exactly while one live context
updates it. A further section keeps this if and only if it meets the condition too. -/
theorem file_cache_updating (s : Cache) (h : Reached Owned s) :
    Locked s ∧ (Few s → ∀ act s', apply s act = .done s' → (Locked s' ↔ Owned s act)) := by
  obtain ⟨hinv,hlocked⟩ := reached_locked s h
  exact ⟨hlocked,fun hfew act s' hstep => step_locked s s' act (done_inv s s' act hinv hfew hstep)
    hlocked (step_effect s s' hinv act hstep)⟩

/-- What a run on given sections checks before each of them. -/
def allowed (owned : Cache → Act → Bool) (s : Cache) (act : Act) : Bool :=
  decide (s.contexts.length+s.deletions.length < 2^20) && owned s act

theorem run_reached (law : Cache → Act → Prop) (owned : Cache → Act → Bool)
    (howned : ∀ s act, owned s act = true → law s act) (acts : List Act) (last : Cache → Bool)
    (h : (Runs.run done? (allowed owned) newCache acts).any last = true) :
    ∃ s, Reached law s ∧ last s = true := by
  refine Runs.run_reaches done? (allowed owned) (Reached law) (fun s act t hs hact hstep => ?_)
    acts newCache .init last h
  obtain ⟨hfew,hact⟩ := Bool.and_eq_true_iff.mp hact
  exact hs.step act (few_of_length s (of_decide_eq_true hfew)) (howned s act hact)
    (done_apply s t act hstep)

def owned (s : Cache) : Act → Bool
  | .update c _ _ _ _ => c.updating || flag (s.slab c.node) == 0
  | _ => true

theorem owned_law (s : Cache) (act : Act) (h : owned s act = true) : Owned s act := by
  cases act with
  | update c ok uniq bodyStart fsSize =>
    rcases Bool.or_eq_true_iff.mp h with hc | hf
    · exact Or.inl hc
    · exact Or.inr (beq_iff_eq.mp hf)
  | _ => trivial

/-- An entry is filled and goes stale; two requests find it, and the first one
updates it. -/
def foundStale : List Act :=
  [.create 7 1 0 0 0 false, .update ⟨0,1,false⟩ true 1 0 5, .found 0 1 0 0,
   .readStale ⟨0,1,false⟩, .found 0 1 0 0, .readStale ⟨0,1,false⟩]

/-- The first of the two requests stores the file anew, the second one is still there. -/
theorem file_cache_updating_stale : ∃ s, s.contexts = [⟨0,1,false⟩] ∧ Locked s ∧
    (Few s → ∀ act s', apply s act = .done s' → (Locked s' ↔ Owned s act)) := by
  obtain ⟨s,h,hlast⟩ := run_reached Owned owned owned_law
    (foundStale++[.update ⟨0,1,true⟩ true 2 0 6]) (fun s => s.contexts = [⟨0,1,false⟩]) (by decide)
  exact ⟨s,of_decide_eq_true hlast,file_cache_updating s h⟩

/-- The second request goes to the upstream as well. Its update, which fails to rename
the file, clears the flag, and a third request becomes an updater beside the first. -/
theorem two_updaters : ¬ ∀ s, Reached (fun _ _ => True) s → Locked s := by
  intro hall
  obtain ⟨s,h,hlast⟩ := run_reached (fun _ _ => True) (fun _ _ => true) (fun _ _ _ => trivial)
    (foundStale++[.update ⟨0,1,false⟩ false 0 0 0, .found 0 1 0 0, .readStale ⟨0,1,false⟩])
    (fun s => updaters s 0 = 2) (by decide)
  have hlocked := hall s h 0
  have hle := flag_le (s.slab 0)
  have htwo := of_decide_eq_true hlast
  omega

end Nginx.FileCacheLock
