import Nginx.FileCacheNodes
import Nginx.Runs

/-!
# What a section of the file cache changes

A section changes one node at most: it makes, writes or frees it. What it changes is read
off the section once here, with the node that the expiry takes given by the state before it.
-/

set_option autoImplicit false

namespace Nginx.FileCacheEffect
open Nginx.FileCacheNodes

/-- The node at `n` was `old` and is `new`, and the size has grown by `δ`. -/
structure Changes (s s' : Cache) (n : ℕ) (old new : Option Node) (δ : ℤ)
    (contexts : List Context) (deletions : List ℕ) : Prop where
  old : s.slab n = old
  slab : s'.slab = Function.update s.slab n new
  tree : s'.tree = if new.isSome then insert n s.tree else s.tree.erase n
  size : s'.size = s.size+δ
  contexts : s'.contexts = contexts
  deletions : s'.deletions = deletions

def Expired (node : Node) (now : ℤ) : Prop := node.error ≠ 0 ∧ node.validSec < now

instance (node : Node) (now : ℤ) : Decidable (Expired node now) :=
  inferInstanceAs (Decidable (_ ∧ _))

/-- The node that `ngx_http_file_cache_expire` deletes in one turn. -/
def lastIdle (s : Cache) (now : ℤ) : Option ℕ :=
  s.queue.getLast?.filter (fun q => (s.slab q).any (fun node => node.expire ≤ now ∧ node.count = 0))

/-- The node that `ngx_http_file_cache_forced_expire` deletes. -/
def firstIdle (s : Cache) : Option ℕ :=
  (s.queue.reverse.take 20).find? (fun q => (s.slab q).any (fun node => node.count = 0))

def victim (s : Cache) : Act → Option ℕ
  | .expire now _ => lastIdle s now
  | .forcedExpire => firstIdle s
  | _ => none

/-- The node whose deletion releases the mutex to unlink the file. -/
def begun (s : Cache) (act : Act) : Option ℕ :=
  (victim s act).filter (fun n => (s.slab n).any Node.exists')

/-- The file of the node and its flag are left as they are. -/
structure Alike (old new : Node) : Prop where
  key : new.key = old.key
  file : new.exists' = old.exists'
  fsSize : new.fsSize = old.fsSize
  updating : new.updating = old.updating

/-- What `ngx_http_file_cache_delete` changes for an idle node. -/
def Deleted (s s' : Cache) (n : ℕ) : Prop :=
  ∃ node, s.slab n = some node ∧
    if node.exists' then
      ∃ new, Changes s s' n (some node) (some new) (-node.fsSize) s.contexts (n::s.deletions) ∧
        Alike node new
    else Changes s s' n (some node) none 0 s.contexts s.deletions

def DeletedOr (s s' : Cache) (rest : Prop) : Option ℕ → Prop
  | some n => Deleted s s' n
  | none => rest

/-- A context leaves the node `old`, which is freed or has been told so. -/
structure Left (c : Context) (old : Node) (new : Option Node) : Prop where
  freed : new = none → old.exists' = false
  kept : ∀ node, new = some node → node.key = old.key ∧ node.exists' = old.exists' ∧
    node.fsSize = old.fsSize ∧ node.updating = if c.updating then false else old.updating

def Effect (s s' : Cache) : Act → Prop
  | .found n minUses now _ => ∃ node new, Changes s s' n (some node) (some new) 0
      (⟨n,minUses,false⟩::s.contexts) s.deletions ∧ new.key = node.key ∧
      new.updating = node.updating ∧
      if Expired node now then new.exists' = false ∧ new.fsSize = 0
      else new.exists' = node.exists' ∧ new.fsSize = node.fsSize
  | .create key minUses n _ _ _ => ∃ new, Changes s s' n none (some new) 0
      (⟨n,minUses,false⟩::s.contexts) s.deletions ∧ new.key = key ∧ new.exists' = false ∧
      new.fsSize = 0 ∧ new.updating = false
  | .readCold c uniq bodyStart fsSize => ∃ node, s.slab c.node = some node ∧
      if node.exists' then s' = s
      else Changes s s' c.node (some node)
        (some { node with uses := 1, bodyStart := bodyStart, exists' := true, uniq := uniq,
                          fsSize := fsSize }) fsSize s.contexts s.deletions
  | .readStale c => c ∈ s.contexts ∧ ∃ node, s.slab c.node = some node ∧
      if node.updating then s' = s
      else Changes s s' c.node (some node) (some { node with updating := true }) 0
        ({ c with updating := true }::s.contexts.erase c) s.deletions
  | .update c ok _ _ fsSize => c ∈ s.contexts ∧ ∃ node new,
      Changes s s' c.node (some node) (some new) ((if ok then fsSize else 0 : ℕ)-node.fsSize)
        (s.contexts.erase c) s.deletions ∧ new.key = node.key ∧
      (new.exists' = if ok then true else node.exists') ∧
      (new.fsSize = if ok then fsSize else 0) ∧ new.updating = false
  | .free c _ _ _ => c ∈ s.contexts ∧ ∃ node new,
      Changes s s' c.node (some node) new 0 (s.contexts.erase c) s.deletions ∧ Left c node new
  | .addFound n _ _ => ∃ node new, Changes s s' n (some node) (some new) 0 s.contexts
      s.deletions ∧ Alike node new
  | .addNew key fsSize n _ _ => ∃ new, Changes s s' n none (some new) fsSize s.contexts
      s.deletions ∧ new.key = key ∧ new.exists' = true ∧ new.fsSize = fsSize ∧
      new.updating = false
  | .expire now _ => DeletedOr s s'
      (s' = s ∨ ∃ n node new, Changes s s' n (some node) (some new) 0 s.contexts s.deletions ∧
        Alike node new) (lastIdle s now)
  | .forcedExpire => DeletedOr s s' (s' = s) (firstIdle s)
  | .deleteEnd n => n ∈ s.deletions ∧ ∃ node new,
      Changes s s' n (some node) new 0 s.contexts (s.deletions.erase n) ∧
      (new = none ↔ node.decrement.count = 0) ∧ ∀ node', new = some node' → Alike node node'

theorem read_done (s s' : Cache) (n : ℕ) (f : Node → Outcome) (h : s.read n f = .done s') :
    ∃ node, s.slab n = some node ∧ f node = .done s' := by
  rw [Cache.read] at h
  cases hnode : s.slab n with
  | none =>
    rw [hnode] at h
    cases h
  | some node =>
    rw [hnode] at h
    exact ⟨node,rfl,h⟩

theorem walk_done (s s' : Cache) (f : Outcome) (h : s.walk f = .done s') : f = .done s' := by
  rw [Cache.walk] at h
  split_ifs at h
  exact h

theorem guard_done (p : Prop) [Decidable p] (o : Outcome) (s' : Cache)
    (h : (if p then o else .blocked) = .done s') : p ∧ o = .done s' := by
  split_ifs at h with hp
  exact ⟨hp,h⟩

-- The fields are named: compared as a whole, the counters modulo 2^20 would be compared too.
theorem increment_alike (node : Node) (deleting : Bool) :
    Alike node { node.increment with deleting := deleting } := by
  obtain ⟨key,_,_,_,_,exists',updating,_,_,_,_,_,fsSize⟩ := node
  exact ⟨(rfl : key = key),(rfl : exists' = exists'),(rfl : fsSize = fsSize),
    (rfl : updating = updating)⟩

theorem decrement_alike (node : Node) (deleting : Bool) :
    Alike node { node.decrement with deleting := deleting } := by
  obtain ⟨key,_,_,_,_,exists',updating,_,_,_,_,_,fsSize⟩ := node
  exact ⟨(rfl : key = key),(rfl : exists' = exists'),(rfl : fsSize = fsSize),
    (rfl : updating = updating)⟩

theorem release_kept (node : Node) (c : Context) : (node.release c).key = node.key ∧
    (node.release c).exists' = node.exists' ∧ (node.release c).fsSize = node.fsSize ∧
    (node.release c).updating = if c.updating then false else node.updating := by
  obtain ⟨key,_,_,_,_,exists',updating,_,_,_,_,_,fsSize⟩ := node
  exact ⟨(rfl : key = key),(rfl : exists' = exists'),(rfl : fsSize = fsSize),
    (rfl : (if c.updating then false else updating) = if c.updating then false else updating)⟩

def done? (s : Cache) (act : Act) : Option Cache :=
  match apply s act with
  | .done t => some t
  | _ => none

theorem done_apply (s t : Cache) (act : Act) (h : done? s act = some t) :
    apply s act = .done t := by
  rw [done?] at h
  cases happly : apply s act with
  | blocked =>
    rw [happly] at h
    cases h
  | freed =>
    rw [happly] at h
    cases h
  | done u =>
    rw [happly] at h
    cases h
    rfl

section Changed
variable (s s' : Cache) (h : Inv s) (n : ℕ) (node : Node)
include h

theorem in_tree (hnode : s.slab n = some node) : n ∈ s.tree := by
  rw [h.tree, hnode]
  rfl

theorem written (new : Node) (hnode : s.slab n = some node) (δ : ℤ) (contexts : List Context)
    (deletions : List ℕ) (hslab : s'.slab = Function.update s.slab n (some new))
    (htree : s'.tree = s.tree) (hsize : s'.size = s.size+δ) (hcontexts : s'.contexts = contexts)
    (hdeletions : s'.deletions = deletions) :
    Changes s s' n (some node) (some new) δ contexts deletions := by
  refine ⟨hnode,hslab,?_,hsize,hcontexts,hdeletions⟩
  rw [htree, Option.isSome_some, if_pos rfl]
  exact (Finset.insert_eq_self.mpr (in_tree s h n node hnode)).symm

theorem delete_effect (hnode : s.slab n = some node) (hidle : node.count = 0)
    (hstep : ngxHttpFileCacheDelete s n = .done s') : Deleted s s' n := by
  obtain ⟨node',hnode',hstep⟩ := read_done s s' n _ hstep
  obtain rfl := Option.some.inj (hnode.symm.trans hnode')
  refine ⟨node,hnode,?_⟩
  split_ifs at hstep ⊢ with hexists
  · cases hstep
    exact ⟨_,written s _ h n node _ hnode _ _ _ rfl rfl rfl rfl rfl,
      increment_alike node true⟩
  · obtain ⟨node',hnode',hstep⟩ := read_done s s' n _ hstep
    obtain rfl := Option.some.inj (hnode.symm.trans hnode')
    rw [if_pos hidle] at hstep
    cases walk_done s s' _ hstep
    exact ⟨hnode,rfl,rfl,(add_zero _).symm,rfl,rfl⟩

theorem delete_end_effect (hstep : ngxHttpFileCacheDeleteEnd s n = .done s') :
    ∃ node new, Changes s s' n (some node) new 0 s.contexts (s.deletions.erase n) ∧
      (new = none ↔ node.decrement.count = 0) ∧ ∀ node', new = some node' → Alike node node' := by
  obtain ⟨node,hnode,hstep⟩ := read_done s s' n _ hstep
  obtain ⟨node',hnode',hstep⟩ := read_done _ s' n _ hstep
  obtain rfl := Option.some.inj ((write_self s n _).symm.trans hnode')
  by_cases hcount : node.decrement.count = 0
  · rw [if_pos hcount] at hstep
    cases walk_done _ s' _ hstep
    exact ⟨node,none,⟨hnode,Function.update_idem ..,rfl,(add_zero _).symm,rfl,rfl⟩,
      iff_of_true rfl hcount,nofun⟩
  · rw [if_neg hcount] at hstep
    cases hstep
    refine ⟨node,_,written s _ h n node _ hnode _ _ _ rfl rfl (add_zero _).symm rfl rfl,
      iff_of_false nofun hcount,fun node' hnode' => ?_⟩
    rw [← Option.some.inj hnode']
    exact decrement_alike node false

theorem free_effect (c : Context) (error : ℕ) (validSec : ℤ) (validMsec : ℕ)
    (hstep : ngxHttpFileCacheFree s c error validSec validMsec = .done s') :
    ∃ node new, Changes s s' c.node (some node) new 0 (s.contexts.erase c) s.deletions ∧
      Left c node new := by
  obtain ⟨node,hnode,hstep⟩ := read_done s s' c.node _ hstep
  have hleft : ∀ new : Node, new.key = (node.release c).key →
      new.exists' = (node.release c).exists' → new.fsSize = (node.release c).fsSize →
      new.updating = (node.release c).updating → Left c node (some new) := by
    intro new hkey hexists hsize hflag
    refine ⟨nofun,fun node' hnode' => ?_⟩
    rw [← Option.some.inj hnode', hkey, hexists, hsize, hflag]
    exact release_kept node c
  have hwritten : ∀ new : Node, Changes s ((s.letGo c).write c.node new) c.node (some node)
      (some new) 0 (s.contexts.erase c) s.deletions := fun new =>
    written s _ h c.node node new hnode _ _ _ rfl rfl (add_zero _).symm rfl rfl
  dsimp only at hstep
  split_ifs at hstep with herror hvalid hidle
  · cases hstep
    refine ⟨node,_,hwritten _,hleft _ ?_ ?_ ?_ ?_⟩ <;> dsimp only
  · cases hstep
    refine ⟨node,_,hwritten _,hleft _ ?_ ?_ ?_ ?_⟩ <;> dsimp only
  · cases walk_done _ s' _ hstep
    have habsent := hidle.1
    rw [(release_kept node c).2.1] at habsent
    refine ⟨node,none,⟨hnode,Function.update_idem ..,rfl,(add_zero _).symm,rfl,rfl⟩,
      fun _ => ?_,nofun⟩
    exact (Bool.not_eq_true' _).mp habsent
  · cases hstep
    exact ⟨node,_,hwritten _,hleft _ rfl rfl rfl rfl⟩

theorem found_effect (minUses : ℕ) (now inactive : ℤ)
    (hstep : ngxHttpFileCacheExists s n minUses now inactive = .done s') :
    Effect s s' (.found n minUses now inactive) := by
  obtain ⟨node,hnode,hstep⟩ := read_done s s' n _ (walk_done s s' _ hstep)
  dsimp only at hstep
  cases hstep
  refine ⟨node,_,written s _ h n node _ hnode _ _ _ rfl rfl (add_zero _).symm rfl rfl,?_⟩
  by_cases hexpired : Expired node now
  · have hsame : ({ node.increment with uses := (node.uses+1) % 2^10 } : Node).error ≠ 0 ∧
        ({ node.increment with uses := (node.uses+1) % 2^10 } : Node).validSec < now := hexpired
    rw [if_pos hsame, if_pos hexpired]
    exact ⟨rfl,rfl,rfl,rfl⟩
  · have hsame : ¬ (({ node.increment with uses := (node.uses+1) % 2^10 } : Node).error ≠ 0 ∧
        ({ node.increment with uses := (node.uses+1) % 2^10 } : Node).validSec < now) := hexpired
    rw [if_neg hsame, if_neg hexpired]
    exact ⟨rfl,rfl,rfl,rfl⟩

theorem expire_effect (now inactive : ℤ) (hstep : expireTurn s now inactive = .done s') :
    Effect s s' (.expire now inactive) := by
  rw [expireTurn] at hstep
  rw [Effect, lastIdle]
  cases hlast : s.queue.getLast? with
  | none =>
    rw [hlast] at hstep
    cases hstep
    exact Or.inl rfl
  | some q =>
    rw [hlast] at hstep
    obtain ⟨node,hnode,hstep⟩ := read_done s s' q _ hstep
    by_cases hidle : node.expire ≤ now ∧ node.count = 0
    · rw [if_neg (by omega), if_pos hidle.2] at hstep
      rw [Option.filter_some, if_pos (by rw [hnode]; exact decide_eq_true hidle)]
      exact delete_effect s s' h q node hnode hidle.2 hstep
    · rw [Option.filter_some, if_neg (by rw [hnode]; exact fun hc => hidle (of_decide_eq_true hc))]
      split_ifs at hstep with hlater hcount hdeleting
      · cases hstep
        exact Or.inl rfl
      · exact absurd ⟨by omega,hcount⟩ hidle
      · cases hstep
        exact Or.inl rfl
      · cases walk_done s s' _ hstep
        exact Or.inr ⟨q,node,_,written s _ h q node _ hnode _ _ _ rfl rfl (add_zero _).symm rfl rfl,
          by constructor <;> dsimp only⟩

theorem forced_expire_effect (tries : ℕ) (qs : List ℕ) (htries : 0 < tries)
    (hstep : forcedExpireLoop s tries qs = .done s') :
    DeletedOr s s' (s' = s)
      ((qs.take tries).find? (fun q => (s.slab q).any (fun node => node.count = 0))) := by
  induction qs generalizing tries with
  | nil =>
    cases hstep
    rw [List.take_nil]
    rfl
  | cons q qs ih =>
    obtain ⟨tries,rfl⟩ : ∃ k, tries = k+1 := ⟨tries-1,by omega⟩
    rw [forcedExpireLoop] at hstep
    obtain ⟨node,hnode,hstep⟩ := read_done s s' q _ hstep
    rw [List.take_succ_cons, List.find?_cons, hnode]
    by_cases hcount : node.count = 0
    · rw [if_pos hcount] at hstep
      rw [show (some node).any (fun node => decide (node.count = 0)) = true from
        decide_eq_true hcount]
      exact delete_effect s s' h q node hnode hcount hstep
    · rw [if_neg hcount] at hstep
      rw [show (some node).any (fun node => decide (node.count = 0)) = false from
        decide_eq_false hcount]
      by_cases hleft : tries = 0
      · subst hleft
        cases hstep
        rfl
      · rw [Nat.add_sub_cancel, if_pos hleft] at hstep
        exact ih tries (Nat.pos_of_ne_zero hleft) hstep

/-- Every section has the effect given for it. -/
theorem step_effect (act : Act) (hstep : apply s act = .done s') : Effect s s' act := by
  cases act with
  | found n minUses now inactive =>
    exact found_effect s s' h n minUses now inactive (guard_done _ _ s' hstep).2
  | create key minUses n now inactive retried =>
    obtain ⟨⟨hfree,-⟩,hstep⟩ := guard_done _ _ s' hstep
    cases walk_done s s' _ hstep
    exact ⟨_,⟨hfree,rfl,rfl,(add_zero _).symm,rfl,rfl⟩,rfl,rfl,rfl,rfl⟩
  | readCold c uniq bodyStart fsSize =>
    obtain ⟨-,hstep⟩ := guard_done _ _ s' hstep
    obtain ⟨node,hnode,hstep⟩ := read_done s s' c.node _ hstep
    refine ⟨node,hnode,?_⟩
    split_ifs at hstep ⊢ with hexists
    · cases hstep
      rfl
    · cases hstep
      exact written s _ h c.node node _ hnode _ _ _ rfl rfl rfl rfl rfl
  | readStale c =>
    obtain ⟨hc,hstep⟩ := guard_done _ _ s' hstep
    obtain ⟨node,hnode,hstep⟩ := read_done s s' c.node _ hstep
    refine ⟨hc,node,hnode,?_⟩
    split_ifs at hstep ⊢ with hupdating
    · cases hstep
      rfl
    · cases hstep
      exact written s _ h c.node node _ hnode _ _ _ rfl rfl (add_zero _).symm rfl rfl
  | update c ok uniq bodyStart fsSize =>
    obtain ⟨hc,hstep⟩ := guard_done _ _ s' hstep
    obtain ⟨node,hnode,hstep⟩ := read_done s s' c.node _ hstep
    cases hstep
    exact ⟨hc,node,_,written s _ h c.node node _ hnode _ _ _ rfl rfl rfl rfl rfl,
      (decrement_alike node false).key,rfl,rfl,rfl⟩
  | free c error validSec validMsec =>
    obtain ⟨hc,hstep⟩ := guard_done _ _ s' hstep
    exact ⟨hc,free_effect s s' h c error validSec validMsec hstep⟩
  | addFound n now inactive =>
    obtain ⟨-,hstep⟩ := guard_done _ _ s' hstep
    obtain ⟨node,hnode,hstep⟩ := read_done s s' n _ (walk_done s s' _ hstep)
    cases hstep
    exact ⟨node,_,written s _ h n node _ hnode _ _ _ rfl rfl (add_zero _).symm rfl rfl,
      by constructor <;> dsimp only⟩
  | addNew key fsSize n now inactive =>
    obtain ⟨⟨hfree,-⟩,hstep⟩ := guard_done _ _ s' hstep
    cases walk_done s s' _ hstep
    exact ⟨_,⟨hfree,rfl,rfl,rfl,rfl,rfl⟩,rfl,rfl,rfl,rfl⟩
  | expire now inactive => exact expire_effect s s' h now inactive hstep
  | forcedExpire => exact forced_expire_effect s s' h 20 s.queue.reverse (by decide) hstep
  | deleteEnd n =>
    obtain ⟨hn,hstep⟩ := guard_done _ _ s' hstep
    exact ⟨hn,delete_end_effect s s' h n hstep⟩

end Changed

end Nginx.FileCacheEffect
