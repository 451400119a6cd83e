import Mathlib.Data.Finset.Basic
import Mathlib.Algebra.Order.Ring.Int

/-!
# The nodes of a file cache in the slab

The nodes lie in shared memory, where an address can be used again once it is
free. An action is a section that runs with the mutex held; for the loop of the expiry one
turn is an action, and other sections may come between two turns. A deletion releases the
mutex in its middle. A section that reads an address which is not allocated
ends in `freed`. The counter of a node has 20 bits.
-/

set_option autoImplicit false

namespace Nginx.FileCacheNodes

structure Node where
  key : ℕ
  count : ℕ
  uses : ℕ
  validMsec : ℕ
  error : ℕ
  exists' : Bool
  updating : Bool
  deleting : Bool
  uniq : ℕ
  expire : ℤ
  validSec : ℤ
  bodyStart : ℕ
  fsSize : ℕ
  deriving DecidableEq, Repr

structure Context where
  node : ℕ
  minUses : ℕ
  updating : Bool
  deriving DecidableEq, Repr

/-- `deletions` are the nodes whose deletion has released the mutex. -/
structure Cache where
  slab : ℕ → Option Node
  tree : Finset ℕ
  queue : List ℕ
  size : ℤ
  contexts : List Context
  deletions : List ℕ

inductive Outcome where
  | blocked
  | freed
  | done (s : Cache)

def Cache.read (s : Cache) (n : ℕ) (f : Node → Outcome) : Outcome :=
  match s.slab n with
  | some node => f node
  | none => .freed

def Cache.walk (s : Cache) (f : Outcome) : Outcome :=
  if (∀ n ∈ s.tree, (s.slab n).isSome) ∧ ∀ n ∈ s.queue, (s.slab n).isSome then f else .freed

def Cache.write (s : Cache) (n : ℕ) (node : Node) : Cache :=
  { s with slab := Function.update s.slab n (some node) }

def Cache.toHead (s : Cache) (n : ℕ) : Cache := { s with queue := n::s.queue.erase n }

def Cache.hold (s : Cache) (c : Context) : Cache := { s with contexts := c::s.contexts }

def Cache.letGo (s : Cache) (c : Context) : Cache := { s with contexts := s.contexts.erase c }

def Cache.insert (s : Cache) (n : ℕ) (node : Node) : Cache :=
  { s.write n node with tree := Insert.insert n s.tree, queue := n::s.queue }

/-- `ngx_queue_remove`, `ngx_rbtree_delete` and `ngx_slab_free_locked`. -/
def Cache.remove (s : Cache) (n : ℕ) : Cache :=
  { s with slab := Function.update s.slab n none, tree := s.tree.erase n,
           queue := s.queue.erase n }

def Node.increment (node : Node) : Node := { node with count := (node.count+1) % 2^20 }

def Node.decrement (node : Node) : Node := { node with count := (node.count+(2^20-1)) % 2^20 }

def Node.release (node : Node) (c : Context) : Node :=
  { node.decrement with updating := if c.updating then false else node.updating }

def Node.renew (node : Node) : Node :=
  { node with validMsec := 0, error := 0, exists' := false, validSec := 0, uniq := 0,
              bodyStart := 0, fsSize := 0 }

/-- `ngx_http_file_cache_exists` for a key that has a node. -/
def ngxHttpFileCacheExists (s : Cache) (n minUses : ℕ) (now inactive : ℤ) : Outcome :=
  s.walk (s.read n (fun node =>
    let node := { node.increment with uses := (node.uses+1) % 2^10 }
    let node := if node.error ≠ 0 ∧ node.validSec < now then node.renew else node
    .done (((s.write n { node with expire := now+inactive }).toHead n).hold
      ⟨n,minUses,false⟩)))

/-- The same function for a key without one. After a failed allocation the
mutex is released and the key is not looked up again. -/
def ngxHttpFileCacheCreate (s : Cache) (key minUses n : ℕ) (now inactive : ℤ) : Outcome :=
  s.walk (.done ((s.insert n { key := key, count := 1, uses := 1, validMsec := 0, error := 0,
                               exists' := false, updating := false, deleting := false, uniq := 0,
                               expire := now+inactive, validSec := 0, bodyStart := 0,
                               fsSize := 0 }).hold ⟨n,minUses,false⟩))

/-- The section of `ngx_http_file_cache_read` in a cold cache. -/
def ngxHttpFileCacheReadCold (s : Cache) (c : Context) (uniq bodyStart fsSize : ℕ) : Outcome :=
  s.read c.node (fun node =>
    if node.exists' then .done s
    else
      .done { s.write c.node { node with uses := 1, bodyStart := bodyStart, exists' := true,
                                         uniq := uniq, fsSize := fsSize } with
        size := s.size+fsSize })

/-- The section of `ngx_http_file_cache_read` for a stale entry. -/
def ngxHttpFileCacheReadStale (s : Cache) (c : Context) : Outcome :=
  s.read c.node (fun node =>
    if node.updating then .done s
    else .done (((s.write c.node { node with updating := true }).letGo c).hold
      { c with updating := true }))

/-- The section of `ngx_http_file_cache_update`; `ok` says that the file was renamed and
its status read. -/
def ngxHttpFileCacheUpdate (s : Cache) (c : Context) (ok : Bool) (uniq bodyStart fsSize : ℕ) :
    Outcome :=
  let uniq := if ok then uniq else 0
  let fsSize := if ok then fsSize else 0
  s.read c.node (fun node =>
    .done { (s.write c.node
        { node.decrement with uniq := uniq, bodyStart := bodyStart, fsSize := fsSize,
                              exists' := if ok then true else node.exists',
                              updating := false }).letGo c with
      size := s.size+((fsSize : ℤ)-node.fsSize) })

/-- The section of `ngx_http_file_cache_free`, which the cleanup calls too. -/
def ngxHttpFileCacheFree (s : Cache) (c : Context) (error : ℕ) (validSec : ℤ) (validMsec : ℕ) :
    Outcome :=
  s.read c.node (fun node =>
    let node := node.release c
    let s := s.letGo c
    if error ≠ 0 then
      .done (s.write c.node
        (if validSec ≠ 0 then
          { node with error := error, validSec := validSec, validMsec := validMsec }
         else { node with error := error }))
    else if !node.exists' ∧ node.count = 0 ∧ c.minUses = 1 then
      s.walk (.done ((s.write c.node node).remove c.node))
    else .done (s.write c.node node))

/-- `ngx_http_file_cache_add` for a key that has a node. -/
def ngxHttpFileCacheAdd (s : Cache) (n : ℕ) (now inactive : ℤ) : Outcome :=
  s.walk (s.read n (fun node =>
    .done ((s.write n { node with expire := now+inactive }).toHead n)))

def ngxHttpFileCacheAddNew (s : Cache) (key fsSize n : ℕ) (now inactive : ℤ) : Outcome :=
  s.walk (.done
    { s.insert n { key := key, count := 0, uses := 1, validMsec := 0, error := 0,
                   exists' := true, updating := false, deleting := false, uniq := 0,
                   expire := now+inactive, validSec := 0, bodyStart := 0, fsSize := fsSize } with
      size := s.size+fsSize })

/-- The end of `ngx_http_file_cache_delete`. -/
def deleteIdle (s : Cache) (n : ℕ) : Outcome :=
  s.read n (fun node => if node.count = 0 then s.walk (.done (s.remove n)) else .done s)

/-- `ngx_http_file_cache_delete` until it releases the mutex or returns. -/
def ngxHttpFileCacheDelete (s : Cache) (n : ℕ) : Outcome :=
  s.read n (fun node =>
    if node.exists' then
      .done { s.write n { node.increment with deleting := true } with
        size := s.size-node.fsSize, deletions := n::s.deletions }
    else deleteIdle s n)

/-- `ngx_http_file_cache_delete` from where it has the mutex again. -/
def ngxHttpFileCacheDeleteEnd (s : Cache) (n : ℕ) : Outcome :=
  s.read n (fun node =>
    deleteIdle { s.write n { node.decrement with deleting := false } with
      deletions := s.deletions.erase n } n)

/-- The loop of `ngx_http_file_cache_forced_expire` over the queue from its tail. -/
@[grind =] def forcedExpireLoop (s : Cache) : ℕ → List ℕ → Outcome
  | _, [] => .done s
  | tries, q::qs =>
    s.read q (fun node =>
      if node.count = 0 then ngxHttpFileCacheDelete s q
      else if tries-1 ≠ 0 then forcedExpireLoop s (tries-1) qs
      else .done s)

def ngxHttpFileCacheForcedExpire (s : Cache) : Outcome := forcedExpireLoop s 20 s.queue.reverse

/-- One turn of the loop of `ngx_http_file_cache_expire`. -/
def expireTurn (s : Cache) (now inactive : ℤ) : Outcome :=
  match s.queue.getLast? with
  | none => .done s
  | some q =>
    s.read q (fun node =>
      if node.expire-now > 0 then .done s
      else if node.count = 0 then ngxHttpFileCacheDelete s q
      else if node.deleting then .done s
      else s.walk (.done ((s.write q { node with expire := now+inactive }).toHead q)))

inductive Act where
  | found (n minUses : ℕ) (now inactive : ℤ)
  | create (key minUses n : ℕ) (now inactive : ℤ) (retried : Bool)
  | readCold (c : Context) (uniq bodyStart fsSize : ℕ)
  | readStale (c : Context)
  | update (c : Context) (ok : Bool) (uniq bodyStart fsSize : ℕ)
  | free (c : Context) (error : ℕ) (validSec : ℤ) (validMsec : ℕ)
  | addFound (n : ℕ) (now inactive : ℤ)
  | addNew (key fsSize n : ℕ) (now inactive : ℤ)
  | expire (now inactive : ℤ)
  | forcedExpire
  | deleteEnd (n : ℕ)
  deriving DecidableEq, Repr

def Cache.lacks (s : Cache) (key : ℕ) : Prop := ∀ n ∈ s.tree, (s.slab n).map Node.key ≠ some key

instance (s : Cache) (key : ℕ) : Decidable (s.lacks key) :=
  inferInstanceAs (Decidable (∀ n ∈ s.tree, _))

/-- An action, where it can happen. A lookup finds nodes of the tree, the allocator
gives an address that is free, and only contexts that have a node use it. -/
def apply (s : Cache) : Act → Outcome
  | .found n minUses now inactive =>
    if n ∈ s.tree then ngxHttpFileCacheExists s n minUses now inactive else .blocked
  | .create key minUses n now inactive retried =>
    if s.slab n = none ∧ (retried = true ∨ s.lacks key) then
      ngxHttpFileCacheCreate s key minUses n now inactive else .blocked
  | .readCold c uniq bodyStart fsSize =>
    if c ∈ s.contexts then ngxHttpFileCacheReadCold s c uniq bodyStart fsSize else .blocked
  | .readStale c => if c ∈ s.contexts then ngxHttpFileCacheReadStale s c else .blocked
  | .update c ok uniq bodyStart fsSize =>
    if c ∈ s.contexts then ngxHttpFileCacheUpdate s c ok uniq bodyStart fsSize else .blocked
  | .free c error validSec validMsec =>
    if c ∈ s.contexts then ngxHttpFileCacheFree s c error validSec validMsec else .blocked
  | .addFound n now inactive =>
    if n ∈ s.tree then ngxHttpFileCacheAdd s n now inactive else .blocked
  | .addNew key fsSize n now inactive =>
    if s.slab n = none ∧ s.lacks key then ngxHttpFileCacheAddNew s key fsSize n now inactive
    else .blocked
  | .expire now inactive => expireTurn s now inactive
  | .forcedExpire => ngxHttpFileCacheForcedExpire s
  | .deleteEnd n => if n ∈ s.deletions then ngxHttpFileCacheDeleteEnd s n else .blocked

/-- The state that `ngx_http_file_cache_init` sets up in a new zone. -/
def newCache : Cache := ⟨fun _ => none,∅,[],0,[],[]⟩

def held (s : Cache) (n : ℕ) : ℕ :=
  s.contexts.countP (fun c => c.node = n)+s.deletions.count n

def Few (s : Cache) : Prop := ∀ n, held s n < 2^20

inductive Reached (allowed : Cache → Prop) : Cache → Prop where
  | init : Reached allowed newCache
  | step {s s' : Cache} (act : Act) (h : Reached allowed s) (hstep : apply s act = .done s')
      (hs : allowed s') : Reached allowed s'

/-- The counters are right, and what a context or a deletion has is allocated and in the
tree and in the queue. -/
structure NodesLaw (s : Cache) : Prop where
  count : ∀ n node, s.slab n = some node → node.count = held s n
  held : ∀ n, held s n ≠ 0 → n ∈ s.tree
  tree : ∀ n, n ∈ s.tree ↔ (s.slab n).isSome
  queue : s.queue.Nodup ∧ ∀ n, n ∈ s.queue ↔ n ∈ s.tree

structure Inv (s : Cache) : Prop where
  count : ∀ n node, s.slab n = some node → node.count = FileCacheNodes.held s n % 2^20
  held : ∀ n, FileCacheNodes.held s n ≠ 0 → n ∈ s.tree
  tree : ∀ n, n ∈ s.tree ↔ (s.slab n).isSome
  queue : s.queue.Nodup ∧ ∀ n, n ∈ s.queue ↔ n ∈ s.tree

structure Released (s : Cache) (n : ℕ) : Prop where
  slab : s.slab n = none
  held : FileCacheNodes.held s n = 0

structure Kept (s s' : Cache) : Prop where
  inv : Inv s'
  released : ∀ n ∈ s.tree, n ∉ s'.tree → Released s' n

def Safe (s : Cache) : Outcome → Prop
  | .blocked => True
  | .freed => False
  | .done s' => Kept s s'

theorem inv_walk (s : Cache) (h : Inv s) (f : Outcome) : s.walk f = f := by
  rw [Cache.walk, if_pos]
  exact ⟨fun n hn => (h.tree n).mp hn,fun n hn => (h.tree n).mp ((h.queue.2 n).mp hn)⟩

theorem inv_read (s : Cache) (h : Inv s) (n : ℕ) (hn : n ∈ s.tree) :
    ∃ node, s.slab n = some node ∧ node.count = held s n % 2^20 ∧
      ∀ f : Node → Outcome, s.read n f = f node := by
  obtain ⟨node,hnode⟩ := Option.isSome_iff_exists.mp ((h.tree n).mp hn)
  refine ⟨node,hnode,h.count n node hnode,fun f => ?_⟩
  rw [Cache.read, hnode]

theorem context_held (s : Cache) (c : Context) (hc : c ∈ s.contexts) : held s c.node ≠ 0 := by
  have hpos : 0 < s.contexts.countP (fun d => d.node = c.node) :=
    List.countP_pos_iff.mpr ⟨c,hc,by simp⟩
  rw [held]
  omega

theorem context_in_tree (s : Cache) (h : Inv s) (c : Context) (hc : c ∈ s.contexts) :
    c.node ∈ s.tree :=
  h.held c.node (context_held s c hc)

theorem write_kept (s s' : Cache) (n : ℕ) (node : Node) (h : Inv s) (hn : n ∈ s.tree)
    (hslab : s'.slab = Function.update s.slab n (some node)) (htree : s'.tree = s.tree)
    (hqueue : s'.queue.Perm s.queue) (hheld : ∀ m, m ≠ n → held s' m = held s m)
    (hcount : node.count = held s' n % 2^20) : Kept s s' := by
  refine ⟨⟨fun m node' hm => ?_,fun m hm => ?_,fun m => ?_,?_,fun m => ?_⟩,fun m hm hm' => ?_⟩
  · rw [hslab] at hm
    by_cases hmn : m = n
    · subst hmn
      rw [Function.update_self] at hm
      rw [← Option.some.inj hm]
      exact hcount
    rw [Function.update_of_ne hmn] at hm
    rw [hheld m hmn]
    exact h.count m node' hm
  · rw [htree]
    by_cases hmn : m = n
    · rw [hmn]
      exact hn
    · rw [hheld m hmn] at hm
      exact h.held m hm
  · rw [htree, hslab]
    by_cases hmn : m = n
    · subst hmn
      rw [Function.update_self]
      exact iff_of_true hn rfl
    · rw [Function.update_of_ne hmn]
      exact h.tree m
  · exact hqueue.nodup_iff.mpr h.queue.1
  · rw [hqueue.mem_iff, htree]
    exact h.queue.2 m
  · rw [htree] at hm'
    exact absurd hm hm'

theorem insert_kept (s s' : Cache) (n : ℕ) (node : Node) (h : Inv s) (hn : s.slab n = none)
    (hslab : s'.slab = Function.update s.slab n (some node)) (htree : s'.tree = insert n s.tree)
    (hqueue : s'.queue = n::s.queue) (hheld : ∀ m, m ≠ n → held s' m = held s m)
    (hcount : node.count = held s' n % 2^20) : Kept s s' := by
  have hfree : n ∉ s.tree := by
    rw [h.tree, hn]
    exact Bool.false_ne_true
  refine ⟨⟨fun m node' hm => ?_,fun m hm => ?_,fun m => ?_,?_,fun m => ?_⟩,fun m hm hm' => ?_⟩
  · rw [hslab] at hm
    by_cases hmn : m = n
    · subst hmn
      rw [Function.update_self] at hm
      rw [← Option.some.inj hm]
      exact hcount
    rw [Function.update_of_ne hmn] at hm
    rw [hheld m hmn]
    exact h.count m node' hm
  · rw [htree, Finset.mem_insert]
    by_cases hmn : m = n
    · exact Or.inl hmn
    · rw [hheld m hmn] at hm
      exact Or.inr (h.held m hm)
  · rw [htree, hslab, Finset.mem_insert]
    by_cases hmn : m = n
    · subst hmn
      rw [Function.update_self]
      exact iff_of_true (Or.inl rfl) rfl
    · rw [Function.update_of_ne hmn, ← h.tree m, or_iff_right hmn]
  · rw [hqueue]
    exact List.nodup_cons.mpr ⟨fun hm => hfree ((h.queue.2 n).mp hm),h.queue.1⟩
  · rw [hqueue, htree, List.mem_cons, Finset.mem_insert, h.queue.2]
  · rw [htree] at hm'
    exact absurd (Finset.mem_insert_of_mem hm) hm'

theorem remove_kept (s : Cache) (n : ℕ) (h : Inv s) (hheld : held s n = 0) :
    Kept s (s.remove n) := by
  have hsame : ∀ m, held (s.remove n) m = held s m := fun m => rfl
  refine ⟨⟨fun m node hm => ?_,fun m hm => ?_,fun m => ?_,?_,fun m => ?_⟩,fun m hm hm' => ?_⟩
  · have hm : Function.update s.slab n none m = some node := hm
    have hmn : m ≠ n := by
      rintro rfl
      rw [Function.update_self] at hm
      cases hm
    rw [Function.update_of_ne hmn] at hm
    exact h.count m node hm
  · have hmn : m ≠ n := by
      rintro rfl
      exact hm hheld
    exact Finset.mem_erase.mpr ⟨hmn,h.held m hm⟩
  · show m ∈ s.tree.erase n ↔ (Function.update s.slab n none m).isSome
    rw [Finset.mem_erase]
    by_cases hmn : m = n
    · subst hmn
      rw [Function.update_self]
      exact iff_of_false (fun hc => hc.1 rfl) Bool.false_ne_true
    · rw [Function.update_of_ne hmn, ← h.tree m, and_iff_right hmn]
  · exact h.queue.1.erase n
  · show m ∈ s.queue.erase n ↔ m ∈ s.tree.erase n
    rw [h.queue.1.mem_erase_iff, Finset.mem_erase, h.queue.2]
  · have hmn : m = n := by
      by_contra hne
      exact hm' (Finset.mem_erase.mpr ⟨hne,hm⟩)
    subst hmn
    exact ⟨Function.update_self ..,hheld⟩

theorem safe_after (s t : Cache) (o : Outcome) (htree : t.tree = s.tree) (ho : Safe t o) :
    Safe s o := by
  cases o with
  | blocked => trivial
  | freed => exact ho
  | done u =>
    refine ⟨ho.inv,fun n hn hn' => ho.released n ?_ hn'⟩
    rw [htree]
    exact hn

theorem kept_refl (s : Cache) (h : Inv s) : Kept s s := ⟨h,fun _ hn hn' => absurd hn hn'⟩

theorem held_hold (s : Cache) (c : Context) (n : ℕ) :
    held (s.hold c) n = held s n+if c.node = n then 1 else 0 := by
  simp only [held, Cache.hold, List.countP_cons, decide_eq_true_eq]
  omega

theorem held_let_go (s : Cache) (c : Context) (n : ℕ) (hc : c ∈ s.contexts) :
    held (s.letGo c) n+(if c.node = n then 1 else 0) = held s n := by
  have hcount := (List.perm_cons_erase hc).countP_eq (fun d => decide (d.node = n))
  simp only [List.countP_cons, decide_eq_true_eq] at hcount
  simp only [held, Cache.letGo]
  omega

theorem to_head_perm (s : Cache) (h : Inv s) (n : ℕ) (hn : n ∈ s.tree) :
    (n::s.queue.erase n).Perm s.queue :=
  (List.perm_cons_erase ((h.queue.2 n).mpr hn)).symm

theorem increment_count (node : Node) (k : ℕ) (h : node.count = k % 2^20) :
    node.increment.count = (k+1) % 2^20 := by
  show (node.count+1) % 2^20 = _
  omega

theorem decrement_count (node : Node) (k : ℕ) (h : node.count = (k+1) % 2^20) :
    node.decrement.count = k % 2^20 := by
  show (node.count+(2^20-1)) % 2^20 = _
  omega

section Actions
variable (s : Cache) (h : Inv s)
include h

theorem exists_safe (n minUses : ℕ) (now inactive : ℤ) (hn : n ∈ s.tree) :
    Safe s (ngxHttpFileCacheExists s n minUses now inactive) := by
  obtain ⟨node,-,hcount,hread⟩ := inv_read s h n hn
  rw [ngxHttpFileCacheExists, inv_walk s h, hread]
  refine write_kept s _ n _ h hn rfl rfl (to_head_perm s h n hn) (fun m hm => ?_) ?_
  · refine (held_hold s ⟨n,minUses,false⟩ m).trans ?_
    rw [if_neg hm.symm, Nat.add_zero]
  · refine Eq.trans ?_ (congrArg (· % 2^20) (held_hold s ⟨n,minUses,false⟩ n).symm)
    rw [if_pos rfl, ← increment_count node (held s n) hcount]
    dsimp only
    split_ifs <;> rfl

theorem fresh_held (n : ℕ) (hn : s.slab n = none) : held s n = 0 := by
  by_contra hne
  have hsome := (h.tree n).mp (h.held n hne)
  rw [hn] at hsome
  cases hsome

theorem create_safe (key minUses n : ℕ) (now inactive : ℤ) (hn : s.slab n = none) :
    Safe s (ngxHttpFileCacheCreate s key minUses n now inactive) := by
  rw [ngxHttpFileCacheCreate, inv_walk s h]
  refine insert_kept s _ n _ h hn rfl rfl rfl (fun m hm => ?_) ?_
  · refine (held_hold s ⟨n,minUses,false⟩ m).trans ?_
    rw [if_neg hm.symm, Nat.add_zero]
  · refine Eq.trans ?_ (congrArg (· % 2^20) (held_hold s ⟨n,minUses,false⟩ n).symm)
    simp [fresh_held s h n hn]

theorem read_cold_safe (c : Context) (uniq bodyStart fsSize : ℕ) (hc : c ∈ s.contexts) :
    Safe s (ngxHttpFileCacheReadCold s c uniq bodyStart fsSize) := by
  have hn := context_in_tree s h c hc
  obtain ⟨node,-,hcount,hread⟩ := inv_read s h c.node hn
  rw [ngxHttpFileCacheReadCold, hread]
  split_ifs
  · exact kept_refl s h
  · exact write_kept s _ c.node _ h hn rfl rfl (List.Perm.refl _) (fun _ _ => rfl) hcount

theorem read_stale_safe (c : Context) (hc : c ∈ s.contexts) :
    Safe s (ngxHttpFileCacheReadStale s c) := by
  have hn := context_in_tree s h c hc
  obtain ⟨node,-,hcount,hread⟩ := inv_read s h c.node hn
  have hheld : ∀ m, held ((s.letGo c).hold { c with updating := true }) m = held s m := fun m =>
    (held_hold _ _ m).trans (held_let_go s c m hc)
  rw [ngxHttpFileCacheReadStale, hread]
  split_ifs
  · exact kept_refl s h
  · refine write_kept s _ c.node _ h hn rfl rfl (List.Perm.refl _) (fun m _ => hheld m) ?_
    exact hcount.trans (congrArg (· % 2^20) (hheld c.node).symm)

theorem let_go_kept (s' : Cache) (c : Context) (node node' : Node) (hc : c ∈ s.contexts)
    (hnode : node.count = held s c.node % 2^20) (hnode' : node'.count = node.decrement.count)
    (hslab : s'.slab = Function.update s.slab c.node (some node')) (htree : s'.tree = s.tree)
    (hqueue : s'.queue = s.queue) (hheld : ∀ m, held s' m = held (s.letGo c) m) : Kept s s' := by
  refine write_kept s s' c.node node' h (context_in_tree s h c hc) hslab htree
    (List.Perm.of_eq hqueue) (fun m hm => ?_) ?_
  · rw [hheld, ← held_let_go s c m hc, if_neg hm.symm, Nat.add_zero]
  · have hgo := held_let_go s c c.node hc
    rw [if_pos rfl] at hgo
    rw [hheld, hnode']
    exact decrement_count node _ (by rw [hgo, hnode])

theorem update_safe (c : Context) (ok : Bool) (uniq bodyStart fsSize : ℕ) (hc : c ∈ s.contexts) :
    Safe s (ngxHttpFileCacheUpdate s c ok uniq bodyStart fsSize) := by
  obtain ⟨node,-,hcount,hread⟩ := inv_read s h c.node (context_in_tree s h c hc)
  rw [ngxHttpFileCacheUpdate, hread]
  refine let_go_kept s h _ c node _ hc hcount ?_ rfl rfl rfl (fun _ => rfl)
  rfl

theorem free_safe (hfew : Few s) (c : Context) (error : ℕ) (validSec : ℤ) (validMsec : ℕ)
    (hc : c ∈ s.contexts) : Safe s (ngxHttpFileCacheFree s c error validSec validMsec) := by
  obtain ⟨node,-,hcount,hread⟩ := inv_read s h c.node (context_in_tree s h c hc)
  have hkept : ∀ node' : Node, node'.count = node.decrement.count →
      Kept s ((s.letGo c).write c.node node') := fun node' hnode' =>
    let_go_kept s h _ c node node' hc hcount hnode' rfl rfl rfl (fun _ => rfl)
  rw [ngxHttpFileCacheFree, hread]
  by_cases herror : error ≠ 0
  · rw [if_pos herror]
    refine hkept _ ?_
    split_ifs <;> rfl
  rw [if_neg herror]
  have hstep := hkept (node.release c) rfl
  by_cases hidle : (!(node.release c).exists') = true ∧ (node.release c).count = 0 ∧
      c.minUses = 1
  · have hwalk : ∀ f, (s.letGo c).walk f = f := inv_walk s h
    rw [if_pos hidle, hwalk]
    refine safe_after s ((s.letGo c).write c.node (node.release c)) (.done _) rfl
      (remove_kept _ c.node hstep.inv ?_)
    have hzero : (node.release c).count = held (s.letGo c) c.node % 2^20 :=
      hstep.inv.count c.node _ (Function.update_self ..)
    have hlt : held (s.letGo c) c.node < 2^20 :=
      Nat.lt_of_le_of_lt (Nat.le.intro (held_let_go s c c.node hc)) (hfew c.node)
    rw [hidle.2.1, Nat.mod_eq_of_lt hlt] at hzero
    exact hzero.symm
  · rw [if_neg hidle]
    exact hstep

theorem add_safe (n : ℕ) (now inactive : ℤ) (hn : n ∈ s.tree) :
    Safe s (ngxHttpFileCacheAdd s n now inactive) := by
  obtain ⟨node,-,hcount,hread⟩ := inv_read s h n hn
  rw [ngxHttpFileCacheAdd, inv_walk s h, hread]
  exact write_kept s _ n _ h hn rfl rfl (to_head_perm s h n hn) (fun _ _ => rfl) hcount

theorem add_new_safe (key fsSize n : ℕ) (now inactive : ℤ) (hn : s.slab n = none) :
    Safe s (ngxHttpFileCacheAddNew s key fsSize n now inactive) := by
  rw [ngxHttpFileCacheAddNew, inv_walk s h]
  refine insert_kept s _ n _ h hn rfl rfl rfl (fun _ _ => rfl) ?_
  show 0 = held s n % 2^20
  simp [fresh_held s h n hn]

theorem delete_idle_safe (hfew : Few s) (n : ℕ) (hn : n ∈ s.tree) :
    Safe s (deleteIdle s n) := by
  obtain ⟨node,-,hcount,hread⟩ := inv_read s h n hn
  rw [deleteIdle, hread]
  split_ifs with hidle
  · rw [inv_walk s h]
    rw [Nat.mod_eq_of_lt (hfew n)] at hcount
    exact remove_kept s n h (hcount.symm.trans hidle)
  · exact kept_refl s h

theorem delete_safe (hfew : Few s) (n : ℕ) (hn : n ∈ s.tree) :
    Safe s (ngxHttpFileCacheDelete s n) := by
  obtain ⟨node,-,hcount,hread⟩ := inv_read s h n hn
  rw [ngxHttpFileCacheDelete, hread]
  split_ifs
  · refine write_kept s _ n _ h hn rfl rfl (List.Perm.refl _) (fun m hm => ?_) ?_
    · simp [held, Cache.write, List.count_cons_of_ne hm.symm]
    · refine (increment_count node (held s n) hcount).trans (congrArg (· % 2^20) ?_)
      simp [held, Cache.write, Nat.add_assoc]
  · exact delete_idle_safe s h hfew n hn

theorem delete_end_safe (hfew : Few s) (n : ℕ) (hn : n ∈ s.deletions) :
    Safe s (ngxHttpFileCacheDeleteEnd s n) := by
  have hpos : 0 < s.deletions.count n := List.count_pos_iff.mpr hn
  have hne : held s n ≠ 0 := by
    rw [held]
    omega
  have hin := h.held n hne
  obtain ⟨node,-,hcount,hread⟩ := inv_read s h n hin
  rw [ngxHttpFileCacheDeleteEnd, hread]
  generalize ht : ({ s.write n { node.decrement with deleting := false } with
    deletions := s.deletions.erase n } : Cache) = t
  have hself : held s n = held t n+1 := by
    subst ht
    simp only [held, Cache.write, List.count_erase_self]
    omega
  have hother : ∀ m, m ≠ n → held t m = held s m := by
    intro m hm
    subst ht
    simp [held, Cache.write, List.count_erase_of_ne hm]
  have hkept : Kept s t := by
    refine write_kept s t n { node.decrement with deleting := false } h hin ?_ ?_ ?_ hother ?_
    · rw [← ht]
      rfl
    · rw [← ht]
      rfl
    · rw [← ht]
      exact List.Perm.refl _
    · exact decrement_count node (held t n) (by rw [← hself, hcount])
  have htree : t.tree = s.tree := by
    rw [← ht]
    rfl
  refine safe_after s t _ htree (delete_idle_safe t hkept.inv (fun m => ?_) n ?_)
  · by_cases hm : m = n
    · have := hfew n
      rw [hm]
      omega
    · rw [hother m hm]
      exact hfew m
  · rw [htree]
    exact hin

theorem forced_expire_safe (hfew : Few s) (tries : ℕ) (qs : List ℕ) (hqs : ∀ q ∈ qs, q ∈ s.tree) :
    Safe s (forcedExpireLoop s tries qs) := by
  induction qs generalizing tries with
  | nil => exact kept_refl s h
  | cons q qs ih =>
    have hq := hqs q List.mem_cons_self
    obtain ⟨node,-,-,hread⟩ := inv_read s h q hq
    rw [forcedExpireLoop, hread]
    split_ifs
    · exact delete_safe s h hfew q hq
    · exact ih (tries-1) (fun p hp => hqs p (List.mem_cons_of_mem q hp))
    · exact kept_refl s h

theorem expire_turn_safe (hfew : Few s) (now inactive : ℤ) : Safe s (expireTurn s now inactive) := by
  rw [expireTurn]
  cases hlast : s.queue.getLast? with
  | none => exact kept_refl s h
  | some q =>
    have hq : q ∈ s.tree := (h.queue.2 q).mp (List.mem_of_getLast? hlast)
    obtain ⟨node,-,hcount,hread⟩ := inv_read s h q hq
    dsimp only
    rw [hread]
    split_ifs
    · exact kept_refl s h
    · exact delete_safe s h hfew q hq
    · exact kept_refl s h
    · rw [inv_walk s h]
      exact write_kept s _ q _ h hq rfl rfl (to_head_perm s h q hq) (fun _ _ => rfl) hcount

theorem apply_safe (hfew : Few s) (act : Act) : Safe s (apply s act) := by
  cases act with
  | found n minUses now inactive =>
    rw [apply]
    split_ifs with hn
    · exact exists_safe s h n minUses now inactive hn
    · trivial
  | create key minUses n now inactive retried =>
    rw [apply]
    split_ifs with hn
    · exact create_safe s h key minUses n now inactive hn.1
    · trivial
  | readCold c uniq bodyStart fsSize =>
    rw [apply]
    split_ifs with hc
    · exact read_cold_safe s h c uniq bodyStart fsSize hc
    · trivial
  | readStale c =>
    rw [apply]
    split_ifs with hc
    · exact read_stale_safe s h c hc
    · trivial
  | update c ok uniq bodyStart fsSize =>
    rw [apply]
    split_ifs with hc
    · exact update_safe s h c ok uniq bodyStart fsSize hc
    · trivial
  | free c error validSec validMsec =>
    rw [apply]
    split_ifs with hc
    · exact free_safe s h hfew c error validSec validMsec hc
    · trivial
  | addFound n now inactive =>
    rw [apply]
    split_ifs with hn
    · exact add_safe s h n now inactive hn
    · trivial
  | addNew key fsSize n now inactive =>
    rw [apply]
    split_ifs with hn
    · exact add_new_safe s h key fsSize n now inactive hn.1
    · trivial
  | expire now inactive => exact expire_turn_safe s h hfew now inactive
  | forcedExpire =>
    exact forced_expire_safe s h hfew 20 _
      (fun q hq => (h.queue.2 q).mp (List.mem_reverse.mp hq))
  | deleteEnd n =>
    rw [apply]
    split_ifs with hn
    · exact delete_end_safe s h hfew n hn
    · trivial

theorem law_few : NodesLaw s ↔ Few s := by
  constructor
  · intro hlaw n
    by_contra hmany
    have hne : held s n ≠ 0 := fun he => hmany (by rw [he]; decide)
    obtain ⟨node,hnode,hcount,-⟩ := inv_read s h n (h.held n hne)
    rw [hlaw.count n node hnode] at hcount
    exact hmany (hcount ▸ Nat.mod_lt _ (by decide))
  · intro hfew
    refine ⟨fun n node hnode => ?_,h.held,h.tree,h.queue⟩
    rw [h.count n node hnode, Nat.mod_eq_of_lt (hfew n)]

end Actions

theorem new_inv : Inv newCache := by
  refine ⟨nofun,fun n hn => absurd rfl hn,fun n => ?_,List.nodup_nil,fun n => ?_⟩
  · exact iff_of_false (Finset.notMem_empty n) Bool.false_ne_true
  · exact iff_of_false List.not_mem_nil (Finset.notMem_empty n)

theorem few_of_length (s : Cache) (h : s.contexts.length+s.deletions.length < 2^20) : Few s := by
  intro n
  have hcontexts : s.contexts.countP (fun c => c.node = n) ≤ s.contexts.length :=
    List.countP_le_length
  have hdeletions : s.deletions.count n ≤ s.deletions.length := List.count_le_length
  rw [held]
  omega

theorem few_inv (s : Cache) (h : Reached Few s) : Inv s ∧ Few s := by
  induction h with
  | init => exact ⟨new_inv,few_of_length newCache (by decide)⟩
  | step act h hstep hfew ih =>
    have hsafe := apply_safe _ ih.1 ih.2 act
    rw [hstep] at hsafe
    exact ⟨hsafe.inv,hfew⟩

/-- While fewer than 2^20 contexts and deletions have each node, the counters are right, no
section reads what is free, and a node that leaves the tree is freed when nobody has it. The
next section leaves the counters right if and only if there are still fewer. -/
theorem file_cache_nodes (s : Cache) (h : Reached Few s) :
    NodesLaw s ∧ ∀ act, apply s act ≠ .freed ∧ ∀ s', apply s act = .done s' →
      (NodesLaw s' ↔ Few s') ∧ ∀ n ∈ s.tree, n ∉ s'.tree → Released s' n := by
  obtain ⟨hinv,hfew⟩ := few_inv s h
  refine ⟨(law_few s hinv).mpr hfew,fun act => ⟨fun hfreed => ?_,fun s' hstep => ?_⟩⟩
  · have hsafe := apply_safe s hinv hfew act
    rw [hfreed] at hsafe
    exact hsafe
  · have hsafe := apply_safe s hinv hfew act
    rw [hstep] at hsafe
    exact ⟨law_few s' hsafe.inv,hsafe.released⟩

theorem write_self (s : Cache) (n : ℕ) (node : Node) : (s.write n node).slab n = some node := by
  simp [Cache.write]

theorem remove_self (s : Cache) (n : ℕ) : (s.remove n).slab n = none := by
  simp [Cache.remove]

/-- One node, which `k` more contexts have found after the one that made it. -/
structure Crowded (allowed : Cache → Prop) (k : ℕ) (s : Cache) (node : Node) : Prop where
  reached : Reached allowed s
  slab : s.slab 0 = some node
  tree : s.tree = {0}
  queue : s.queue = [0]
  count : node.count = (k+1) % 2^20
  error : node.error = 0
  absent : node.exists' = false
  expire : node.expire = 0
  contexts : s.contexts = List.replicate (k+1) ⟨0,1,false⟩
  deletions : s.deletions = []

theorem crowded_walk (allowed : Cache → Prop) (k : ℕ) (s : Cache) (node : Node)
    (h : Crowded allowed k s node) (f : Outcome) : s.walk f = f := by
  rw [Cache.walk, if_pos]
  simp [h.tree, h.queue, h.slab]

theorem crowded_run (allowed : Cache → Prop) (k : ℕ)
    (hall : ∀ s : Cache, s.contexts.length ≤ k+1 → s.deletions = [] → allowed s) :
    ∃ s node, Crowded allowed k s node := by
  induction k with
  | zero =>
    have hstep : apply newCache (.create 7 1 0 0 0 false) =
        ngxHttpFileCacheCreate newCache 7 1 0 0 0 := by
      rw [apply, if_pos ⟨rfl,Or.inr (fun n hn => absurd hn (Finset.notMem_empty n))⟩]
    rw [ngxHttpFileCacheCreate, inv_walk newCache new_inv] at hstep
    exact ⟨_,_,Reached.init.step _ hstep (hall _ (Nat.le_refl 1) rfl),write_self newCache 0 _,
      rfl,rfl,rfl,rfl,rfl,rfl,rfl,rfl⟩
  | succ k ih =>
    obtain ⟨s,node,h⟩ := ih (fun s hs => hall s (Nat.le_succ_of_le hs))
    have hin : 0 ∈ s.tree := by
      rw [h.tree]
      exact Finset.mem_singleton_self 0
    have hstep : apply s (.found 0 1 0 0) = ngxHttpFileCacheExists s 0 1 0 0 := by
      rw [apply, if_pos hin]
    rw [ngxHttpFileCacheExists, crowded_walk allowed k s node h, Cache.read, h.slab] at hstep
    have hold : ¬ (({ node.increment with uses := (node.uses+1) % 2^10 } : Node).error ≠ 0 ∧
        ({ node.increment with uses := (node.uses+1) % 2^10 } : Node).validSec < 0) :=
      fun hc => hc.1 h.error
    simp only [if_neg hold] at hstep
    have hcontexts : ∀ t : Cache, t = ((s.write 0 { node.increment with
        uses := (node.uses+1) % 2^10, expire := 0+0 }).toHead 0).hold ⟨0,1,false⟩ →
        t.contexts = List.replicate (k+1+1) ⟨0,1,false⟩ ∧ t.deletions = [] := by
      rintro t rfl
      exact ⟨congrArg (List.cons _) h.contexts,h.deletions⟩
    obtain ⟨hlist,hdeletions⟩ := hcontexts _ rfl
    refine ⟨_,_,h.reached.step _ hstep (hall _ ?_ hdeletions),write_self s 0 _,h.tree,?_,
      increment_count node (k+1) h.count,h.error,h.absent,rfl,hlist,hdeletions⟩
    · rw [hlist, List.length_replicate]
    · show 0::s.queue.erase 0 = [0]
      rw [h.queue]
      rfl

/-- Two contexts have a node. -/
theorem file_cache_nodes_shared : ∃ s, s.contexts = [⟨0,1,false⟩, ⟨0,1,false⟩] ∧ NodesLaw s ∧
    ∀ act, apply s act ≠ .freed ∧ ∀ s', apply s act = .done s' →
      (NodesLaw s' ↔ Few s') ∧ ∀ n ∈ s.tree, n ∉ s'.tree → Released s' n := by
  obtain ⟨s,node,h⟩ := crowded_run Few 1 (fun s hs hd => few_of_length s (by
    rw [hd, List.length_nil]
    omega))
  exact ⟨s,h.contexts,file_cache_nodes s h.reached⟩

/-- The counter of a node that 2^20 contexts have is 0: the expiry frees the node, and
the next section of a context reads it. -/
theorem node_freed_while_held : ¬ ∀ s, Reached (fun _ => True) s → NodesLaw s ∧
    ∀ act, apply s act ≠ .freed := by
  intro hall
  obtain ⟨s,node,h⟩ := crowded_run (fun _ => True) (2^20-1) (fun _ _ _ => trivial)
  have hcount : node.count = 0 := h.count
  have hread : ∀ f : Node → Outcome, s.read 0 f = f node := by
    intro f
    rw [Cache.read, h.slab]
  have hdelete : ngxHttpFileCacheDelete s 0 = .done (s.remove 0) := by
    rw [ngxHttpFileCacheDelete, hread, if_neg (by rw [h.absent]; exact Bool.false_ne_true),
      deleteIdle, hread, if_pos hcount, crowded_walk _ _ s node h]
  have hstep : apply s (.expire 0 0) = .done (s.remove 0) := by
    rw [apply, expireTurn, h.queue]
    simp only [List.getLast?_singleton]
    rw [hread, h.expire, if_neg (by decide), if_pos hcount, hdelete]
  have hcontext : (⟨0,1,false⟩ : Context) ∈ (s.remove 0).contexts := by
    show _ ∈ s.contexts
    rw [h.contexts]
    exact List.mem_replicate.mpr ⟨Nat.succ_ne_zero _,rfl⟩
  refine (hall _ (h.reached.step _ hstep trivial)).2 (.readStale ⟨0,1,false⟩) ?_
  rw [apply, if_pos hcontext, ngxHttpFileCacheReadStale, Cache.read]
  rw [remove_self]

end Nginx.FileCacheNodes
