import Nginx.FileCacheNodes

/-!
# How often a key was used before its response is stored

A node counts the calls that find it in ten bits. `min_uses` is any number, and each location
that shares the cache has its own. A run begins with the call that makes the node. Between
two calls there may be any other sections, as long as the node stays without a response and
without an error.
-/

set_option autoImplicit false

namespace Nginx.MinUses
open FileCacheNodes

inductive Code where
  | ok
  | again
  | declined
  deriving DecidableEq, Repr

/-- What `ngx_http_file_cache_exists` returns for a key that has this node. -/
def existsCode (node : Node) (minUses : ℕ) (now : ℤ) : Code :=
  let node := { node.increment with uses := (node.uses+1) % 2^10 }
  if node.error ≠ 0 then
    if node.validSec < now then .declined else .ok
  else if node.exists' ∨ node.uses ≥ minUses then .ok
  else .again

structure Call where
  minUses : ℕ
  code : Code
  deriving DecidableEq, Repr

/-- The node stays, without a stored response and without an error. -/
def Clean (s : Cache) (n : ℕ) : Prop :=
  ∃ node, s.slab n = some node ∧ node.exists' = false ∧ node.error = 0

def called (s : Cache) (n : ℕ) (act : Act) (calls : List Call) : List Call :=
  match act, s.slab n with
  | .found m minUses now _, some node =>
    if m = n then calls++[⟨minUses,existsCode node minUses now⟩] else calls
  | _, _ => calls

inductive Run (n : ℕ) (s₀ : Cache) : Cache → List Call → Prop where
  | init : Run n s₀ s₀ []
  | step {s s' : Cache} {calls : List Call} (act : Act) (h : Run n s₀ s calls)
      (hstep : apply s act = .done s') (hclean : Clean s' n) :
      Run n s₀ s' (called s n act calls)

/-- The calls from the second on: call `i` of the list is number `i+2` for the node, and the one
that made the node is not in it. -/
def Law (calls : List Call) : Prop :=
  ∀ (i : ℕ) (c : Call), calls[i]? = some c →
    (i+2 < c.minUses → c.code = .again) ∧ (c.minUses ≤ i+2 → c.code = .ok)

def uses (s : Cache) (n : ℕ) : Option ℕ := (s.slab n).map Node.uses

/-- A section that leaves the counter alone, if the node is clean behind it. -/
def Keeps (s : Cache) (n : ℕ) (o : Outcome) : Prop :=
  ∀ s', o = .done s' → Clean s' n → uses s' n = uses s n

theorem keeps_blocked (s : Cache) (n : ℕ) : Keeps s n .blocked := fun s' h => by cases h

theorem keeps_same (s s' : Cache) (n : ℕ) (h : s'.slab n = s.slab n) : Keeps s n (.done s') := by
  intro t ht _
  rw [← Outcome.done.inj ht, uses, h, uses]

theorem keeps_walk (s t : Cache) (n : ℕ) (o : Outcome) (h : Keeps s n o) :
    Keeps s n (t.walk o) := by
  rw [Cache.walk]
  split_ifs
  · exact h
  · exact fun s' h => by cases h

theorem keeps_read (s t : Cache) (n m : ℕ) (f : Node → Outcome)
    (h : ∀ node, t.slab m = some node → Keeps s n (f node)) : Keeps s n (t.read m f) := by
  rw [Cache.read]
  cases hm : t.slab m with
  | none => exact fun s' h => by cases h
  | some node => exact h node hm

theorem keeps_write (s s' : Cache) (n m : ℕ) (node node' : Node) (hm : s.slab m = some node)
    (hslab : s'.slab = Function.update s.slab m (some node'))
    (h : m = n → Clean s' n → node'.uses = node.uses) : Keeps s n (.done s') := by
  intro t ht hclean
  rw [← Outcome.done.inj ht] at hclean ⊢
  by_cases hmn : m = n
  · have hsame := h hmn hclean
    subst hmn
    rw [uses, uses, hslab, Function.update_self, hm, Option.map_some, Option.map_some, hsame]
  · rw [uses, uses, hslab, Function.update_of_ne (Ne.symm hmn)]

theorem keeps_remove (s t : Cache) (n m : ℕ) (ht : ∀ k, k ≠ m → t.slab k = s.slab k) :
    Keeps s n (.done (t.remove m)) := by
  by_cases hmn : m = n
  · subst hmn
    intro u hu hclean
    rw [← Outcome.done.inj hu] at hclean
    obtain ⟨node,hnode,-⟩ := hclean
    rw [remove_self] at hnode
    cases hnode
  refine keeps_same s _ n ?_
  rw [← ht n (Ne.symm hmn)]
  exact Function.update_of_ne (Ne.symm hmn) ..

theorem keeps_if (s : Cache) (n : ℕ) (p : Prop) [Decidable p] (o o' : Outcome)
    (h : p → Keeps s n o) (h' : ¬ p → Keeps s n o') : Keeps s n (if p then o else o') := by
  split_ifs with hp
  · exact h hp
  · exact h' hp

theorem decrement_uses (node : Node) : node.decrement.uses = node.uses := by
  rw [Node.decrement]

theorem release_uses (node : Node) (c : Context) : (node.release c).uses = node.uses := by
  rw [Node.release, decrement_uses]

section Sections
variable (s : Cache) (n : ℕ)

theorem keeps_insert (s' : Cache) (m : ℕ) (node : Node) (hclean : Clean s n)
    (hfree : s.slab m = none) (hslab : s'.slab = Function.update s.slab m (some node)) :
    Keeps s n (.done s') := by
  refine keeps_same s s' n ?_
  obtain ⟨old,hold,-⟩ := hclean
  have hmn : n ≠ m := by
    rintro rfl
    rw [hfree] at hold
    cases hold
  rw [hslab, Function.update_of_ne hmn]

theorem exists_keeps (m minUses : ℕ) (now inactive : ℤ) (hmn : m ≠ n) :
    Keeps s n (ngxHttpFileCacheExists s m minUses now inactive) :=
  keeps_walk s s n _ (keeps_read s s n m _ (fun node hm =>
    keeps_write s _ n m node _ hm rfl (fun h => absurd h hmn)))

theorem read_cold_keeps (c : Context) (uniq bodyStart fsSize : ℕ) :
    Keeps s n (ngxHttpFileCacheReadCold s c uniq bodyStart fsSize) := by
  refine keeps_read s s n c.node _ (fun node hm => keeps_if s n _ _ _ (fun _ => ?_) (fun _ => ?_))
  · exact keeps_same s s n rfl
  · refine keeps_write s _ n c.node node _ hm rfl (fun h hclean => ?_)
    -- The node has a response now.
    obtain ⟨node',hnode',habsent,-⟩ := hclean
    rw [← h] at hnode'
    have hnew := (write_self s c.node _).symm.trans hnode'
    rw [← Option.some.inj hnew] at habsent
    cases habsent

theorem read_stale_keeps (c : Context) : Keeps s n (ngxHttpFileCacheReadStale s c) := by
  refine keeps_read s s n c.node _ (fun node hm => keeps_if s n _ _ _ (fun _ => ?_) (fun _ => ?_))
  · exact keeps_same s s n rfl
  · refine keeps_write s _ n c.node node _ hm rfl (fun _ _ => ?_)
    rfl

theorem update_keeps (c : Context) (ok : Bool) (uniq bodyStart fsSize : ℕ) :
    Keeps s n (ngxHttpFileCacheUpdate s c ok uniq bodyStart fsSize) := by
  refine keeps_read s s n c.node _ (fun node hm => ?_)
  refine keeps_write s _ n c.node node _ hm rfl (fun _ _ => ?_)
  simp only [decrement_uses]

theorem free_keeps (c : Context) (error : ℕ) (validSec : ℤ) (validMsec : ℕ) :
    Keeps s n (ngxHttpFileCacheFree s c error validSec validMsec) := by
  rw [ngxHttpFileCacheFree]
  refine keeps_read s s n c.node _ (fun node hm => ?_)
  dsimp only
  refine keeps_if s n _ _ _ (fun _ => ?_) (fun _ => keeps_if s n _ _ _ (fun _ => ?_) (fun _ => ?_))
  · refine keeps_write s _ n c.node node _ hm rfl (fun _ _ => ?_)
    split_ifs <;> simp only [release_uses]
  · refine keeps_walk s _ n _ (keeps_remove s _ n c.node (fun k hk => ?_))
    exact Function.update_of_ne hk ..
  · refine keeps_write s _ n c.node node _ hm rfl (fun _ _ => ?_)
    exact release_uses node c

theorem add_keeps (m : ℕ) (now inactive : ℤ) :
    Keeps s n (ngxHttpFileCacheAdd s m now inactive) := by
  refine keeps_walk s s n _ (keeps_read s s n m _ (fun node hm => ?_))
  refine keeps_write s _ n m node _ hm rfl (fun _ _ => ?_)
  rfl

theorem delete_idle_keeps (t : Cache) (m : ℕ) (hother : ∀ k, k ≠ m → t.slab k = s.slab k)
    (hsame : Keeps s n (.done t)) : Keeps s n (deleteIdle t m) :=
  keeps_read s t n m _ (fun _ _ => keeps_if s n _ _ _
    (fun _ => keeps_walk s t n _ (keeps_remove s t n m hother)) (fun _ => hsame))

theorem delete_keeps (m : ℕ) : Keeps s n (ngxHttpFileCacheDelete s m) := by
  refine keeps_read s s n m _ (fun node hm => keeps_if s n _ _ _ (fun _ => ?_) (fun _ => ?_))
  · refine keeps_write s _ n m node _ hm rfl (fun _ _ => ?_)
    rfl
  · exact delete_idle_keeps s n s m (fun _ _ => rfl) (keeps_same s s n rfl)

theorem delete_end_keeps (m : ℕ) : Keeps s n (ngxHttpFileCacheDeleteEnd s m) := by
  refine keeps_read s s n m _ (fun node hm => delete_idle_keeps s n _ m (fun k hk => ?_) ?_)
  · exact Function.update_of_ne hk ..
  · refine keeps_write s _ n m node _ hm rfl (fun _ _ => ?_)
    simp only [decrement_uses]

theorem forced_expire_keeps (tries : ℕ) (qs : List ℕ) : Keeps s n (forcedExpireLoop s tries qs) := by
  induction qs generalizing tries with
  | nil => exact keeps_same s s n rfl
  | cons q qs ih =>
    rw [forcedExpireLoop]
    exact keeps_read s s n q _ (fun _ _ => keeps_if s n _ _ _ (fun _ => delete_keeps s n q)
      (fun _ => keeps_if s n _ _ _ (fun _ => ih (tries-1)) (fun _ => keeps_same s s n rfl)))

theorem expire_turn_keeps (now inactive : ℤ) : Keeps s n (expireTurn s now inactive) := by
  rw [expireTurn]
  cases s.queue.getLast? with
  | none => exact keeps_same s s n rfl
  | some q =>
    refine keeps_read s s n q _ (fun node hm => keeps_if s n _ _ _ (fun _ => keeps_same s s n rfl)
      (fun _ => keeps_if s n _ _ _ (fun _ => delete_keeps s n q) (fun _ =>
        keeps_if s n _ _ _ (fun _ => keeps_same s s n rfl) (fun _ => keeps_walk s s n _ ?_))))
    refine keeps_write s _ n q node _ hm rfl (fun _ _ => ?_)
    rfl

theorem apply_keeps (hclean : Clean s n) (act : Act)
    (hother : ∀ minUses now inactive, act ≠ .found n minUses now inactive) :
    Keeps s n (apply s act) := by
  have hblocked := fun (p : Prop) (_ : ¬ p) => keeps_blocked s n
  cases act with
  | found m minUses now inactive =>
    refine keeps_if s n _ _ _ (fun _ => exists_keeps s n m minUses now inactive ?_) (hblocked _)
    rintro rfl
    exact hother minUses now inactive rfl
  | create key minUses m now inactive retried =>
    exact keeps_if s n _ _ _ (fun hm => keeps_walk s s n _
      (keeps_insert s n _ m _ hclean hm.1 rfl)) (hblocked _)
  | readCold c uniq bodyStart fsSize =>
    exact keeps_if s n _ _ _ (fun _ => read_cold_keeps s n c uniq bodyStart fsSize) (hblocked _)
  | readStale c => exact keeps_if s n _ _ _ (fun _ => read_stale_keeps s n c) (hblocked _)
  | update c ok uniq bodyStart fsSize =>
    exact keeps_if s n _ _ _ (fun _ => update_keeps s n c ok uniq bodyStart fsSize) (hblocked _)
  | free c error validSec validMsec =>
    exact keeps_if s n _ _ _ (fun _ => free_keeps s n c error validSec validMsec) (hblocked _)
  | addFound m now inactive =>
    exact keeps_if s n _ _ _ (fun _ => add_keeps s n m now inactive) (hblocked _)
  | addNew key fsSize m now inactive =>
    exact keeps_if s n _ _ _ (fun hm => keeps_walk s s n _
      (keeps_insert s n _ m _ hclean hm.1 rfl)) (hblocked _)
  | expire now inactive => exact expire_turn_keeps s n now inactive
  | forcedExpire => exact forced_expire_keeps s n 20 _
  | deleteEnd m => exact keeps_if s n _ _ _ (fun _ => delete_end_keeps s n m) (hblocked _)

end Sections

theorem exists_counts (s s' : Cache) (n minUses : ℕ) (now inactive : ℤ) (node : Node)
    (hnode : s.slab n = some node)
    (h : ngxHttpFileCacheExists s n minUses now inactive = .done s') :
    uses s' n = some ((node.uses+1) % 2^10) := by
  rw [ngxHttpFileCacheExists, Cache.walk] at h
  split_ifs at h
  rw [Cache.read, hnode] at h
  cases h
  have hslab : ∀ new : Node, (((s.write n new).toHead n).hold ⟨n,minUses,false⟩).slab n =
      some new := fun new => write_self s n new
  rw [uses, hslab, Option.map_some]
  dsimp only
  split_ifs <;> rfl

theorem clean_code (node : Node) (minUses : ℕ) (now : ℤ) (habsent : node.exists' = false)
    (herror : node.error = 0) :
    existsCode node minUses now = if minUses ≤ (node.uses+1) % 2^10 then .ok else .again := by
  simp [existsCode, Node.increment, habsent, herror]

/-- The counter of a node that was found so often after it was made. -/
structure Counted (n : ℕ) (s : Cache) (calls : List Call) : Prop where
  clean : Clean s n
  uses : uses s n = some ((calls.length+1) % 2^10)
  code : ∀ (i : ℕ) (c : Call), calls[i]? = some c →
    c.code = if c.minUses ≤ (i+2) % 2^10 then .ok else .again

theorem counted_step (n : ℕ) (s s' : Cache) (calls : List Call) (act : Act)
    (h : Counted n s calls) (hstep : apply s act = .done s') (hclean : Clean s' n) :
    Counted n s' (called s n act calls) := by
  obtain ⟨node,hnode,habsent,herror⟩ := h.clean
  by_cases hfound : ∃ minUses now inactive, act = .found n minUses now inactive
  · obtain ⟨minUses,now,inactive,rfl⟩ := hfound
    rw [apply] at hstep
    split_ifs at hstep
    have huses : node.uses = (calls.length+1) % 2^10 := by
      have := h.uses
      rw [uses, hnode] at this
      exact Option.some.inj this
    have hmod : (node.uses+1) % 2^10 = (calls.length+2) % 2^10 := by
      rw [huses]
      omega
    have hcalls : called s n (.found n minUses now inactive) calls =
        calls++[⟨minUses,existsCode node minUses now⟩] := by
      simp only [called, hnode, if_true]
    rw [hcalls]
    refine ⟨hclean,?_,fun i c hi => ?_⟩
    · rw [exists_counts s s' n minUses now inactive node hnode hstep, hmod, List.length_append,
        List.length_singleton]
    · rw [List.getElem?_append] at hi
      split_ifs at hi with hlt
      · exact h.code i c hi
      · have hlast : i = calls.length := by
          obtain ⟨hin,-⟩ := List.getElem?_eq_some_iff.mp hi
          rw [List.length_singleton] at hin
          omega
        rw [hlast, Nat.sub_self] at hi
        rw [← Option.some.inj hi, clean_code node minUses now habsent herror, hmod, hlast]
  have hother : ∀ minUses now inactive, act ≠ .found n minUses now inactive :=
    fun minUses now inactive hact => hfound ⟨minUses,now,inactive,hact⟩
  have hcalls : called s n act calls = calls := by
    cases act with
    | found m minUses now inactive =>
      have hm : m ≠ n := by
        rintro rfl
        exact hother minUses now inactive rfl
      simp only [called, hnode, if_neg hm]
    | _ => rfl
  rw [hcalls]
  refine ⟨hclean,?_,h.code⟩
  rw [apply_keeps s n h.clean act hother s' hstep hclean, h.uses]

theorem counted_run (n : ℕ) (s₀ s : Cache) (calls : List Call) (h₀ : Counted n s₀ [])
    (h : Run n s₀ s calls) : Counted n s calls := by
  induction h with
  | init => exact h₀
  | step act h hstep hclean ih => exact counted_step n _ _ _ act ih hstep hclean

theorem create_counted (s₀ s : Cache) (key minUses n : ℕ) (now inactive : ℤ) (retried : Bool)
    (h : apply s₀ (.create key minUses n now inactive retried) = .done s) : Counted n s [] := by
  rw [apply] at h
  split_ifs at h
  rw [ngxHttpFileCacheCreate, Cache.walk] at h
  split_ifs at h
  cases h
  have hslab := write_self s₀ n { key := key, count := 1, uses := 1, validMsec := 0, error := 0,
                                  exists' := false, updating := false, deleting := false,
                                  uniq := 0, expire := now+inactive, validSec := 0,
                                  bodyStart := 0, fsSize := 0 }
  exact ⟨⟨_,hslab,rfl,rfl⟩,congrArg (Option.map Node.uses) hslab,fun i c hi => by cases hi⟩

/-- The calls for a node obey `min_uses` if and only if each one that has come often enough
also has when the number is reduced to ten bits. -/
theorem min_uses_law (s₀ s s' : Cache) (key minUses n : ℕ) (now inactive : ℤ) (retried : Bool)
    (calls : List Call) (hcreate : apply s₀ (.create key minUses n now inactive retried) = .done s)
    (hrun : Run n s s' calls) :
    Law calls ↔ ∀ (i : ℕ) (c : Call), calls[i]? = some c →
      c.minUses ≤ i+2 → c.minUses ≤ (i+2) % 2^10 := by
  have hcode := (counted_run n s s' calls
    (create_counted s₀ s key minUses n now inactive retried hcreate) hrun).code
  constructor
  · intro hlaw i c hi hle
    by_contra hwrap
    have hok := (hlaw i c hi).2 hle
    rw [hcode i c hi, if_neg hwrap] at hok
    cases hok
  · intro hwhen i c hi
    rw [hcode i c hi]
    constructor
    · intro hlt
      refine if_neg (fun hle => ?_)
      have := Nat.mod_le (i+2) (2^10)
      omega
    · intro hle
      exact if_pos (hwhen i c hi hle)

/-- A run of calls with one `min_uses` and nothing between them. -/
structure Calls (n minUses k : ℕ) (s₀ s : Cache) (calls : List Call) : Prop where
  run : Run n s₀ s calls
  length : calls.length = k
  minUses : ∀ c ∈ calls, c.minUses = minUses
  inv : Inv s
  tree : n ∈ s.tree
  clean : Clean s n

theorem calls_step (n minUses k : ℕ) (s₀ s : Cache) (calls : List Call)
    (h : Calls n minUses k s₀ s calls) : ∃ s' calls', Calls n minUses (k+1) s₀ s' calls' := by
  obtain ⟨node,hnode,habsent,herror⟩ := h.clean
  have hsafe := exists_safe s h.inv n minUses 0 0 h.tree
  have hstep : apply s (.found n minUses 0 0) = ngxHttpFileCacheExists s n minUses 0 0 :=
    if_pos h.tree
  have hkeep : ¬ (({ node.increment with uses := (node.uses+1) % 2^10 } : Node).error ≠ 0 ∧
      ({ node.increment with uses := (node.uses+1) % 2^10 } : Node).validSec < 0) :=
    fun hc => hc.1 herror
  rw [ngxHttpFileCacheExists, inv_walk s h.inv, Cache.read, hnode] at hstep hsafe
  simp only [if_neg hkeep] at hstep hsafe
  have hclean := write_self s n { node.increment with uses := (node.uses+1) % 2^10, expire := 0+0 }
  refine ⟨_,_,h.run.step _ hstep ⟨_,hclean,habsent,herror⟩,?_,fun c hc => ?_,hsafe.inv,
    h.tree,⟨_,hclean,habsent,herror⟩⟩
  · simp only [called, hnode, if_true, List.length_append, List.length_singleton, h.length]
  · simp only [called, hnode, if_true, List.mem_append, List.mem_singleton] at hc
    rcases hc with hc | hc
    · exact h.minUses c hc
    · rw [hc]

theorem calls_run (n minUses k : ℕ) (s₀ : Cache) (h : Calls n minUses 0 s₀ s₀ []) :
    ∃ s calls, Calls n minUses k s₀ s calls := by
  induction k with
  | zero => exact ⟨s₀,[],h⟩
  | succ k ih =>
    obtain ⟨s,calls,hcalls⟩ := ih
    exact calls_step n minUses k s₀ s calls hcalls

theorem first_call (minUses : ℕ) : ∃ s, apply newCache (.create 7 minUses 0 0 0 false) = .done s ∧
    Calls 0 minUses 0 s s [] := by
  have hstep : apply newCache (.create 7 minUses 0 0 0 false) =
      ngxHttpFileCacheCreate newCache 7 minUses 0 0 0 := by
    rw [apply, if_pos ⟨rfl,Or.inr (fun n hn => absurd hn (Finset.notMem_empty n))⟩]
  have hsafe := create_safe newCache new_inv 7 minUses 0 0 0 rfl
  have hdone := hstep
  rw [ngxHttpFileCacheCreate, inv_walk newCache new_inv] at hdone hsafe
  refine ⟨_,hdone,.init,rfl,fun _ hc => absurd hc List.not_mem_nil,hsafe.inv,Finset.mem_singleton_self 0,?_⟩
  exact (create_counted newCache _ 7 minUses 0 0 0 false hdone).clean

/-- Two calls with `min_uses` 3. -/
theorem min_uses_three : ∃ s s' calls, apply newCache (.create 7 3 0 0 0 false) = .done s ∧
    Run 0 s s' calls ∧ calls.length = 2 ∧ (Law calls ↔ ∀ (i : ℕ) (c : Call), calls[i]? = some c →
      c.minUses ≤ i+2 → c.minUses ≤ (i+2) % 2^10) := by
  obtain ⟨s,hcreate,hfirst⟩ := first_call 3
  obtain ⟨s',calls,hcalls⟩ := calls_run 0 3 2 s hfirst
  exact ⟨s,s',calls,hcreate,hcalls.run,hcalls.length,
    min_uses_law newCache s s' 7 3 0 0 0 false calls hcreate hcalls.run⟩

/-- With `min_uses` 2, call 1024 for a node is told not to cache. -/
theorem uses_wrap : ¬ ∀ (s₀ s s' : Cache) (key minUses n : ℕ) (now inactive : ℤ) (retried : Bool)
    (calls : List Call), apply s₀ (.create key minUses n now inactive retried) = .done s →
      Run n s s' calls → Law calls := by
  intro hall
  obtain ⟨s,hcreate,hfirst⟩ := first_call 2
  obtain ⟨s',calls,hcalls⟩ := calls_run 0 2 1023 s hfirst
  have hlaw := hall newCache s s' 7 2 0 0 0 false calls hcreate hcalls.run
  have hin : 1022 < calls.length := by
    rw [hcalls.length]
    decide
  have hlast := List.getElem?_eq_getElem hin
  have hcode := (counted_run 0 s s' calls
    (create_counted newCache s 7 2 0 0 0 false hcreate) hcalls.run).code 1022 _ hlast
  have hok := (hlaw 1022 _ hlast).2
  rw [hcalls.minUses _ (List.getElem_mem hin)] at hcode hok
  rw [hok (by decide)] at hcode
  cases hcode

end Nginx.MinUses
