import Nginx.FileCacheEffect
import Mathlib.Algebra.BigOperators.Ring.Finset
import Mathlib.Algebra.Order.BigOperators.Group.Finset

/-!
# The size of a file cache

The files lie beside the nodes, one for each key, and a file goes while the mutex is
released. Two nodes of one key, which a retried allocation can make, have one file
between them. A context that has renamed its file does nothing else before the
section of its update.
-/

set_option autoImplicit false

namespace Nginx.FileCacheSize
open Nginx.FileCacheNodes Nginx.FileCacheEffect

/-- `disk` has the keys whose file is in place. `deleted` is not in the source: the file of
the node has been taken off the size or has been unlinked since it was registered. The
deletions in `pending` have still to unlink their file, and the contexts in `renamed` have put
theirs in place. -/
structure State where
  cache : Cache
  disk : ℕ → Bool
  deleted : ℕ → Bool
  pending : List (ℕ × ℕ)
  renamed : List Context

inductive Step where
  | act (act : Act)
  | rename (c : Context)
  | update (c : Context) (renamed stat : Bool) (uniq bodyStart fsSize : ℕ)
  | unlink (n key : ℕ) (ok : Bool)
  | deleteFile (key : ℕ)
  deriving DecidableEq, Repr

def key? (s : State) (n : ℕ) : Option ℕ := (s.cache.slab n).map Node.key

def State.inPlace (s : State) (n : ℕ) : Bool := (key? s n).any s.disk

/-- The section registers a file for the node, which may have gone since its status was
read, or begins to delete it. -/
def marked (s : State) : Act → Option (ℕ × Bool)
  | .readCold c _ _ _ =>
    if (s.cache.slab c.node).any Node.exists' then none else some (c.node,!s.inPlace c.node)
  | .update c ok _ _ _ => if ok then some (c.node,!s.inPlace c.node) else none
  | .addNew key _ n _ _ => some (n,!s.disk key)
  | act => (begun s.cache act).map (fun n => (n,true))

def mark (deleted : ℕ → Bool) : Option (ℕ × Bool) → ℕ → Bool
  | none => deleted
  | some (n,gone) => Function.update deleted n gone

/-- The deletions that have released the mutex and not unlinked the file. -/
def awaiting (s : State) (act : Act) : List (ℕ × ℕ) :=
  match begun s.cache act, (begun s.cache act).bind (key? s) with
  | some n, some key => (n,key)::s.pending
  | _, _ => s.pending

def State.after (s : State) (act : Act) (t : Cache) : State :=
  { s with cache := t, deleted := mark s.deleted (marked s act), pending := awaiting s act }

def locked (s : State) (act : Act) : Option State :=
  match apply s.cache act with
  | .done t => some (s.after act t)
  | _ => none

/-- The context is not between its rename and its update. -/
def idle (s : State) (c : Context) : Bool := s.renamed.count c < s.cache.contexts.count c

/-- Who may take the mutex for the section. An update has its own step. -/
def ready (s : State) : Act → Bool
  | .readCold c _ _ _ => idle s c
  | .readStale c => idle s c
  | .free c _ _ _ => idle s c
  | .update _ _ _ _ _ => false
  | .deleteEnd n => s.pending.countP (fun d => d.1 = n) < s.cache.deletions.count n
  | _ => true

/-- `ngx_delete_file` takes the file from every node of its key. -/
def State.dropFile (s : State) (key : ℕ) : State :=
  { s with disk := Function.update s.disk key false,
           deleted := fun n => s.deleted n || key? s n = some key }

def step (s : State) : Step → Option State
  | .act act => if ready s act then locked s act else none
  | .rename c =>
    if idle s c then
      some { s with disk := fun key => s.disk key || key? s c.node = some key,
                    renamed := c::s.renamed }
    else none
  | .update c renamed stat uniq bodyStart fsSize =>
    if renamed then
      if c ∈ s.renamed then
        locked { s with renamed := s.renamed.erase c } (.update c stat uniq bodyStart fsSize)
      else none
    else if idle s c then locked s (.update c false uniq bodyStart fsSize)
    else none
  | .unlink n key ok =>
    if (n,key) ∈ s.pending then
      let s := { s with pending := s.pending.erase (n,key) }
      some (if ok then s.dropFile key else s)
    else none
  | .deleteFile key => some (s.dropFile key)

/-- A new zone over a directory with any files. -/
def start (disk : ℕ → Bool) : State := ⟨newCache,disk,fun _ => false,[],[]⟩

/-- What the node has in the size by right. -/
def amount (deleted : ℕ → Bool) (n : ℕ) : Option Node → ℕ
  | none => 0
  | some node => if node.exists' && !deleted n then node.fsSize else 0

def counted (s : State) (n : ℕ) : ℕ := amount s.deleted n (s.cache.slab n)

/-- What a deletion has taken off the size for the node. -/
def taken (s : State) (n : ℕ) : ℕ :=
  if s.deleted n then (s.cache.slab n).elim 0 Node.fsSize else 0

/-- The size is the sum over the nodes whose file is not deleted, and their files are there. -/
structure SizeLaw (s : State) : Prop where
  size : s.cache.size = ∑ n ∈ s.cache.tree, (counted s n : ℤ)
  nonneg : 0 ≤ s.cache.size
  files : ∀ n, counted s n ≠ 0 → s.inPlace n = true

/-- A section that keeps the size right. -/
def Fits (s : State) : Act → Prop
  | .found n _ now _ => (s.cache.slab n).any (fun node => Expired node now) → counted s n = 0
  | .readCold c _ _ fsSize =>
    (s.cache.slab c.node).any Node.exists' ∨ s.inPlace c.node ∨ fsSize = 0
  | .update c ok _ _ fsSize => (if ok && !s.inPlace c.node then fsSize else 0) = taken s c.node
  | .addNew key fsSize _ _ _ => s.disk key ∨ fsSize = 0
  | .deleteEnd n => held s.cache n = 1 → counted s n = 0
  | act => ∀ n ∈ begun s.cache act, taken s n = 0

def Careful (s : State) : Step → Prop
  | .act act => Fits s act
  | .update c renamed stat uniq bodyStart fsSize =>
    Fits s (.update c (renamed && stat) uniq bodyStart fsSize)
  | .rename _ => True
  | .unlink _ key ok => ok → ∀ n ∈ s.cache.tree, key? s n = some key → counted s n = 0
  | .deleteFile key => ∀ n ∈ s.cache.tree, key? s n = some key → counted s n = 0

/-- The states reached while fewer than 2^20 contexts and deletions have each node. -/
inductive Reached (allowed : State → Step → Prop) : State → Prop where
  | init (disk : ℕ → Bool) : Reached allowed (start disk)
  | step {s s' : State} (a : Step) (h : Reached allowed s) (hfew : Few s.cache)
      (ha : allowed s a) (hstep : step s a = some s') : Reached allowed s'

def Sound (s : State) (n : ℕ) (node : Node) : Prop :=
  if node.exists' then s.deleted n = false → s.disk node.key = true else node.fsSize = 0

/-- What no step breaks, careful or not. -/
structure Account (s : State) : Prop where
  inv : Inv s.cache
  nodes : ∀ n node, s.cache.slab n = some node → Sound s n node

def total (s : State) : ℕ := ∑ n ∈ s.cache.tree, counted s n

def Balanced (s : State) : Prop := s.cache.size = total s

theorem balanced_law (s : State) (h : Account s) : SizeLaw s ↔ Balanced s := by
  constructor
  · intro hlaw
    rw [Balanced, hlaw.size, total, Nat.cast_sum]
  · intro hsize
    refine ⟨?_,?_,fun n hn => ?_⟩
    · rw [hsize, total, Nat.cast_sum]
    · rw [hsize]
      exact Int.natCast_nonneg _
    · rw [counted] at hn
      cases hnode : s.cache.slab n with
      | none =>
        rw [hnode] at hn
        exact absurd rfl hn
      | some node =>
        rw [hnode, amount] at hn
        split_ifs at hn with hc
        · rw [Bool.and_eq_true, Bool.not_eq_true'] at hc
          have hsound := h.nodes n node hnode
          rw [Sound, if_pos hc.1] at hsound
          rw [State.inPlace, key?, hnode]
          exact hsound hc.2
        · exact absurd rfl hn

theorem total_split (s : State) (h : Inv s.cache) (n : ℕ) :
    total s = counted s n+∑ m ∈ s.cache.tree.erase n, counted s m := by
  by_cases hn : n ∈ s.cache.tree
  · exact (Finset.add_sum_erase _ _ hn).symm
  · have hfree : s.cache.slab n = none := by
      rw [h.tree] at hn
      exact Option.not_isSome_iff_eq_none.mp hn
    rw [Finset.erase_eq_of_notMem hn, counted, hfree, amount, Nat.zero_add]
    rfl

section Changed
variable (s s' : State) (n : ℕ) (old new : Option Node) (δ : ℤ) (contexts : List Context)
  (deletions : List ℕ)

theorem changes_total (h : Inv s.cache) (h' : Inv s'.cache)
    (hc : Changes s.cache s'.cache n old new δ contexts deletions)
    (hd : ∀ m, m ≠ n → s'.deleted m = s.deleted m) :
    total s'+amount s.deleted n old = total s+amount s'.deleted n new := by
  have hself : counted s' n = amount s'.deleted n new := by
    rw [counted, hc.slab, Function.update_self]
  have hold : counted s n = amount s.deleted n old := by rw [counted, hc.old]
  have htree : s'.cache.tree.erase n = s.cache.tree.erase n := by
    rw [hc.tree]
    split_ifs
    · exact Finset.erase_insert_eq_erase _ _
    · exact Finset.erase_idem
  have hrest : ∑ m ∈ s'.cache.tree.erase n, counted s' m =
      ∑ m ∈ s.cache.tree.erase n, counted s m := by
    rw [htree]
    refine Finset.sum_congr rfl (fun m hm => ?_)
    have hne := Finset.ne_of_mem_erase hm
    rw [counted, counted, hc.slab, Function.update_of_ne hne]
    cases s.cache.slab m with
    | none => rfl
    | some node => rw [amount, amount, hd m hne]
  rw [total_split s' h' n, total_split s h n, hself, hold, hrest]
  omega

/-- A section that changes one node keeps the account when the change of the size is what
the node gains. -/
theorem changes_balanced (h : Account s) (hs : Balanced s) (h' : Inv s'.cache)
    (hc : Changes s.cache s'.cache n old new δ contexts deletions) (hdisk : s'.disk = s.disk)
    (hd : ∀ m, m ≠ n → s'.deleted m = s.deleted m)
    (hnew : ∀ node, new = some node → Sound s' n node) :
    Account s' ∧
      (Balanced s' ↔ δ+(amount s.deleted n old : ℤ) = amount s'.deleted n new) := by
  refine ⟨⟨h',fun m node hm => ?_⟩,?_⟩
  · rw [hc.slab] at hm
    by_cases hmn : m = n
    · subst hmn
      rw [Function.update_self] at hm
      exact hnew node hm
    · rw [Function.update_of_ne hmn] at hm
      have hsound := h.nodes m node hm
      rwa [Sound, ← hd m hmn, ← hdisk] at hsound
  · have htotal := changes_total s s' n old new δ contexts deletions h.inv h' hc hd
    rw [Balanced] at hs
    rw [Balanced, hc.size, hs]
    omega

theorem alike_balanced (h : Account s) (hs : Balanced s) (h' : Inv s'.cache) (node node' : Node)
    (hc : Changes s.cache s'.cache n (some node) (some node') 0 contexts deletions)
    (hdisk : s'.disk = s.disk) (hd : s'.deleted = s.deleted) (hkey : node'.key = node.key)
    (hfile : node'.exists' = node.exists') (hsize : node'.fsSize = node.fsSize) :
    Account s' ∧ Balanced s' := by
  have hsame : amount s'.deleted n (some node') = amount s.deleted n (some node) := by
    rw [amount, amount, hd, hfile, hsize]
  have hsound : ∀ new, some node' = some new → Sound s' n new := by
    intro new hnew
    have hsound := h.nodes n node hc.old
    rw [Sound] at hsound ⊢
    rwa [← Option.some.inj hnew, hfile, hd, hdisk, hkey, hsize]
  obtain ⟨haccount,hbalanced⟩ := changes_balanced s s' n _ _ 0 contexts deletions h hs h' hc hdisk
    (fun m _ => by rw [hd]) hsound
  exact ⟨haccount,hbalanced.mpr (by rw [hsame, zero_add])⟩

end Changed

theorem same_balanced (s s' : State) (h : Account s) (hs : Balanced s) (hcache : s'.cache = s.cache)
    (hdisk : s'.disk = s.disk) (hd : s'.deleted = s.deleted) : Account s' ∧ Balanced s' := by
  have hcounted : ∀ n, counted s' n = counted s n := fun n => by rw [counted, counted, hcache, hd]
  refine ⟨⟨hcache ▸ h.inv,fun n node hnode => ?_⟩,?_⟩
  · have hsound := h.nodes n node (hcache ▸ hnode)
    rwa [Sound, ← hd, ← hdisk] at hsound
  · rw [Balanced, total, hcache, Finset.sum_congr rfl (fun n _ => hcounted n)]
    exact hs

section Sections
variable (s : State) (t : Cache) (h : Account s) (hs : Balanced s) (h' : Inv t)
include h hs h'

theorem found_balanced (n minUses : ℕ) (now inactive : ℤ)
    (heffect : Effect s.cache t (.found n minUses now inactive)) :
    Account (s.after (.found n minUses now inactive) t) ∧
      (Balanced (s.after (.found n minUses now inactive) t) ↔
        Fits s (.found n minUses now inactive)) := by
  obtain ⟨node,new,hc,hkey,-,hnew⟩ := heffect
  by_cases hexpired : Expired node now
  · rw [if_pos hexpired] at hnew
    have hsound : ∀ new', some new = some new' →
        Sound (s.after (.found n minUses now inactive) t) n new' := by
      intro new' he
      rw [← Option.some.inj he, Sound, hnew.1, if_neg Bool.false_ne_true]
      exact hnew.2
    obtain ⟨haccount,hbalanced⟩ := changes_balanced s (s.after (.found n minUses now inactive) t) n
      _ _ 0 _ _ h hs h' hc rfl (fun _ _ => rfl) hsound
    refine ⟨haccount,hbalanced.trans ?_⟩
    have hzero : ∀ deleted, amount deleted n (some new) = 0 := by
      intro deleted
      rw [amount, hnew.1]
      rfl
    rw [Fits, counted, hc.old, hzero, Option.any_some, decide_eq_true hexpired]
    simp
  · rw [if_neg hexpired] at hnew
    obtain ⟨haccount,hbalanced⟩ := alike_balanced s (s.after (.found n minUses now inactive) t) n
      _ _ h hs h' node new hc rfl rfl hkey hnew.1 hnew.2
    refine ⟨haccount,iff_of_true hbalanced (fun hany => ?_)⟩
    rw [hc.old] at hany
    exact absurd (of_decide_eq_true hany) hexpired

theorem create_balanced (key minUses n : ℕ) (now inactive : ℤ) (retried : Bool)
    (heffect : Effect s.cache t (.create key minUses n now inactive retried)) :
    Account (s.after (.create key minUses n now inactive retried) t) ∧
      Balanced (s.after (.create key minUses n now inactive retried) t) := by
  obtain ⟨new,hc,-,hfile,hsize,-⟩ := heffect
  have hsound : ∀ new', some new = some new' →
      Sound (s.after (.create key minUses n now inactive retried) t) n new' := by
    intro new' he
    rw [← Option.some.inj he, Sound, hfile, if_neg Bool.false_ne_true]
    exact hsize
  obtain ⟨haccount,hbalanced⟩ := changes_balanced s
    (s.after (.create key minUses n now inactive retried) t) n _ _ 0 _ _ h hs h' hc rfl
    (fun _ _ => rfl) hsound
  refine ⟨haccount,hbalanced.mpr ?_⟩
  rw [amount, amount, hfile]
  rfl

theorem read_cold_balanced (c : Context) (uniq bodyStart fsSize : ℕ)
    (heffect : Effect s.cache t (.readCold c uniq bodyStart fsSize)) :
    Account (s.after (.readCold c uniq bodyStart fsSize) t) ∧
      (Balanced (s.after (.readCold c uniq bodyStart fsSize) t) ↔
        Fits s (.readCold c uniq bodyStart fsSize)) := by
  obtain ⟨node,hnode,hc⟩ := heffect
  have hmarked : marked s (.readCold c uniq bodyStart fsSize) =
      if node.exists' then none else some (c.node,!s.inPlace c.node) := by
    rw [marked, hnode]
    rfl
  split_ifs at hc hmarked with hexists
  · have hdeleted : (s.after (.readCold c uniq bodyStart fsSize) t).deleted = s.deleted := by
      rw [State.after, hmarked]
      rfl
    obtain ⟨haccount,hbalanced⟩ := same_balanced s (s.after (.readCold c uniq bodyStart fsSize) t)
      h hs hc rfl hdeleted
    refine ⟨haccount,iff_of_true hbalanced (Or.inl ?_)⟩
    rw [hnode]
    exact hexists
  · have hdeleted : (s.after (.readCold c uniq bodyStart fsSize) t).deleted =
        Function.update s.deleted c.node (!s.inPlace c.node) := by
      rw [State.after, hmarked]
      rfl
    rw [Bool.not_eq_true] at hexists
    have hplace : s.inPlace c.node = s.disk node.key := by
      rw [State.inPlace, key?, hnode]
      rfl
    obtain ⟨haccount,hbalanced⟩ := changes_balanced s
      (s.after (.readCold c uniq bodyStart fsSize) t) c.node _ _ fsSize _ _ h hs h' hc rfl
      (fun m hm => by rw [hdeleted, Function.update_of_ne hm]) (fun new hnew => by
        rw [← Option.some.inj hnew, Sound, if_pos rfl, hdeleted, Function.update_self, hplace,
          Bool.not_eq_false']
        exact id)
    refine ⟨haccount,hbalanced.trans ?_⟩
    rw [hdeleted, amount, amount, hexists, Function.update_self, Fits, hnode, Option.any_some,
      hexists]
    cases s.inPlace c.node <;> simp

theorem read_stale_balanced (c : Context) (heffect : Effect s.cache t (.readStale c)) :
    Account (s.after (.readStale c) t) ∧ Balanced (s.after (.readStale c) t) := by
  obtain ⟨-,node,-,hc⟩ := heffect
  split_ifs at hc
  · exact same_balanced s _ h hs hc rfl rfl
  · exact alike_balanced s (s.after (.readStale c) t) c.node _ _ h hs h' node _ hc rfl rfl rfl rfl rfl

theorem update_balanced (c : Context) (ok : Bool) (uniq bodyStart fsSize : ℕ)
    (heffect : Effect s.cache t (.update c ok uniq bodyStart fsSize)) :
    Account (s.after (.update c ok uniq bodyStart fsSize) t) ∧
      (Balanced (s.after (.update c ok uniq bodyStart fsSize) t) ↔
        Fits s (.update c ok uniq bodyStart fsSize)) := by
  obtain ⟨-,node,new,hc,hkey,hfile,hsize,-⟩ := heffect
  have hold := h.nodes c.node node hc.old
  rw [Sound] at hold
  have hplace : s.inPlace c.node = s.disk node.key := by
    rw [State.inPlace, key?, hc.old]
    rfl
  have htaken : (taken s c.node : ℤ) = node.fsSize-amount s.deleted c.node (some node) := by
    rw [taken, hc.old, amount]
    cases hexists : node.exists' <;> cases s.deleted c.node <;> simp_all
  have hdeleted : ∀ m, (s.after (.update c ok uniq bodyStart fsSize) t).deleted m =
      if ok ∧ m = c.node then !s.inPlace c.node else s.deleted m := by
    intro m
    cases ok <;> simp [State.after, marked, mark, Function.update_apply]
  have hsound : ∀ new', some new = some new' →
      Sound (s.after (.update c ok uniq bodyStart fsSize) t) c.node new' := by
    intro new' he
    rw [← Option.some.inj he, Sound, hfile, hsize, hkey, hdeleted]
    cases ok with
    | true =>
      rw [if_pos rfl, if_pos rfl, if_pos ⟨rfl,rfl⟩, hplace, Bool.not_eq_false']
      exact id
    | false =>
      simp only [Bool.false_eq_true, if_false, false_and]
      split_ifs at hold ⊢
      exact hold
  obtain ⟨haccount,hbalanced⟩ := changes_balanced s (s.after (.update c ok uniq bodyStart fsSize) t)
    c.node _ _ _ _ _ h hs h' hc rfl
    (fun m hm => by rw [hdeleted, if_neg (fun hd => hm hd.2)]) hsound
  refine ⟨haccount,hbalanced.trans ?_⟩
  have hnew : (amount (s.after (.update c ok uniq bodyStart fsSize) t).deleted c.node (some new)) =
      if ok ∧ s.inPlace c.node then fsSize else 0 := by
    rw [amount, hdeleted, hfile, hsize]
    cases ok <;> simp
  rw [Fits, hnew]
  cases ok <;> cases s.inPlace c.node <;> simp <;> omega

theorem free_balanced (c : Context) (error : ℕ) (validSec : ℤ) (validMsec : ℕ)
    (heffect : Effect s.cache t (.free c error validSec validMsec)) :
    Account (s.after (.free c error validSec validMsec) t) ∧
      Balanced (s.after (.free c error validSec validMsec) t) := by
  obtain ⟨-,node,new,hc,hleft⟩ := heffect
  cases new with
  | none =>
    obtain ⟨haccount,hbalanced⟩ := changes_balanced s
      (s.after (.free c error validSec validMsec) t) c.node _ none 0 _ _ h hs h' hc rfl
      (fun _ _ => rfl) nofun
    exact ⟨haccount,hbalanced.mpr (by simp [amount, hleft.freed rfl])⟩
  | some node' =>
    obtain ⟨hkey,hfile,hsize,-⟩ := hleft.kept node' rfl
    exact alike_balanced s (s.after (.free c error validSec validMsec) t) c.node _ _ h hs h' node
      node' hc rfl rfl hkey hfile hsize

theorem add_found_balanced (n : ℕ) (now inactive : ℤ)
    (heffect : Effect s.cache t (.addFound n now inactive)) :
    Account (s.after (.addFound n now inactive) t) ∧
      Balanced (s.after (.addFound n now inactive) t) := by
  obtain ⟨node,new,hc,hlike⟩ := heffect
  exact alike_balanced s (s.after (.addFound n now inactive) t) n _ _ h hs h' node new hc rfl rfl
    hlike.key hlike.file hlike.fsSize

theorem add_new_balanced (key fsSize n : ℕ) (now inactive : ℤ)
    (heffect : Effect s.cache t (.addNew key fsSize n now inactive)) :
    Account (s.after (.addNew key fsSize n now inactive) t) ∧
      (Balanced (s.after (.addNew key fsSize n now inactive) t) ↔
        Fits s (.addNew key fsSize n now inactive)) := by
  obtain ⟨new,hc,hkey,hfile,hsize,-⟩ := heffect
  have hdeleted : (s.after (.addNew key fsSize n now inactive) t).deleted =
      Function.update s.deleted n (!s.disk key) := rfl
  obtain ⟨haccount,hbalanced⟩ := changes_balanced s
    (s.after (.addNew key fsSize n now inactive) t) n _ _ fsSize _ _ h hs h' hc rfl
    (fun m hm => by rw [hdeleted, Function.update_of_ne hm]) (fun new' he => by
      rw [← Option.some.inj he, Sound, hfile, if_pos rfl, hdeleted, Function.update_self, hkey,
        Bool.not_eq_false']
      exact id)
  refine ⟨haccount,hbalanced.trans ?_⟩
  rw [hdeleted, amount, amount, hfile, hsize, Function.update_self, Fits]
  cases s.disk key <;> simp

theorem delete_end_balanced (hfew : Few s.cache) (n : ℕ) (heffect : Effect s.cache t (.deleteEnd n)) :
    Account (s.after (.deleteEnd n) t) ∧
      (Balanced (s.after (.deleteEnd n) t) ↔ Fits s (.deleteEnd n)) := by
  obtain ⟨hn,node,new,hc,hnew,hlike⟩ := heffect
  have hheld : 0 < held s.cache n :=
    Nat.lt_of_lt_of_le (List.count_pos_iff.mpr hn) (Nat.le_add_left _ _)
  have hcount := h.inv.count n node hc.old
  have hlast : node.decrement.count = 0 ↔ held s.cache n = 1 := by
    have hlt := hfew n
    show (node.count+(2^20-1)) % 2^20 = 0 ↔ _
    omega
  rw [Fits, ← hlast, ← hnew, counted, hc.old]
  cases new with
  | none =>
    obtain ⟨haccount,hbalanced⟩ := changes_balanced s (s.after (.deleteEnd n) t) n _ none 0 _ _ h hs
      h' hc rfl (fun _ _ => rfl) nofun
    refine ⟨haccount,hbalanced.trans ?_⟩
    simp [amount]
  | some node' =>
    have hlike := hlike node' rfl
    obtain ⟨haccount,hbalanced⟩ := alike_balanced s (s.after (.deleteEnd n) t) n _ _ h hs h' node
      node' hc rfl rfl hlike.key hlike.file hlike.fsSize
    exact ⟨haccount,iff_of_true hbalanced nofun⟩

theorem deleted_balanced (act : Act) (n : ℕ) (hvictim : victim s.cache act = some n)
    (hmarked : marked s act = (begun s.cache act).map (fun n => (n,true)))
    (hdeleted : Deleted s.cache t n) :
    Account (s.after act t) ∧
      (Balanced (s.after act t) ↔ ∀ n ∈ begun s.cache act, taken s n = 0) := by
  obtain ⟨node,hnode,hc⟩ := hdeleted
  have hbegun : begun s.cache act = if node.exists' then some n else none := by
    rw [begun, hvictim, Option.filter_some, hnode, Option.any_some]
  split_ifs at hc hbegun with hexists
  · obtain ⟨new,hc,hlike⟩ := hc
    have hmark : (s.after act t).deleted = Function.update s.deleted n true := by
      rw [State.after, hmarked, hbegun]
      rfl
    obtain ⟨haccount,hbalanced⟩ := changes_balanced s (s.after act t) n _ _ _ _ _ h hs h' hc rfl
      (fun m hm => by rw [hmark, Function.update_of_ne hm]) (fun new' he => by
        rw [← Option.some.inj he, Sound, hlike.file, if_pos hexists, hmark, Function.update_self]
        exact nofun)
    refine ⟨haccount,hbalanced.trans ?_⟩
    rw [hmark, hbegun, amount, amount, hexists, Function.update_self]
    simp only [Option.mem_some_iff, forall_eq', taken, hnode, Option.elim_some]
    cases s.deleted n <;> simp
  · rw [Bool.not_eq_true] at hexists
    have hmark : (s.after act t).deleted = s.deleted := by
      rw [State.after, hmarked, hbegun]
      rfl
    obtain ⟨haccount,hbalanced⟩ := changes_balanced s (s.after act t) n _ none 0 _ _ h hs h' hc rfl
      (fun m _ => by rw [hmark]) nofun
    rw [hbegun]
    exact ⟨haccount,iff_of_true (hbalanced.mpr (by simp [amount, hexists])) nofun⟩

omit h hs h' in
theorem none_marked (act : Act) (hbegun : begun s.cache act = none)
    (hmarked : marked s act = (begun s.cache act).map (fun n => (n,true))) :
    (s.after act t).deleted = s.deleted := by
  rw [State.after, hmarked, hbegun]
  rfl

theorem expire_balanced (now inactive : ℤ) (heffect : Effect s.cache t (.expire now inactive)) :
    Account (s.after (.expire now inactive) t) ∧
      (Balanced (s.after (.expire now inactive) t) ↔ Fits s (.expire now inactive)) := by
  rw [Effect] at heffect
  show _ ∧ (_ ↔ ∀ n ∈ begun s.cache (.expire now inactive), taken s n = 0)
  cases hlast : lastIdle s.cache now with
  | some n =>
    rw [hlast] at heffect
    exact deleted_balanced s t h hs h' (.expire now inactive) n hlast rfl heffect
  | none =>
    have hbegun : begun s.cache (.expire now inactive) = none := by
      rw [begun, victim, hlast]
      rfl
    have hmark := none_marked s t (.expire now inactive) hbegun rfl
    rw [hlast] at heffect
    rw [hbegun]
    rcases heffect with hsame | ⟨n,node,new,hc,hlike⟩
    · obtain ⟨haccount,hbalanced⟩ := same_balanced s (s.after (.expire now inactive) t) h hs hsame
        rfl hmark
      exact ⟨haccount,iff_of_true hbalanced (fun _ hn => by cases hn)⟩
    · obtain ⟨haccount,hbalanced⟩ := alike_balanced s (s.after (.expire now inactive) t) n _ _ h hs
        h' node new hc rfl hmark hlike.key hlike.file hlike.fsSize
      exact ⟨haccount,iff_of_true hbalanced (fun _ hn => by cases hn)⟩

theorem forced_expire_balanced (heffect : Effect s.cache t .forcedExpire) :
    Account (s.after .forcedExpire t) ∧
      (Balanced (s.after .forcedExpire t) ↔ Fits s .forcedExpire) := by
  rw [Effect] at heffect
  show _ ∧ (_ ↔ ∀ n ∈ begun s.cache .forcedExpire, taken s n = 0)
  cases hfirst : firstIdle s.cache with
  | some n =>
    rw [hfirst] at heffect
    exact deleted_balanced s t h hs h' .forcedExpire n hfirst rfl heffect
  | none =>
    have hbegun : begun s.cache .forcedExpire = none := by
      rw [begun, victim, hfirst]
      rfl
    have hmark := none_marked s t .forcedExpire hbegun rfl
    rw [hfirst] at heffect
    rw [hbegun]
    obtain ⟨haccount,hbalanced⟩ := same_balanced s (s.after .forcedExpire t) h hs heffect rfl hmark
    exact ⟨haccount,iff_of_true hbalanced (fun _ hn => by cases hn)⟩

end Sections

theorem locked_balanced (s s' : State) (h : Account s) (hs : Balanced s) (hfew : Few s.cache)
    (act : Act) (hstep : locked s act = some s') : Account s' ∧ (Balanced s' ↔ Fits s act) := by
  rw [locked] at hstep
  have hsafe := apply_safe s.cache h.inv hfew act
  cases happly : apply s.cache act with
  | blocked =>
    rw [happly] at hstep
    cases hstep
  | freed =>
    rw [happly] at hstep
    cases hstep
  | done t =>
    rw [happly] at hstep hsafe
    cases hstep
    have h' : Inv t := hsafe.inv
    have heffect := step_effect s.cache t h.inv act happly
    have hfit : (begun s.cache act = none) → Account (s.after act t) ∧ Balanced (s.after act t) →
        Account (s.after act t) ∧ (Balanced (s.after act t) ↔
          ∀ n ∈ begun s.cache act, taken s n = 0) := by
      intro hbegun hboth
      rw [hbegun]
      exact ⟨hboth.1,iff_of_true hboth.2 nofun⟩
    cases act with
    | found n minUses now inactive => exact found_balanced s t h hs h' n minUses now inactive heffect
    | create key minUses n now inactive retried =>
      exact hfit rfl (create_balanced s t h hs h' key minUses n now inactive retried heffect)
    | readCold c uniq bodyStart fsSize =>
      exact read_cold_balanced s t h hs h' c uniq bodyStart fsSize heffect
    | readStale c => exact hfit rfl (read_stale_balanced s t h hs h' c heffect)
    | update c ok uniq bodyStart fsSize =>
      exact update_balanced s t h hs h' c ok uniq bodyStart fsSize heffect
    | free c error validSec validMsec =>
      exact hfit rfl (free_balanced s t h hs h' c error validSec validMsec heffect)
    | addFound n now inactive => exact hfit rfl (add_found_balanced s t h hs h' n now inactive heffect)
    | addNew key fsSize n now inactive =>
      exact add_new_balanced s t h hs h' key fsSize n now inactive heffect
    | expire now inactive => exact expire_balanced s t h hs h' now inactive heffect
    | forcedExpire => exact forced_expire_balanced s t h hs h' heffect
    | deleteEnd n => exact delete_end_balanced s t h hs h' hfew n heffect

/-- An unlink leaves the size right if and only if no node of the key had anything in it. -/
theorem drop_balanced (s : State) (h : Account s) (hs : Balanced s) (key : ℕ) :
    Account (s.dropFile key) ∧
      (Balanced (s.dropFile key) ↔
        ∀ n ∈ s.cache.tree, key? s n = some key → counted s n = 0) := by
  have hcounted : ∀ n, counted (s.dropFile key) n =
      if key? s n = some key then 0 else counted s n := by
    intro n
    show amount (fun m => s.deleted m || decide (key? s m = some key)) n (s.cache.slab n) = _
    cases hnode : s.cache.slab n with
    | none => simp [counted, hnode, amount]
    | some node =>
      by_cases hkey : key? s n = some key <;> simp [amount, counted, hnode, hkey]
  refine ⟨⟨h.inv,fun n node hnode => ?_⟩,?_⟩
  · have hnode : s.cache.slab n = some node := hnode
    have hsound := h.nodes n node hnode
    have hkey : key? s n = some node.key := by
      rw [key?, hnode]
      rfl
    rw [Sound] at hsound ⊢
    split_ifs at hsound ⊢
    · intro hkept
      obtain ⟨hkept,hne⟩ := Bool.or_eq_false_iff.mp hkept
      have hne : node.key ≠ key := fun he => of_decide_eq_false hne (by rw [hkey, he])
      show Function.update s.disk key false node.key = true
      rw [Function.update_of_ne hne]
      exact hsound hkept
    · exact hsound
  · have hrest : total (s.dropFile key) =
        ∑ n ∈ s.cache.tree with ¬ key? s n = some key, counted s n := by
      rw [total, Finset.sum_congr rfl (fun n _ => hcounted n), Finset.sum_ite,
        Finset.sum_const_zero, Nat.zero_add]
      rfl
    have hall := Finset.sum_filter_add_sum_filter_not s.cache.tree
      (fun n => key? s n = some key) (counted s)
    have hsize : (s.dropFile key).cache.size = (total s : ℤ) := hs
    rw [Balanced, hsize, hrest, Nat.cast_inj, total, ← hall, Nat.add_eq_right,
      Finset.sum_eq_zero_iff]
    exact ⟨fun hzero n hn hkey => hzero n (Finset.mem_filter.mpr ⟨hn,hkey⟩),
      fun hzero n hn => hzero n (Finset.mem_filter.mp hn).1 (Finset.mem_filter.mp hn).2⟩

theorem rename_balanced (s s' : State) (h : Account s) (hs : Balanced s) (c : Context)
    (hstep : step s (.rename c) = some s') : Account s' ∧ Balanced s' := by
  rw [step] at hstep
  split_ifs at hstep
  cases hstep
  refine ⟨⟨h.inv,fun n node hnode => ?_⟩,hs⟩
  have hsound := h.nodes n node hnode
  rw [Sound] at hsound ⊢
  split_ifs at hsound ⊢
  · exact fun hkept => Bool.or_eq_true_iff.mpr (Or.inl (hsound hkept))
  · exact hsound

theorem step_balanced (s s' : State) (h : Account s) (hs : Balanced s) (hfew : Few s.cache)
    (a : Step) (hstep : step s a = some s') : Account s' ∧ (Balanced s' ↔ Careful s a) := by
  cases a with
  | act act =>
    rw [step] at hstep
    split_ifs at hstep
    exact locked_balanced s s' h hs hfew act hstep
  | rename c =>
    obtain ⟨haccount,hbalanced⟩ := rename_balanced s s' h hs c hstep
    exact ⟨haccount,iff_of_true hbalanced trivial⟩
  | update c renamed stat uniq bodyStart fsSize =>
    rw [step] at hstep
    cases renamed with
    | true =>
      rw [if_pos rfl] at hstep
      split_ifs at hstep
      exact locked_balanced { s with renamed := s.renamed.erase c } s' ⟨h.inv,h.nodes⟩ hs hfew
        (.update c stat uniq bodyStart fsSize) hstep
    | false =>
      rw [if_neg Bool.false_ne_true] at hstep
      split_ifs at hstep
      exact locked_balanced s s' h hs hfew (.update c false uniq bodyStart fsSize) hstep
  | unlink n key ok =>
    rw [step] at hstep
    split_ifs at hstep with hpending hok
    · cases hstep
      obtain ⟨haccount,hbalanced⟩ := drop_balanced { s with pending := s.pending.erase (n,key) }
        ⟨h.inv,h.nodes⟩ hs key
      exact ⟨haccount,hbalanced.trans ⟨fun hzero _ => hzero,fun hzero => hzero hok⟩⟩
    · cases hstep
      exact ⟨⟨h.inv,h.nodes⟩,iff_of_true hs (fun ho => absurd ho hok)⟩
  | deleteFile key =>
    cases hstep
    exact drop_balanced s h hs key

theorem reached_balanced (s : State) (h : Reached Careful s) : Account s ∧ Balanced s := by
  induction h with
  | init disk => exact ⟨⟨new_inv,nofun⟩,rfl⟩
  | step a _ hfew hcareful hstep ih =>
    obtain ⟨haccount,hbalanced⟩ := step_balanced _ _ ih.1 ih.2 hfew a hstep
    exact ⟨haccount,hbalanced.mpr hcareful⟩

instance (s : State) : (act : Act) → Decidable (Fits s act)
  | .found .. => inferInstanceAs (Decidable (_ → _))
  | .readCold .. => inferInstanceAs (Decidable (_ ∨ _))
  | .update .. => inferInstanceAs (Decidable (_ = _))
  | .addNew .. => inferInstanceAs (Decidable (_ ∨ _))
  | .deleteEnd _ => inferInstanceAs (Decidable (_ → _))
  | .create .. => inferInstanceAs (Decidable (∀ n ∈ _, _))
  | .readStale .. => inferInstanceAs (Decidable (∀ n ∈ _, _))
  | .free .. => inferInstanceAs (Decidable (∀ n ∈ _, _))
  | .addFound .. => inferInstanceAs (Decidable (∀ n ∈ _, _))
  | .expire .. => inferInstanceAs (Decidable (∀ n ∈ _, _))
  | .forcedExpire => inferInstanceAs (Decidable (∀ n ∈ _, _))

instance (s : State) : (a : Step) → Decidable (Careful s a)
  | .act act => inferInstanceAs (Decidable (Fits s act))
  | .update .. => inferInstanceAs (Decidable ((_ : ℕ) = _))
  | .rename _ => isTrue trivial
  | .unlink .. => inferInstanceAs (Decidable (_ → ∀ n ∈ _, _ → _))
  | .deleteFile _ => inferInstanceAs (Decidable (∀ n ∈ _, _ → _))

/-- What a run on given steps checks before each of them. -/
def allowed (careful : State → Step → Bool) (s : State) (a : Step) : Bool :=
  decide (s.cache.contexts.length+s.cache.deletions.length < 2^20) && careful s a

theorem run_reached (law : State → Step → Prop) (careful : State → Step → Bool)
    (hcareful : ∀ s a, careful s a = true → law s a) (disk : ℕ → Bool) (as : List Step)
    (last : State → Bool)
    (h : (Runs.run step (allowed careful) (start disk) as).any last = true) :
    ∃ s, Reached law s ∧ last s = true := by
  refine Runs.run_reaches step (allowed careful) (Reached law) (fun s a t hs ha hstep => ?_)
    as (start disk) (.init disk) last h
  obtain ⟨hfew,ha⟩ := Bool.and_eq_true_iff.mp ha
  exact hs.step a (few_of_length s.cache (of_decide_eq_true hfew)) (hcareful s a ha) hstep

/-- An entry is filled with a file of five blocks and begins to be deleted. -/
def expiring : List Step :=
  [.act (.create 7 1 0 0 0 false), .rename ⟨0,1,false⟩, .update ⟨0,1,false⟩ true true 1 0 5,
   .act (.expire 0 0)]

end Nginx.FileCacheSize
