import Nginx.OpenFileCache

/-!
# The entries of the cache

An entry is in the cache, with its place in the queue, or detached from it and held by
requests. A call takes one entry in hand, whose descriptor counts as loose meanwhile,
and puts it back, detaches it or drops it.
-/

set_option autoImplicit false

namespace Nginx.OpenFileCacheKept
open Nginx.RedBlackTree Nginx.NgxRbtree Nginx.RbtreeKept Nginx.RbtreeSearch Nginx.RbtreeAddition
open Nginx.Ledger Nginx.OpenFileCache

def cString (s : List ℕ) : List ℕ := s.takeWhile (fun c => c ≠ 0)

theorem strcmp_order (s1 s2 : List ℕ) :
    (ngxStrcmp s1 s2 = .lt ↔ cString s1 < cString s2) ∧
      (ngxStrcmp s1 s2 = .gt ↔ cString s2 < cString s1) ∧
      (ngxStrcmp s1 s2 = .eq ↔ cString s1 = cString s2) := by
  have hcons : ∀ a s, cString (a::s) = if a = 0 then [] else a::cString s := by
    intro a s
    by_cases ha : a = 0 <;> simp [cString, ha]
  induction s1 generalizing s2 with
  | nil =>
    cases s2 with
    | nil => simp [ngxStrcmp, cString]
    | cons b s2 =>
      rw [hcons, ngxStrcmp]
      by_cases hb : b = 0 <;> simp [hb, cString]
  | cons a s1 ih =>
    cases s2 with
    | nil =>
      rw [hcons, ngxStrcmp]
      by_cases ha : a = 0 <;> simp [ha, cString]
    | cons b s2 =>
      obtain ⟨h1,h2,h3⟩ := ih s2
      rw [hcons, hcons, ngxStrcmp]
      by_cases ha : a = 0
      · by_cases hb : b = 0
        · simp [ha, hb]
        · have hpos : 0 < b := Nat.pos_of_ne_zero hb
          simp [ha, hb, hpos]
      by_cases hb : b = 0
      · have hpos : 0 < a := Nat.pos_of_ne_zero ha
        simp [ha, hb, hpos]
      simp only [ha, hb, if_false, List.cons_lt_cons_iff, List.cons.injEq, ← h1, ← h2, ← h3]
      rcases lt_trichotomy a b with hab | rfl | hab
      · simp [hab, hab.ne, hab.ne', hab.le]
      · simp
      · simp [hab, hab.not_gt, hab.ne, hab.ne']

def fileKey (c : Cache) (x : ℕ) : ℕ ×ₗ List ℕ :=
  nodeKey (c.rbtree.key x) (cString (c.file x).name)

variable (c : Cache)

theorem lookup_order_key (hash : ℕ) (name : List ℕ) (x : ℕ) :
    (lookupOrder c hash name x = .lt ↔ nodeKey hash (cString name) < fileKey c x) ∧
      (lookupOrder c hash name x = .gt ↔ fileKey c x < nodeKey hash (cString name)) ∧
      (lookupOrder c hash name x = .eq ↔ nodeKey hash (cString name) = fileKey c x) := by
  obtain ⟨h1,h2,h3⟩ := strcmp_order name (c.file x).name
  simp only [fileKey, nodeKey, Prod.Lex.toLex_lt_toLex, lookupOrder, EmbeddingLike.apply_eq_iff_eq,
    Prod.mk.injEq, ← h1, ← h2, ← h3]
  rcases lt_trichotomy hash (c.rbtree.key x) with h | h | h
  · simp [h, h.ne, h.ne', h.le]
  · simp [h]
  · simp [h, h.not_gt, h.ne, h.ne']

theorem insert_order_key (node x : ℕ) :
    ngxOpenFileCacheRbtreeInsertValue c c.rbtree node x = true ↔ fileKey c node < fileKey c x := by
  rw [fileKey, ← (lookup_order_key c (c.rbtree.key node) (c.file node).name x).1,
    ngxOpenFileCacheRbtreeInsertValue, lookupOrder]
  split_ifs <;> simp

/-- An entry in the cache with `n` cleanups to come. -/
structure Cached (f : CachedOpenFile) (n : ℕ) : Prop where
  count : f.count = n
  bound : n < 2^24
  other : f.err ≠ 0 ∨ f.isDir = true → f.fd = none ∧ n = 0
  close : f.err = 0 → f.close = false
  closed : f.fd = none → n = 0

structure Detached (f : CachedOpenFile) (n : ℕ) : Prop where
  count : f.count = n
  bound : n < 2^24
  pos : 0 < n
  close : f.close = true
  fd : f.fd ≠ none
  err : f.err = 0
  isDir : f.isDir = false

def fds (c : Cache) (xs : List ℕ) : List ℕ := xs.flatMap (fun x => (c.file x).fd.toList)

/-- The cache with the entries `hand`, `held` by the files of all cleanups, and the
descriptors `loose` outside of the entries. -/
structure Inv (c : Cache) (T : RedBlackTree.Tree ℕ) (hand held loose : List ℕ) : Prop where
  kept : Kept c.rbtree (fileKey c) T
  queue : (hand++c.expireQueue).Perm T.ids
  current : c.current = T.ids.length
  bound : c.current ≤ max 1 c.max
  allocated : c.allocated.Nodup
  sub : ∀ x ∈ T.ids, x ∈ c.allocated
  known : ∀ x ∈ held, x ∈ c.allocated
  taken : ∀ x ∈ hand, (c.file x).count = held.count x ∧ held.count x < 2^24
  cached : ∀ x ∈ c.expireQueue, Cached (c.file x) (held.count x)
  detached : ∀ x ∈ c.allocated, x ∉ T.ids → Detached (c.file x) (held.count x)
  balanced : Balanced c.ledger (fds c (hand.foldl List.erase c.allocated)++loose)

variable (x : ℕ) (f : CachedOpenFile)

@[simp] theorem set_file_self : (c.setFile x f).file x = f := Function.update_self ..

theorem set_file_of_ne (y : ℕ) (f : CachedOpenFile) (h : y ≠ x) :
    (c.setFile x f).file y = c.file y := Function.update_of_ne h ..

theorem fds_congr (c' : Cache) (xs : List ℕ) (h : ∀ x ∈ xs, (c'.file x).fd = (c.file x).fd) :
    fds c' xs = fds c xs :=
  List.flatMap_congr (fun x hx => by rw [h x hx])

theorem fds_perm (xs ys : List ℕ) (h : xs.Perm ys) : (fds c xs).Perm (fds c ys) :=
  h.flatMap_right _

theorem fds_erase (h : c.allocated.Nodup) :
    fds (c.setFile x f) (c.allocated.erase x) = fds c (c.allocated.erase x) :=
  fds_congr _ _ _ (fun y hy => congrArg CachedOpenFile.fd
    (set_file_of_ne c x y f (h.mem_erase_iff.mp hy).1))

variable (loose : List ℕ)

theorem fds_set (h : c.allocated.Nodup) (hx : x ∈ c.allocated) :
    (fds (c.setFile x f) c.allocated++loose).Perm
      (fds c (c.allocated.erase x)++(f.fd.toList++loose)) := by
  have hperm : (fds (c.setFile x f) c.allocated).Perm
      (((c.setFile x f).file x).fd.toList++fds (c.setFile x f) (c.allocated.erase x)) :=
    fds_perm (c.setFile x f) _ _ (List.perm_cons_erase hx)
  rw [set_file_self, fds_erase c x f h] at hperm
  refine (hperm.append_right loose).trans ?_
  rw [← List.append_assoc]
  exact List.perm_append_comm.append_right loose

variable (T : RedBlackTree.Tree ℕ)

theorem kept_file (x : ℕ) (f : CachedOpenFile) (h : Kept c.rbtree (fileKey c) T)
    (hname : f.name = (c.file x).name) :
    Kept (c.setFile x f).rbtree (fileKey (c.setFile x f)) T := by
  refine kept_congr _ (fileKey c) _ T h (fun y _ => ?_)
  by_cases hy : y = x
  · subst hy
    rw [fileKey, fileKey, set_file_self, hname]
    rfl
  · rw [fileKey, fileKey, set_file_of_ne _ _ _ _ hy]
    rfl

section Hand
variable (c : Cache) (T : RedBlackTree.Tree ℕ) (x : ℕ) (f : CachedOpenFile) (held loose : List ℕ)

theorem hand_nodup (h : Inv c T [x] held loose) : x ∉ c.expireQueue := by
  have hnodup := h.queue.nodup_iff.mpr (kept_nodup _ _ T h.kept)
  exact (List.nodup_cons.mp hnodup).1

theorem hand_mem (h : Inv c T [x] held loose) : x ∈ T.ids :=
  h.queue.mem_iff.mp List.mem_cons_self

theorem take_inv (h : Inv c T [] held loose) (hx : x ∈ c.expireQueue)
    (hname : f.name = (c.file x).name) (hcount : f.count = (c.file x).count) :
    Inv { c.setFile x f with expireQueue := c.expireQueue.erase x } T [x] held
      ((c.file x).fd.toList++loose) := by
  have hqueue : c.expireQueue.Perm T.ids := h.queue
  have hnodup : c.expireQueue.Nodup := hqueue.nodup_iff.mpr (kept_nodup _ _ T h.kept)
  have hin : x ∈ c.allocated := h.sub x (hqueue.mem_iff.mp hx)
  have hcached := h.cached x hx
  refine ⟨kept_file c T x f h.kept hname,(List.perm_cons_erase hx).symm.trans hqueue,h.current,
    h.bound,h.allocated,h.sub,h.known,fun y hy => ?_,fun y hy => ?_,fun y hy hn => ?_,?_⟩
  · rw [List.mem_singleton.mp hy]
    exact ⟨(set_file_self c x f ▸ hcount).trans hcached.count,hcached.bound⟩
  · obtain ⟨hne,hy⟩ := hnodup.mem_erase_iff.mp hy
    exact (set_file_of_ne c x y f hne) ▸ h.cached y hy
  · have hne : y ≠ x := fun he => hn (he ▸ hqueue.mem_iff.mp hx)
    exact (set_file_of_ne c x y f hne) ▸ h.detached y hy hn
  · refine balanced_perm _ _ _ h.balanced ?_
    have hsplit : (fds c c.allocated).Perm ((c.file x).fd.toList++fds c (c.allocated.erase x)) :=
      fds_perm c _ _ (List.perm_cons_erase hin)
    show (fds c c.allocated++loose).Perm (fds (c.setFile x f) (c.allocated.erase x)++_)
    rw [fds_erase c x f h.allocated]
    refine (hsplit.append_right loose).trans ?_
    rw [← List.append_assoc]
    exact List.perm_append_comm.append_right loose

theorem put_inv (held' : List ℕ) (h : Inv c T [x] held (f.fd.toList++loose))
    (hname : f.name = (c.file x).name) (hf : Cached f (held'.count x))
    (hsub : ∀ y ∈ held', y = x ∨ y ∈ held) (hcount : ∀ y, y ≠ x → held'.count y = held.count y) :
    Inv { c.setFile x f with expireQueue := x::c.expireQueue } T [] held' loose := by
  have hx := hand_nodup c T x held _ h
  have hmem := hand_mem c T x held _ h
  have hin : x ∈ c.allocated := h.sub x hmem
  refine ⟨kept_file c T x f h.kept hname,h.queue,h.current,h.bound,h.allocated,h.sub,
    fun y hy => ?_,nofun,fun y hy => ?_,fun y hy hn => ?_,?_⟩
  · rcases hsub y hy with rfl | hy
    · exact hin
    · exact h.known y hy
  · rcases List.mem_cons.mp hy with rfl | hy
    · show Cached ((c.setFile y f).file y) _
      rw [set_file_self]
      exact hf
    have hne : y ≠ x := fun he => hx (he ▸ hy)
    rw [hcount y hne]
    exact (set_file_of_ne c x y f hne) ▸ h.cached y hy
  · have hne : y ≠ x := fun he => hn (he ▸ hmem)
    rw [hcount y hne]
    exact (set_file_of_ne c x y f hne) ▸ h.detached y hy hn
  · refine balanced_perm _ _ _ h.balanced ?_
    exact (fds_set c x f loose h.allocated hin).symm

structure Unlinked (t : Rbtree) (T' : RedBlackTree.Tree ℕ) : Prop where
  kept : ∀ file : ℕ → CachedOpenFile, (∀ y ∈ T'.ids, (file y).name = (c.file y).name) →
    Kept t (fun y => nodeKey (t.key y) (cString (file y).name)) T'
  ids : T'.ids = T.ids.erase x
  queue : c.expireQueue.Perm T'.ids

variable (fuel : ℕ)

theorem unlink_spec (t : Rbtree) (h : Inv c T [x] held loose)
    (hrun : ngxRbtreeDelete fuel c.rbtree x = some t) : ∃ T', Unlinked c T x t T' := by
  have hmem := hand_mem c T x held loose h
  have hnodup := kept_nodup _ _ T h.kept
  obtain ⟨-,hkeys,T',hkept,hids⟩ := (delete_kept c.rbtree (fileKey c) T x h.kept hmem).2 t ⟨fuel,hrun⟩
  refine ⟨T',fun file hfile => kept_congr _ _ _ T' hkept (fun y hy => ?_),hids,?_⟩
  · have hne : y ≠ x := by
      rw [hids] at hy
      exact (hnodup.mem_erase_iff.mp hy).1
    rw [hfile y hy, hkeys y hne]
    rfl
  · rw [hids]
    have herase := h.queue.erase x
    rwa [List.singleton_append, List.erase_cons_head] at herase

theorem drop_inv (t : Rbtree) (h : Inv c T [x] held loose) (hfree : held.count x = 0)
    (hrun : ngxRbtreeDelete fuel c.rbtree x = some t) :
    ∃ T', Inv { c.setFile x f with
      rbtree := t, current := c.current-1, allocated := c.allocated.erase x } T' [] held loose := by
  have hmem := hand_mem c T x held loose h
  have hx := hand_nodup c T x held loose h
  have hnodup := kept_nodup _ _ T h.kept
  obtain ⟨T',hkept,hids,hqueue⟩ := unlink_spec c T x held loose fuel t h hrun
  have hlen : T'.ids.length = T.ids.length-1 := by
    rw [hids, List.length_erase_of_mem hmem]
  have hne' : ∀ y ∈ T'.ids, y ≠ x := by
    intro y hy
    rw [hids] at hy
    exact (hnodup.mem_erase_iff.mp hy).1
  refine ⟨T',hkept _ (fun y hy => congrArg _ (set_file_of_ne c x y f (hne' y hy))),hqueue,?_,?_,
    h.allocated.erase x,fun y hy => ?_,fun y hy => ?_,nofun,fun y hy => ?_,fun y hy hn => ?_,?_⟩
  · show c.current-1 = _
    rw [hlen, h.current]
  · have hbound := h.bound
    show c.current-1 ≤ max 1 c.max
    omega
  · rw [hids] at hy
    obtain ⟨hne,hy⟩ := hnodup.mem_erase_iff.mp hy
    exact h.allocated.mem_erase_iff.mpr ⟨hne,h.sub y hy⟩
  · refine h.allocated.mem_erase_iff.mpr ⟨?_,h.known y hy⟩
    rintro rfl
    exact absurd hy (List.count_eq_zero.mp hfree)
  · have hne : y ≠ x := fun he => hx (he ▸ hy)
    exact (set_file_of_ne c x y f hne) ▸ h.cached y hy
  · obtain ⟨hne,hy⟩ := h.allocated.mem_erase_iff.mp hy
    refine (set_file_of_ne c x y f hne) ▸ h.detached y hy (fun hy => hn ?_)
    rw [hids]
    exact hnodup.mem_erase_iff.mpr ⟨hne,hy⟩
  · show Balanced c.ledger (fds (c.setFile x f) (c.allocated.erase x)++loose)
    rw [fds_erase c x f h.allocated]
    exact h.balanced

theorem detach_inv (t : Rbtree) (h : Inv c T [x] held (f.fd.toList++loose))
    (hname : f.name = (c.file x).name) (hf : Detached f (held.count x))
    (hrun : ngxRbtreeDelete fuel c.rbtree x = some t) :
    ∃ T', Inv { c.setFile x f with rbtree := t, current := c.current-1 } T' [] held loose := by
  have hmem := hand_mem c T x held _ h
  have hx := hand_nodup c T x held _ h
  have hin : x ∈ c.allocated := h.sub x hmem
  have hnodup := kept_nodup _ _ T h.kept
  obtain ⟨T',hkept,hids,hqueue⟩ := unlink_spec c T x held _ fuel t h hrun
  have hlen : T'.ids.length = T.ids.length-1 := by
    rw [hids, List.length_erase_of_mem hmem]
  have hname' : ∀ y, ((c.setFile x f).file y).name = (c.file y).name := by
    intro y
    by_cases hy : y = x
    · subst hy
      rw [set_file_self, hname]
    · rw [set_file_of_ne _ _ _ _ hy]
  refine ⟨T',hkept _ (fun y _ => hname' y),hqueue,?_,?_,h.allocated,fun y hy => ?_,
    h.known,nofun,fun y hy => ?_,fun y hy hn => ?_,?_⟩
  · show c.current-1 = _
    rw [hlen, h.current]
  · have hbound := h.bound
    show c.current-1 ≤ max 1 c.max
    omega
  · rw [hids] at hy
    exact h.sub y (List.mem_of_mem_erase hy)
  · have hne : y ≠ x := fun he => hx (he ▸ hy)
    exact (set_file_of_ne c x y f hne) ▸ h.cached y hy
  · by_cases hyx : y = x
    · subst hyx
      show Detached ((c.setFile y f).file y) _
      rw [set_file_self]
      exact hf
    refine (set_file_of_ne c x y f hyx) ▸ h.detached y hy (fun hy => hn ?_)
    rw [hids]
    exact hnodup.mem_erase_iff.mpr ⟨hyx,hy⟩
  · refine balanced_perm _ _ _ h.balanced ?_
    exact (fds_set c x f loose h.allocated hin).symm

end Hand

theorem set_file_set (f' : CachedOpenFile) : (c.setFile x f).setFile x f' = c.setFile x f' := by
  rw [Cache.setFile, Cache.setFile, Cache.setFile, Function.update_idem]

theorem set_file_same : c.setFile x (c.file x) = c := by
  rw [Cache.setFile, Function.update_eq_self]

def closeFd (c : Cache) : Option ℕ → Cache
  | some fd => c.closeFile fd
  | none => c

theorem close_fd_inv (hand held loose : List ℕ) (fd : Option ℕ)
    (h : Inv c T hand held (fd.toList++loose)) : Inv (closeFd c fd) T hand held loose := by
  cases fd with
  | none => exact h
  | some d =>
    exact ⟨h.kept,h.queue,h.current,h.bound,h.allocated,h.sub,h.known,h.taken,h.cached,
      h.detached,balanced_close _ _ d (balanced_perm _ _ _ h.balanced List.perm_middle)⟩

theorem close_unused_eq (h : (c.file x).count = 0) :
    closeUnused c x = let c' := (closeFd c (c.file x).fd).setFile x { c.file x with fd := none }
    if (c.file x).close then c'.free x else c' := by
  have hclose : ∀ f : Option ℕ, (closeFd c f).file = c.file := by
    intro f
    cases f <;> rfl
  rw [closeUnused, if_neg (not_not.mpr h)]
  cases hfd : (c.file x).fd with
  | none =>
    have hsame : ({ c.file x with fd := none } : CachedOpenFile) = c.file x := by rw [← hfd]
    simp only [closeFd, hsame, set_file_same]
  | some d =>
    simp only [closeFd, set_file_self]

theorem close_unused_kept (hf : c.file x = f) (hcount : f.count = 0) (hclose : f.close = false) :
    closeUnused c x = (closeFd c f.fd).setFile x { f with fd := none } := by
  subst hf
  rw [close_unused_eq c x hcount]
  simp only [hclose, Bool.false_eq_true, if_false]

theorem close_unused_freed (hf : c.file x = f) (hcount : f.count = 0) (hclose : f.close = true) :
    closeUnused c x = ((closeFd c f.fd).setFile x { f with fd := none }).free x := by
  subst hf
  rw [close_unused_eq c x hcount]
  simp only [hclose, if_true]

variable (fuel : ℕ)

theorem expire_file_inv (c c' : Cache) (T : RedBlackTree.Tree ℕ) (held loose : List ℕ) (x : ℕ)
    (now : ℤ) (h : Inv c T [] held loose) (hx : x ∈ c.expireQueue)
    (hrun : expireFile fuel c x now = some c') :
    ∃ T', Inv c' T' [] held loose ∧ c'.current = c.current-1 ∧ c'.max = c.max := by
  have hcached := h.cached x hx
  have htake := take_inv c T x (c.file x) held loose h hx rfl rfl
  rw [set_file_same] at htake
  obtain ⟨t,hdelete,rfl⟩ := Option.map_eq_some_iff.mp hrun
  simp only
  by_cases hopen : (c.file x).err = 0 ∧ (c.file x).isDir = false
  · rw [if_pos hopen, ngxCloseCachedFile, set_file_self, if_pos rfl]
    by_cases hcount : (c.file x).count = 0
    · have hfree : held.count x = 0 := hcached.count.symm.trans hcount
      obtain ⟨T',hinv⟩ := drop_inv _ T x { c.file x with close := true, fd := none } held loose fuel t
        (close_fd_inv _ T [x] held loose (c.file x).fd htake) hfree
        (by cases (c.file x).fd <;> exact hdelete)
      rw [close_unused_freed _ x { c.file x with close := true } (set_file_self ..) hcount rfl]
      refine ⟨T',?_,?_,?_⟩
      · cases hfd : (c.file x).fd with
        | none =>
          rw [hfd] at hinv
          simpa only [closeFd, Cache.free, set_file_set, Cache.setFile, Function.update_idem] using hinv
        | some d =>
          rw [hfd] at hinv
          simpa only [closeFd, Cache.closeFile, Cache.free, set_file_set, Cache.setFile,
            Function.update_idem] using hinv
      · cases (c.file x).fd <;> rfl
      · cases (c.file x).fd <;> rfl
    have hdetached : Detached { c.file x with close := true } (held.count x) := by
      refine ⟨hcached.count,hcached.bound,?_,rfl,?_,hopen.1,hopen.2⟩
      · rw [← hcached.count]
        exact Nat.pos_of_ne_zero hcount
      · intro hfd
        exact hcount (hcached.count.trans (hcached.closed hfd))
    obtain ⟨T',hinv⟩ := detach_inv _ T x { c.file x with close := true } held loose fuel t htake
      rfl hdetached hdelete
    rw [closeUnused, set_file_self, if_pos hcount]
    exact ⟨T',hinv,rfl,rfl⟩
  have hother : (c.file x).err ≠ 0 ∨ (c.file x).isDir = true := by
    by_contra hno
    obtain ⟨herr,hdir⟩ := not_or.mp hno
    exact hopen ⟨not_not.mp herr,by simpa using hdir⟩
  obtain ⟨hfd,hn⟩ := hcached.other hother
  rw [hfd] at htake
  obtain ⟨T',hinv⟩ := drop_inv _ T x (c.file x) held loose fuel t htake hn hdelete
  have hsame : Cache.setFile { c with expireQueue := c.expireQueue.erase x } x (c.file x) =
      { c with expireQueue := c.expireQueue.erase x } :=
    set_file_same { c with expireQueue := c.expireQueue.erase x } x
  rw [hsame] at hinv
  rw [if_neg hopen]
  exact ⟨T',hinv,rfl,rfl⟩

theorem expire_loop_inv (k : ℕ) (c c' : Cache) (T : RedBlackTree.Tree ℕ) (held loose : List ℕ)
    (now : ℤ) (h : Inv c T [] held loose) (hrun : expireLoop fuel now k c = some c') :
    (∃ T', Inv c' T' [] held loose) ∧ c'.current ≤ c.current ∧ c'.max = c.max ∧
      (k = 3 → c'.current+1 ≤ max 1 c.max) := by
  have hbound := h.bound
  induction k generalizing c T with
  | zero =>
    cases hrun
    exact ⟨⟨T,h⟩,Nat.le_refl _,rfl,nofun⟩
  | succ k ih =>
    rw [expireLoop] at hrun
    cases hlast : c.expireQueue.getLast? with
    | none =>
      rw [hlast] at hrun
      rw [← Option.some.inj hrun]
      refine ⟨⟨T,h⟩,Nat.le_refl _,rfl,fun _ => ?_⟩
      have hempty : c.expireQueue = [] := List.getLast?_eq_none_iff.mp hlast
      have hqueue := h.queue
      rw [hempty] at hqueue
      rw [h.current, ← hqueue.length_eq]
      exact Nat.le_max_left 1 c.max
    | some x =>
      rw [hlast] at hrun
      simp only at hrun
      split_ifs at hrun with hstop
      · cases hrun
        exact ⟨⟨T,h⟩,Nat.le_refl _,rfl,fun hk => absurd (by omega) hstop.1⟩
      · obtain ⟨c1,hfile,hrest⟩ := Option.bind_eq_some_iff.mp hrun
        obtain ⟨T1,hinv,hcurrent,hmax⟩ := expire_file_inv fuel c c1 T held loose x now h
          (List.mem_of_getLast? hlast) hfile
        obtain ⟨hinv',hle,hmax',-⟩ := ih c1 T1 hinv hrest hinv.bound
        have hpos : 0 < c.current := by
          rw [h.current, ← h.queue.length_eq]
          exact List.length_pos_of_mem (List.mem_of_getLast? hlast)
        refine ⟨hinv',by omega,hmax'.trans hmax,fun _ => by omega⟩

end Nginx.OpenFileCacheKept
