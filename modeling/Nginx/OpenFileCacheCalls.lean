import Nginx.OpenFileCacheKept

/-!
# The calls of the cache

A cleanup of a request lets an entry go, and a lookup ends with an entry in hand or with a
new one. What `ngx_open_and_stat_file` has opened is loose until an entry has it.
-/

set_option autoImplicit false

namespace Nginx.OpenFileCacheCalls
open Nginx.RedBlackTree Nginx.NgxRbtree Nginx.RbtreeShape Nginx.RbtreeKept Nginx.RbtreeSearch
open Nginx.RbtreeAddition
open Nginx.Ledger Nginx.OpenFileCache Nginx.OpenFileCacheKept

section Release
variable (c : Cache) (T : RedBlackTree.Tree ℕ) (x : ℕ) (f : CachedOpenFile) (held loose : List ℕ)

theorem count_cons_of_ne (y : ℕ) (hy : y ≠ x) : held.count y = (x::held).count y := by
  rw [List.count_cons_of_ne (Ne.symm hy)]

theorem detached_fds (hx : x ∉ T.ids) (h : Inv c T [] held loose) (y : ℕ) (hy : y ∈ c.expireQueue) :
    y ≠ x := by
  rintro rfl
  exact hx (h.queue.mem_iff.mp hy)

theorem detached_inv (h : Inv c T [] (x::held) loose) (hx : x ∉ T.ids)
    (hf : Detached f (held.count x)) (hfd : f.fd = (c.file x).fd) :
    Inv (c.setFile x f) T [] held loose := by
  have hne := detached_fds c T x (x::held) loose hx h
  have hname : ∀ y ∈ T.ids, (c.setFile x f).file y = c.file y :=
    fun y hy => set_file_of_ne c x y f (fun he => hx (he ▸ hy))
  refine ⟨kept_congr _ (fileKey c) _ T h.kept (fun y hy => ?_),h.queue,h.current,h.bound,
    h.allocated,h.sub,fun y hy => h.known y (List.mem_cons_of_mem _ hy),nofun,fun y hy => ?_,
    fun y hy hn => ?_,?_⟩
  · rw [fileKey, fileKey, hname y hy]
    rfl
  · rw [set_file_of_ne c x y f (hne y hy), count_cons_of_ne x held y (hne y hy)]
    exact h.cached y hy
  · by_cases hyx : y = x
    · subst hyx
      rw [set_file_self]
      exact hf
    · rw [set_file_of_ne c x y f hyx, count_cons_of_ne x held y hyx]
      exact h.detached y hy hn
  · have hsame : fds (c.setFile x f) c.allocated = fds c c.allocated := by
      refine fds_congr c _ _ (fun y _ => ?_)
      by_cases hyx : y = x
      · subst hyx
        rw [set_file_self, hfd]
      · rw [set_file_of_ne c x y f hyx]
    show Balanced c.ledger (fds (c.setFile x f) c.allocated++loose)
    rw [hsame]
    exact h.balanced

theorem release_inv (h : Inv c T [] (x::held) loose) (hx : x ∉ T.ids) (hfree : held.count x = 0) :
    Inv (((closeFd c (c.file x).fd).setFile x f).free x) T [] held loose := by
  have hne := detached_fds c T x (x::held) loose hx h
  have hin : x ∈ c.allocated := h.known x List.mem_cons_self
  have hname : ∀ y ∈ T.ids, (c.setFile x f).file y = c.file y :=
    fun y hy => set_file_of_ne c x y f (fun he => hx (he ▸ hy))
  have hfree' : Inv ((c.setFile x f).free x) T [] held ((c.file x).fd.toList++loose) := by
    refine ⟨kept_congr _ (fileKey c) _ T h.kept (fun y hy => ?_),h.queue,h.current,h.bound,
      h.allocated.erase x,fun y hy => ?_,fun y hy => ?_,nofun,fun y hy => ?_,
      fun y hy hn => ?_,?_⟩
    · show nodeKey (c.rbtree.key y) (cString ((c.setFile x f).file y).name) = _
      rw [hname y hy]
      rfl
    · exact h.allocated.mem_erase_iff.mpr ⟨fun he => hx (he ▸ hy),h.sub y hy⟩
    · refine h.allocated.mem_erase_iff.mpr ⟨?_,h.known y (List.mem_cons_of_mem _ hy)⟩
      rintro rfl
      exact absurd hy (List.count_eq_zero.mp hfree)
    · show Cached ((c.setFile x f).file y) _
      rw [set_file_of_ne c x y f (hne y hy), count_cons_of_ne x held y (hne y hy)]
      exact h.cached y hy
    · obtain ⟨hyx,hy⟩ := h.allocated.mem_erase_iff.mp hy
      show Detached ((c.setFile x f).file y) _
      rw [set_file_of_ne c x y f hyx, count_cons_of_ne x held y hyx]
      exact h.detached y hy hn
    · have hperm := fds_set c x (c.file x) loose h.allocated hin
      rw [set_file_same] at hperm
      show Balanced c.ledger (fds (c.setFile x f) (c.allocated.erase x)++_)
      rw [fds_erase c x f h.allocated]
      exact balanced_perm _ _ _ h.balanced hperm
  have hclose := close_fd_inv _ T [] held loose _ hfree'
  cases hfd : (c.file x).fd with
  | none =>
    rw [hfd] at hclose
    exact hclose
  | some d =>
    rw [hfd] at hclose
    exact hclose

theorem close_cached_inv (minUses : ℕ) (now : ℤ) (h : Inv c T [] (x::held) loose) :
    ∃ T', Inv (ngxCloseCachedFile (c.setFile x { c.file x with
      count := ((c.file x).count+(2^24-1)) % 2^24 }) x minUses now) T' [] held loose := by
  have hcount : ((held.count x+1)+(2^24-1)) % 2^24 = held.count x % 2^24 := by
    rw [show held.count x+1+(2^24-1) = held.count x+2^24 by omega, Nat.add_mod_right]
  by_cases hx : x ∈ c.expireQueue
  · have hcached := h.cached x hx
    rw [List.count_cons_self] at hcached
    have hbound := hcached.bound
    rw [hcached.count, hcount, Nat.mod_eq_of_lt (by omega)]
    have hopen : (c.file x).err = 0 ∧ (c.file x).isDir = false := by
      by_contra hno
      rw [not_and_or] at hno
      have hother := hcached.other (hno.imp id (fun hd => by simpa using hd))
      omega
    have htake := take_inv c T x (c.file x) (x::held) loose h hx rfl rfl
    rw [set_file_same] at htake
    rw [ngxCloseCachedFile, set_file_self, if_neg (by
      rw [hcached.close hopen.1]
      exact Bool.false_ne_true)]
    simp only [set_file_set, set_file_self]
    by_cases hstay : (c.file x).uses ≥ minUses ∨ held.count x ≠ 0
    · rw [if_pos hstay]
      refine ⟨T,put_inv _ T x { c.file x with count := held.count x, accessed := now } (x::held)
        loose held htake rfl ⟨rfl,by omega,?_,hcached.close,?_⟩
        (fun y hy => Or.inr (List.mem_cons_of_mem _ hy)) (fun y hy => count_cons_of_ne x held y hy)⟩
      · exact fun hother => absurd (hcached.other hother).2 (by omega)
      · exact fun hfd => absurd (hcached.closed hfd) (by omega)
    obtain ⟨-,hzero⟩ := not_or.mp hstay
    have hzero := not_not.mp hzero
    have hclose := close_fd_inv _ T [x] (x::held) loose (c.file x).fd htake
    have hput := put_inv _ T x { c.file x with count := held.count x, accessed := now, fd := none }
      (x::held) loose held hclose (by cases (c.file x).fd <;> rfl)
      ⟨rfl,by omega,fun _ => ⟨rfl,hzero⟩,hcached.close,fun _ => hzero⟩
      (fun y hy => Or.inr (List.mem_cons_of_mem _ hy)) (fun y hy => count_cons_of_ne x held y hy)
    have heq := close_unused_kept { c.setFile x { c.file x with
        count := held.count x, accessed := now } with expireQueue := x::c.expireQueue.erase x } x
      { c.file x with count := held.count x, accessed := now } (set_file_self ..) hzero
      (hcached.close hopen.1)
    rw [if_neg hstay]
    refine ⟨T,heq ▸ ?_⟩
    cases hfd : (c.file x).fd with
    | none =>
      rw [hfd] at hput
      simpa only [closeFd, Cache.setFile, Function.update_idem] using hput
    | some d =>
      rw [hfd] at hput
      simpa only [closeFd, Cache.closeFile, Cache.setFile, Function.update_idem] using hput
  have hxT : x ∉ T.ids := fun hm => hx (h.queue.mem_iff.mpr hm)
  have hdet := h.detached x (h.known x List.mem_cons_self) hxT
  rw [List.count_cons_self] at hdet
  have hbound := hdet.bound
  rw [hdet.count, hcount, Nat.mod_eq_of_lt (by omega), ngxCloseCachedFile, set_file_self,
    if_pos hdet.close]
  by_cases hzero : held.count x = 0
  · have hrelease := release_inv c T x { c.file x with count := held.count x, fd := none } held
      loose h hxT hzero
    rw [close_unused_freed _ x { c.file x with count := held.count x } (set_file_self ..) hzero
      hdet.close]
    refine ⟨T,?_⟩
    cases hfd : (c.file x).fd with
    | none =>
      rw [hfd] at hrelease
      simpa only [closeFd, Cache.setFile, Function.update_idem] using hrelease
    | some d =>
      rw [hfd] at hrelease
      simpa only [closeFd, Cache.closeFile, Cache.setFile, Function.update_idem] using hrelease
  rw [closeUnused, set_file_self, if_pos hzero]
  exact ⟨T,detached_inv c T x _ held loose h hxT ⟨rfl,by omega,by omega,hdet.close,hdet.fd,
    hdet.err,hdet.isDir⟩ rfl⟩

theorem cleanup_inv (fuel minUses : ℕ) (now : ℤ) (c' : Cache) (h : Inv c T [] (x::held) loose)
    (hrun : ngxOpenFileCleanup fuel c x minUses now = some c') :
    ∃ T', Inv c' T' [] held loose := by
  obtain ⟨T1,h1⟩ := close_cached_inv c T x held loose minUses now h
  exact (expire_loop_inv fuel _ _ c' T1 held loose now h1 hrun).1

end Release

/-- The answers of `ngx_open_and_stat_file`, beside the descriptors `rest`. -/
inductive Opened (w : World) (of : OpenFileInfo) (rest : List ℕ) :
    Bool × OpenFileInfo × Handles → Prop where
  | same (fd : ℕ) (of' : OpenFileInfo) (l : Handles) (hfd : of.fd = some fd)
      (hfd' : of'.fd = some fd) (herr : of'.err = of.err) (hstat : w.stat = .ok of'.info)
      (huniq : of'.info.uniq = of.info.uniq) (hl : Balanced l (fd::rest)) :
      Opened w of rest (true, of', l)
  | file (fd : ℕ) (of' : OpenFileInfo) (l : Handles) (hfd : of'.fd = some fd)
      (herr : of'.err = of.err) (hdir : of'.info.isDir = false) (hopen : w.openFile = .ok fd)
      (hinfo : w.fdInfo = some of'.info)
      (hstat : of.fd ≠ none → ∃ fi, w.stat = .ok fi ∧ fi.uniq ≠ of.info.uniq)
      (hl : Balanced l (fd::(of.fd.toList++rest))) : Opened w of rest (true, of', l)
  | dir (of' : OpenFileInfo) (l : Handles) (hfd : of'.fd = none) (herr : of'.err = of.err)
      (hdir : of'.info.isDir = true) (hl : Balanced l (of.fd.toList++rest)) :
      Opened w of rest (true, of', l)
  | error (of' : OpenFileInfo) (l : Handles) (hfd : of'.fd = none)
      (hl : Balanced l (of.fd.toList++rest)) : Opened w of rest (false, of', l)

theorem open_and_info_spec (w : World) (l : Handles) (of : OpenFileInfo) (rest : List ℕ)
    (h : Balanced l (of.fd.toList++rest)) (hnew : ∀ fd, w.openFile = .ok fd → fd ∉ l.opened)
    (hstat : of.fd ≠ none → ∃ fi, w.stat = .ok fi ∧ fi.uniq ≠ of.info.uniq) :
    Opened w of rest (openAndInfo w l of) := by
  rw [openAndInfo]
  cases hopen : w.openFile with
  | error err => exact Opened.error _ _ rfl h
  | ok fd =>
    have hl := balanced_open l _ fd h (hnew fd hopen)
    cases hinfo : w.fdInfo with
    | none => exact Opened.error _ _ rfl (balanced_close _ _ fd hl)
    | some fi =>
      by_cases hdir : fi.isDir = true
      · simp only [hdir, if_true]
        exact Opened.dir _ _ rfl rfl hdir (balanced_close _ _ fd hl)
      · simp only [hdir, Bool.false_eq_true, if_false]
        exact Opened.file fd _ _ rfl rfl (by simpa using hdir) hopen hinfo hstat hl

theorem open_and_stat_spec (w : World) (l : Handles) (of : OpenFileInfo) (rest : List ℕ)
    (h : Balanced l (of.fd.toList++rest)) (hnew : ∀ fd, w.openFile = .ok fd → fd ∉ l.opened) :
    Opened w of rest (ngxOpenAndStatFile w l of) := by
  rw [ngxOpenAndStatFile]
  cases hfd : of.fd with
  | some fd =>
    rw [if_pos nofun]
    cases hstat : w.stat with
    | error err => exact Opened.error _ _ rfl h
    | ok fi =>
      simp only
      split_ifs with huniq
      · rw [hfd] at h
        exact Opened.same fd _ _ hfd rfl rfl hstat huniq.symm h
      · exact open_and_info_spec w l of rest h hnew
          (fun _ => ⟨fi,hstat,fun he => huniq he.symm⟩)
  | none =>
    have hnone : of.fd ≠ none → ∃ fi, w.stat = .ok fi ∧ fi.uniq ≠ of.info.uniq :=
      fun hn => absurd hfd hn
    rw [if_neg (not_not.mpr rfl)]
    by_cases htest : of.testDir = true
    · rw [if_pos htest]
      cases hstat : w.stat with
      | error err => exact Opened.error _ _ rfl h
      | ok fi =>
        simp only
        split_ifs with hdir
        · exact Opened.dir _ _ rfl rfl hdir h
        · exact open_and_info_spec w l of rest h hnew hnone
    · rw [if_neg htest]
      exact open_and_info_spec w l of rest h hnew hnone

structure Usable (of : OpenFileInfo) : Prop where
  file : of.err = 0 → of.info.isDir = false → of.fd ≠ none
  other : of.err ≠ 0 ∨ of.info.isDir = true → of.fd = none

section Put
variable (c : Cache) (T : RedBlackTree.Tree ℕ) (x : ℕ) (held loose : List ℕ) (of : OpenFileInfo) (now : ℤ)

theorem found_inv (f : CachedOpenFile) (h : Inv c T [x] held (f.fd.toList++loose))
    (hname : f.name = (c.file x).name)
    (hf : Cached f (((found (c.setFile x f) x of now).file.toList++held).count x)) :
    Inv (found (c.setFile x f) x of now).cache T [] ((found (c.setFile x f) x of now).file.toList++held)
      loose := by
  have hcache : (found (c.setFile x f) x of now).cache = { c.setFile x { f with accessed := now } with
      expireQueue := x::c.expireQueue } := by
    rw [found]
    simp only [set_file_self, set_file_set]
    split_ifs <;> rfl
  have hfile : (found (c.setFile x f) x of now).file = none ∨
      (found (c.setFile x f) x of now).file = some x := by
    rw [found]
    split_ifs <;> simp
  rw [hcache]
  refine put_inv c T x { f with accessed := now } held loose _ h hname
    ⟨hf.count,hf.bound,hf.other,hf.close,hf.closed⟩ (fun y hy => ?_) (fun y hy => ?_)
  · rcases hfile with hfile | hfile
    · rw [hfile] at hy
      exact Or.inr hy
    · rw [hfile] at hy
      exact List.mem_cons.mp hy
  · rcases hfile with hfile | hfile
    · rw [hfile]
      rfl
    · rw [hfile]
      exact List.count_cons_of_ne (Ne.symm hy)

theorem update_inv (h : Inv c T [x] held (of.fd.toList++loose)) (hu : Usable of)
    (hmore : of.err = 0 → of.info.isDir = false → held.count x+1 < 2^24)
    (hzero : of.err ≠ 0 ∨ of.info.isDir = true → held.count x = 0) :
    Inv (OpenFileCache.update c x of now).cache T []
      ((OpenFileCache.update c x of now).file.toList++held) loose := by
  obtain ⟨hcount,hbound⟩ := h.taken x List.mem_cons_self
  by_cases herr : of.err = 0
  · cases hdir : of.info.isDir with
    | true =>
      have hn := hzero (Or.inr hdir)
      have hfd := hu.other (Or.inr hdir)
      have heq : OpenFileCache.update c x of now = found (c.setFile x { c.file x with
          fd := of.fd, err := of.err, uniq := of.info.uniq, mtime := of.info.mtime,
          size := of.info.size, close := false, isDir := of.info.isDir, isFile := of.info.isFile,
          isLink := of.info.isLink, isExec := of.info.isExec, isDirectio := of.isDirectio,
          count := (c.file x).count, created := now }) x of now := by
        simp only [OpenFileCache.update, herr, hdir, if_true]
      rw [heq]
      refine found_inv c T x held loose of now _ h rfl ?_
      have hnone : ∀ f, (found (c.setFile x f) x of now).file = none := by
        intro f
        simp only [found, herr, hdir, if_true]
      rw [hnone]
      exact ⟨hcount,hbound,fun _ => ⟨hfd,hn⟩,fun _ => rfl,fun _ => hn⟩
    | false =>
      have hn := hmore herr hdir
      have heq : OpenFileCache.update c x of now = found (c.setFile x { c.file x with
          fd := of.fd, err := of.err, uniq := of.info.uniq, mtime := of.info.mtime,
          size := of.info.size, close := false, isDir := of.info.isDir, isFile := of.info.isFile,
          isLink := of.info.isLink, isExec := of.info.isExec, isDirectio := of.isDirectio,
          count := ((c.file x).count+1) % 2^24, created := now }) x of now := by
        simp only [OpenFileCache.update, herr, hdir, if_true, Bool.false_eq_true, if_false]
      rw [heq]
      refine found_inv c T x held loose of now _ h rfl ?_
      have hsome : ∀ f, (found (c.setFile x f) x of now).file = some x := by
        intro f
        simp only [found, herr, hdir, if_true, Bool.false_eq_true, if_false]
      rw [hsome]
      have hcons : ((some x).toList++held).count x = held.count x+1 := List.count_cons_self
      rw [hcons]
      refine ⟨?_,hn,fun hother => ?_,fun _ => rfl,fun hfd => absurd hfd (hu.file herr hdir)⟩
      · show ((c.file x).count+1) % 2^24 = _
        rw [hcount, Nat.mod_eq_of_lt hn]
      · rcases hother with he | hd
        · exact absurd herr he
        · exact absurd (hd.symm.trans hdir) (by decide)
  have hn := hzero (Or.inl herr)
  have hfd := hu.other (Or.inl herr)
  have heq : OpenFileCache.update c x of now = found (c.setFile x { c.file x with
      fd := of.fd, err := of.err, created := now }) x of now := by
    simp only [OpenFileCache.update, herr, if_false]
  rw [heq]
  refine found_inv c T x held loose of now _ h rfl ?_
  have hnone : ∀ f, (found (c.setFile x f) x of now).file = none := by
    intro f
    simp only [found, herr, if_false]
  rw [hnone]
  exact ⟨hcount,hbound,fun _ => ⟨hfd,hn⟩,fun he => absurd he herr,fun _ => hn⟩

end Put

def Leaves (held loose : List ℕ) (o : Outcome) : Prop :=
  ∃ T, Inv o.cache T [] (o.file.toList++held) loose

section Create
variable (fuel : ℕ) (c : Cache) (T : RedBlackTree.Tree ℕ) (x hash : ℕ) (name held loose : List ℕ)
  (of : OpenFileInfo) (w : World)

theorem failed_file_inv (c' : Cache) (h : Inv c T [x] held ((c.file x).fd.toList++loose))
    (hheld : 0 < held.count x → (c.file x).fd ≠ none ∧ (c.file x).err = 0 ∧
      (c.file x).isDir = false) (hrun : failedFile fuel c x = some c') :
    ∃ T', Inv c' T' [] held loose := by
  obtain ⟨hcount,hbound⟩ := h.taken x List.mem_cons_self
  obtain ⟨t,hdelete,rfl⟩ := Option.map_eq_some_iff.mp hrun
  simp only
  by_cases hzero : (c.file x).count = 0
  · have hclose := close_fd_inv c T [x] held loose _ h
    obtain ⟨T',hinv⟩ := drop_inv _ T x (c.file x) held loose fuel t hclose
      (hcount.symm.trans hzero) (by cases (c.file x).fd <;> exact hdelete)
    refine ⟨T',?_⟩
    rw [if_pos hzero]
    cases hfd : (c.file x).fd with
    | none =>
      rw [hfd, closeFd, set_file_same] at hinv
      exact hinv
    | some d =>
      rw [hfd] at hinv
      have hsame : (c.closeFile d).setFile x (c.file x) = c.closeFile d :=
        set_file_same (c.closeFile d) x
      rw [closeFd, hsame] at hinv
      exact hinv
  obtain ⟨hfd,herr,hdir⟩ := hheld (by omega)
  rw [if_neg hzero]
  exact detach_inv c T x { c.file x with close := true } held loose fuel t h rfl
    ⟨hcount,hbound,by omega,rfl,hfd,herr,hdir⟩ hdelete

theorem failed_none_inv (o : Outcome) (h : Inv c T [] held (of.fd.toList++loose))
    (hrun : failed fuel c none of = some o) : Leaves held loose o := by
  cases hrun
  refine ⟨T,?_⟩
  have hclose := close_fd_inv c T [] held loose of.fd h
  show Inv (closeInfo c of) T [] held loose
  cases hfd : of.fd with
  | none =>
    rw [hfd] at hclose
    rw [closeInfo, hfd]
    exact hclose
  | some d =>
    rw [hfd] at hclose
    rw [closeInfo, hfd]
    exact hclose

theorem failed_some_inv (o : Outcome) (h : Inv c T [x] held ((c.file x).fd.toList++loose))
    (hheld : 0 < held.count x → (c.file x).fd ≠ none ∧ (c.file x).err = 0 ∧
      (c.file x).isDir = false) (hfd : of.fd = none) (hrun : failed fuel c (some x) of = some o) :
    Leaves held loose o := by
  obtain ⟨c',hfile,rfl⟩ := Option.map_eq_some_iff.mp hrun
  obtain ⟨T',hinv⟩ := failed_file_inv fuel c T x held loose c' h hheld hfile
  refine ⟨T',?_⟩
  show Inv (closeInfo c' of) T' [] held loose
  rw [closeInfo, hfd]
  exact hinv

theorem insert_inv (t : Rbtree) (garbage : CachedOpenFile) (h : Inv c T [] held loose)
    (hx : x ∉ c.allocated) (hs : x ≠ c.rbtree.sentinel) (hroom : c.current+1 ≤ max 1 c.max)
    (hrun : ngxRbtreeInsert (ngxOpenFileCacheRbtreeInsertValue
      (Cache.setFile { c with allocated := x::c.allocated, rbtree := c.rbtree.setKey x hash } x
        { garbage with name := name })) fuel (c.rbtree.setKey x hash) x = some t) :
    ∃ T', Inv { c.setFile x { garbage with name := name, uses := 1, count := 0 } with
      allocated := x::c.allocated, rbtree := t, current := c.current+1 } T' [x] held loose := by
  have hxT : x ∉ T.ids := fun hm => hx (h.sub x hm)
  have hfree : held.count x = 0 := List.count_eq_zero.mpr (fun hm => hx (h.known x hm))
  obtain ⟨c1,hc1⟩ : ∃ c1, c1 = Cache.setFile
      { c with allocated := x::c.allocated, rbtree := c.rbtree.setKey x hash } x
      { garbage with name := name } := ⟨_,rfl⟩
  have hfile : ∀ y ∈ T.ids, c1.file y = c.file y := by
    intro y hy
    rw [hc1]
    exact set_file_of_ne _ x y _ (fun he => hxT (he ▸ hy))
  have hkept : Kept (c.rbtree.setKey x hash) (fileKey c1) T := by
    refine kept_congr _ (fileKey c) _ T (kept_write _ _ T x _ h.kept hxT hs) (fun y hy => ?_)
    have hkey : (c.rbtree.setKey x hash).key y = c.rbtree.key y := by
      have hne : y ≠ x := fun he => hxT (he ▸ hy)
      simp [Rbtree.setKey, Rbtree.key, Rbtree.set, hne]
    rw [fileKey, fileKey, hfile y hy, hc1]
    show nodeKey ((c.rbtree.setKey x hash).key y) _ = _
    rw [hkey]
  obtain ⟨hkeys,T',before,after,hkept',⟨hids,-,-⟩,hids'⟩ := (insert_kept _ _ _ T x hkept hxT
    hs (fun y => by
      have horder := insert_order_key c1 x y
      rw [hc1] at horder ⊢
      exact horder)).2 t ⟨fuel,hrun⟩
  have hmem : ∀ y, y ∈ T'.ids ↔ y = x ∨ y ∈ T.ids := by
    intro y
    rw [hids', hids]
    simp only [List.mem_append, List.mem_cons]
    tauto
  have hperm : T'.ids.Perm (x::T.ids) := by
    rw [hids', hids]
    exact List.perm_middle
  refine ⟨T',kept_congr _ (fileKey c1) _ T' hkept' (fun y _ => ?_),?_,?_,hroom,
    List.nodup_cons.mpr ⟨hx,h.allocated⟩,fun y hy => ?_,
    fun y hy => List.mem_cons_of_mem _ (h.known y hy),fun y hy => ?_,fun y hy => ?_,
    fun y hy hn => ?_,?_⟩
  · show nodeKey (t.key y) (cString ((c.setFile x _).file y).name) = nodeKey (c1.rbtree.key y) _
    have htree : c1.rbtree = c.rbtree.setKey x hash := by rw [hc1]; rfl
    rw [hkeys.2, ← htree]
    by_cases hyx : y = x
    · subst hyx
      rw [set_file_self, hc1, set_file_self]
    · rw [set_file_of_ne _ _ _ _ hyx, hc1, set_file_of_ne _ _ _ _ hyx]
  · exact ((h.queue.cons x).trans hperm.symm)
  · show c.current+1 = _
    rw [hperm.length_eq, List.length_cons, h.current]
  · rcases (hmem y).mp hy with rfl | hy
    · exact List.mem_cons_self
    · exact List.mem_cons_of_mem _ (h.sub y hy)
  · rw [List.mem_singleton.mp hy, hfree]
    exact ⟨congrArg CachedOpenFile.count (set_file_self ..),by decide⟩
  · have hne : y ≠ x := fun he => hxT (he ▸ h.queue.mem_iff.mp hy)
    exact (set_file_of_ne c x y _ hne) ▸ h.cached y hy
  · have hne : y ≠ x := fun he => hn ((hmem y).mpr (Or.inl he))
    have hy := (List.mem_cons.mp hy).resolve_left hne
    exact (set_file_of_ne c x y _ hne) ▸ h.detached y hy (fun hm => hn ((hmem y).mpr (Or.inr hm)))
  · have hother : ((x::c.allocated).erase x) = c.allocated := List.erase_cons_head ..
    show Balanced c.ledger (fds (c.setFile x _) ((x::c.allocated).erase x)++loose)
    rw [hother, fds_congr c (c.setFile x _) c.allocated (fun y hy => congrArg CachedOpenFile.fd
      (set_file_of_ne c x y _ (fun he => hx (he ▸ hy))))]
    exact h.balanced

def Allocates (w : World) : Prop :=
  ∀ (c : Cache) (x : ℕ) (garbage : CachedOpenFile), w.alloc c = some (x, garbage) →
    x ∉ c.allocated ∧ x ≠ c.rbtree.sentinel

theorem create_inv (o : Outcome) (h : Inv c T [] held (of.fd.toList++loose)) (hu : Usable of)
    (hw : Allocates w) (hrun : create fuel c hash name of w = some o) : Leaves held loose o := by
  obtain ⟨c1,hroom,hrest⟩ := Option.bind_eq_some_iff.mp hrun
  obtain ⟨⟨T1,h1⟩,hbound⟩ : (∃ T1, Inv c1 T1 [] held (of.fd.toList++loose)) ∧
      c1.current+1 ≤ max 1 c1.max := by
    split_ifs at hroom with hfull
    · obtain ⟨hinv,-,hmax,hforced⟩ := expire_loop_inv fuel _ c c1 T held _ w.now h hroom
      exact ⟨hinv,hmax ▸ hforced rfl⟩
    · rw [← Option.some.inj hroom]
      exact ⟨⟨T,h⟩,by omega⟩
  cases halloc : w.alloc c1 with
  | none =>
    simp only [halloc] at hrest
    exact failed_none_inv fuel c1 T1 held loose of o h1 hrest
  | some entry =>
    obtain ⟨x,garbage⟩ := entry
    simp only [halloc] at hrest
    split_ifs at hrest with hname
    · obtain ⟨hx,hs⟩ := hw c1 x garbage halloc
      obtain ⟨t,hinsert,rfl⟩ := Option.map_eq_some_iff.mp hrest
      obtain ⟨T2,h2⟩ := insert_inv fuel c1 T1 x hash name held _ t garbage h1 hx hs hbound hinsert
      refine ⟨T2,?_⟩
      have hfree : held.count x = 0 := List.count_eq_zero.mpr (fun hm => hx (h1.known x hm))
      have hinv := update_inv _ T2 x held loose of w.now h2 hu
        (fun _ _ => by rw [hfree]; decide) (fun _ => hfree)
      simpa only [Cache.setFile, Function.update_idem, Function.update_self] using hinv
    · exact failed_none_inv fuel c1 T1 held loose of o h1 hrest

theorem cached_plain (f : CachedOpenFile) (n : ℕ) (h : Cached f n) (hn : 0 < n ∨ f.fd ≠ none) :
    f.err = 0 ∧ f.isDir = false := by
  by_contra hno
  rw [not_and_or] at hno
  obtain ⟨hfd,hzero⟩ := h.other (hno.imp id (fun hd => by simpa using hd))
  rcases hn with hn | hn
  · omega
  · exact hn hfd

theorem retested_inv (o : Outcome) (hcached : Cached (c.file x) (held.count x))
    (h : Inv c T [x] held (of.fd.toList++((c.file x).fd.toList++loose))) (hu : Usable of)
    (hchanged : of.err = 0 → of.info.isDir = false → (c.file x).err = 0 →
      (c.file x).isDir = false → of.info.uniq ≠ (c.file x).uniq)
    (hw : Allocates w) (hrun : retested fuel c x hash name of w = some o) : Leaves held loose o := by
  have hother : (c.file x).isDir = true ∨ (c.file x).err ≠ 0 →
      Leaves held loose (OpenFileCache.update c x of w.now) := by
    intro hkind
    obtain ⟨hfd,hn⟩ := hcached.other hkind.symm
    rw [hfd] at h
    exact ⟨T,update_inv c T x held loose of w.now h hu (fun _ _ => by rw [hn]; decide)
      (fun _ => hn)⟩
  rw [retested] at hrun
  simp only at hrun
  by_cases h1 : of.info.isDir = true ∧ ((c.file x).isDir = true ∨ (c.file x).err ≠ 0)
  · rw [if_pos h1] at hrun
    rw [← Option.some.inj hrun]
    exact hother h1.2
  rw [if_neg h1] at hrun
  by_cases h2 : of.info.isDir = false ∧ of.err = 0 ∧
      ((c.file x).isDir = true ∨ (c.file x).err ≠ 0)
  · rw [if_pos h2] at hrun
    rw [← Option.some.inj hrun]
    exact hother h2.2.2
  rw [if_neg h2] at hrun
  have h3 : ¬ (of.info.isDir = false ∧ of.err = 0 ∧ of.info.uniq = (c.file x).uniq) := by
    rintro ⟨hdir,herr,huniq⟩
    have hkind := not_or.mp (fun hk => h2 ⟨hdir,herr,hk⟩)
    exact hchanged herr hdir (not_not.mp hkind.2) (by simpa using hkind.1) huniq
  rw [if_neg h3] at hrun
  by_cases h4 : of.info.isDir = false ∧ of.err ≠ 0 ∧
      ((c.file x).err ≠ 0 ∨ (c.file x).isDir = true)
  · rw [if_pos h4] at hrun
    rw [← Option.some.inj hrun]
    exact hother h4.2.2.symm
  rw [if_neg h4] at hrun
  have hloose : Inv c T [x] held ((c.file x).fd.toList++(of.fd.toList++loose)) :=
    ⟨h.kept,h.queue,h.current,h.bound,h.allocated,h.sub,h.known,h.taken,h.cached,
      h.detached,balanced_perm _ _ _ h.balanced (by
        refine List.Perm.append_left _ ?_
        rw [← List.append_assoc, ← List.append_assoc]
        exact List.perm_append_comm.append_right loose)⟩
  by_cases h5 : (c.file x).count = 0
  · have hn : held.count x = 0 := hcached.count.symm.trans h5
    have hclose := close_fd_inv c T [x] held _ _ hloose
    rw [if_pos h5] at hrun
    rw [← Option.some.inj hrun]
    refine ⟨T,?_⟩
    have hinv := update_inv _ T x held loose of w.now hclose hu
      (fun _ _ => by rw [hn]; decide) (fun _ => hn)
    cases hfd : (c.file x).fd with
    | none =>
      rw [hfd] at hinv
      exact hinv
    | some d =>
      rw [hfd] at hinv
      exact hinv
  have hpos : 0 < held.count x := by
    rw [← hcached.count]
    omega
  obtain ⟨herr,hdir⟩ := cached_plain _ _ hcached (Or.inl hpos)
  have hfd : (c.file x).fd ≠ none := fun hfd => by
    have hzero := hcached.closed hfd
    omega
  rw [if_neg h5] at hrun
  obtain ⟨t,hdelete,hcreate⟩ := Option.bind_eq_some_iff.mp hrun
  obtain ⟨T',hinv⟩ := detach_inv c T x { c.file x with close := true } held _ fuel t hloose rfl
    ⟨hcached.count,hcached.bound,hpos,rfl,hfd,herr,hdir⟩ hdelete
  exact create_inv fuel _ T' hash name held loose of w o hinv hu hw hcreate

end Create

/-- The system gives a descriptor that nobody has had, and the allocator a free entry. -/
structure Valid (c : Cache) (w : World) : Prop where
  openFile : ∀ fd, w.openFile = .ok fd → fd ∉ c.ledger.opened
  alloc : Allocates w

/-- What the code relies on for an entry that a call finds: its 24-bit counter has room, and a
retest of an open file that sees the number of the cached file sees that file. -/
structure Steady (c : Cache) (x : ℕ) (of : OpenFileInfo) (w : World) (n : ℕ) : Prop where
  room : n+1 < 2^24
  same : fresh (c.file x) of w.now = false → (c.file x).fd ≠ none → ∀ fi, w.stat = .ok fi →
    fi.uniq = (c.file x).uniq → fi.isDir = false
  changed : fresh (c.file x) of w.now = false → (c.file x).fd ≠ none → ∀ fi, w.stat = .ok fi →
    fi.uniq ≠ (c.file x).uniq → ∀ fd fi', w.openFile = .ok fd → w.fdInfo = some fi' →
      fi'.isDir = false → fi'.uniq ≠ (c.file x).uniq

section Open
variable (fuel : ℕ) (c : Cache) (T : RedBlackTree.Tree ℕ) (x hash : ℕ) (name held loose : List ℕ)
  (of : OpenFileInfo) (w : World)

theorem handles_inv (l : Handles) (hand extra : List ℕ) (h : Inv c T hand held loose)
    (loose' : List ℕ)
    (hl : Balanced l (extra++(fds c (hand.foldl List.erase c.allocated)++loose'))) :
    Inv { c with ledger := l } T hand held (extra++loose') := by
  refine ⟨h.kept,h.queue,h.current,h.bound,h.allocated,h.sub,h.known,h.taken,h.cached,
    h.detached,balanced_perm _ _ _ hl ?_⟩
  rw [← List.append_assoc, ← List.append_assoc]
  exact List.perm_append_comm.append_right loose'

theorem opened_handles (hand : List ℕ) (h : Inv c T hand held (of.fd.toList++loose)) :
    Balanced c.ledger (of.fd.toList++(fds c (hand.foldl List.erase c.allocated)++loose)) := by
  refine balanced_perm _ _ _ h.balanced ?_
  rw [← List.append_assoc, ← List.append_assoc]
  exact List.perm_append_comm.append_right loose

structure News (w : World) (of : OpenFileInfo) (rest : List ℕ) (ok : Bool) (of' : OpenFileInfo)
    (l : Handles) : Prop where
  balanced : Balanced l (of'.fd.toList++(of.fd.toList++rest))
  failed : ok = false → of'.fd = none
  usable : ok = true ∨ of'.err ≠ 0 → Usable of'
  changed : of.fd ≠ none → of'.fd ≠ none → ∃ fi fd, w.stat = .ok fi ∧ fi.uniq ≠ of.info.uniq ∧
    w.openFile = .ok fd ∧ w.fdInfo = some of'.info ∧ of'.info.isDir = false

theorem opened_news (rest : List ℕ) (ok : Bool) (of' : OpenFileInfo) (l : Handles)
    (h : Opened w of rest (ok, of', l)) (herr : of.err = 0) : News w of rest ok of' l ∨
      ok = true ∧ of'.err = 0 ∧ of.fd ≠ none ∧ of'.fd = of.fd ∧ w.stat = .ok of'.info ∧
        of'.info.uniq = of.info.uniq ∧ Balanced l (of'.fd.toList++rest) := by
  cases h with
  | same fd of' l hfd hfd' herr' hstat huniq hl =>
    right
    refine ⟨rfl,herr'.trans herr,?_,hfd'.trans hfd.symm,hstat,huniq,?_⟩
    · rw [hfd]
      exact nofun
    · rw [hfd']
      exact hl
  | file fd of' l hfd herr' hdir hopen hinfo hstat hl =>
    left
    refine ⟨?_,nofun,fun _ => ⟨fun _ _ => ?_,fun hother => ?_⟩,fun hold _ => ?_⟩
    · rw [hfd]
      exact hl
    · rw [hfd]
      exact nofun
    · rcases hother with he | hd
      · exact absurd (herr'.trans herr) he
      · exact absurd (hd.symm.trans hdir) (by decide)
    · obtain ⟨fi,hfi,huniq⟩ := hstat hold
      exact ⟨fi,fd,hfi,huniq,hopen,hinfo,hdir⟩
  | dir of' l hfd herr' hdir hl =>
    left
    refine ⟨?_,nofun,fun _ => ⟨fun _ hd => ?_,fun _ => hfd⟩,fun _ hn => absurd hfd hn⟩
    · rw [hfd]
      exact hl
    · exact absurd (hd.symm.trans hdir) (by decide)
  | error of' l hfd hl =>
    left
    refine ⟨?_,fun _ => hfd,fun hk => ⟨fun he => ?_,fun _ => hfd⟩,fun _ hn => absurd hfd hn⟩
    · rw [hfd]
      exact hl
    · exact absurd he (hk.resolve_left Bool.false_ne_true)

theorem open_closed_inv (o : Outcome) (hcached : Cached (c.file x) (held.count x))
    (h : Inv c T [x] held loose) (hfile : (c.file x).fd = none) (hfd : of.fd = none)
    (herr : of.err = 0) (hw : Valid c w)
    (hrun : (let (ok, of, ledger) := ngxOpenAndStatFile w c.ledger of
      let c := { c with ledger := ledger }
      if ok = false ∧ (of.err = 0 ∨ of.errors = false) then failed fuel c (some x) of
      else some (OpenFileCache.update c x of w.now)) = some o) : Leaves held loose o := by
  have hn : held.count x = 0 := hcached.closed hfile
  have hbal : Balanced c.ledger (of.fd.toList++(fds c ([x].foldl List.erase c.allocated)++loose)) := by
    rw [hfd]
    exact h.balanced
  have hopened := open_and_stat_spec w c.ledger of _ hbal hw.openFile
  generalize ngxOpenAndStatFile w c.ledger of = res at hrun hopened
  obtain ⟨ok,of',l⟩ := res
  rcases opened_news of w _ ok of' l hopened herr with hnews | ⟨-,-,hsome,-⟩
  · have hl := hnews.balanced
    rw [hfd] at hl
    have hinv := handles_inv c T held loose l [x] of'.fd.toList h loose hl
    simp only at hrun
    split_ifs at hrun with hfail
    · have hnone := hnews.failed hfail.1
      rw [hnone] at hinv
      refine failed_some_inv fuel _ T x held loose of' o ?_ (fun hpos => ?_) hnone hrun
      · show Inv _ T [x] held ((c.file x).fd.toList++loose)
        rw [hfile]
        exact hinv
      · omega
    · have hok : ok = true ∨ of'.err ≠ 0 := by
        by_contra hno
        obtain ⟨hok,he⟩ := not_or.mp hno
        exact hfail ⟨by simpa using hok,Or.inl (not_not.mp he)⟩
      rw [← Option.some.inj hrun]
      exact ⟨T,update_inv _ T x held loose of' w.now hinv (hnews.usable hok)
        (fun _ _ => by rw [hn]; decide) (fun _ => hn)⟩
  · exact absurd hfd hsome

theorem retest_inv (o : Outcome) (hcached : Cached (c.file x) (held.count x))
    (h : Inv c T [x] held ((c.file x).fd.toList++loose)) (hfd : of.fd = (c.file x).fd)
    (huniq : of.info.uniq = (c.file x).uniq) (herr : of.err = 0)
    (hkind : (c.file x).err = 0 → (c.file x).isDir = false → (c.file x).fd ≠ none)
    (asked : OpenFileInfo) (hs : Steady c x asked w (held.count x))
    (hold : fresh (c.file x) asked w.now = false) (hw : Valid c w)
    (hrun : (let (ok, of, ledger) := ngxOpenAndStatFile w c.ledger of
      let c := { c with ledger := ledger }
      if ok = false ∧ (of.err = 0 ∨ of.errors = false) then failed fuel c (some x) of
      else retested fuel c x hash name of w) = some o) : Leaves held loose o := by
  have hbal := opened_handles c T held loose of [x] (hfd ▸ h)
  have hopened := open_and_stat_spec w c.ledger of _ hbal hw.openFile
  generalize ngxOpenAndStatFile w c.ledger of = res at hrun hopened
  obtain ⟨ok,of',l⟩ := res
  rcases opened_news of w _ ok of' l hopened herr with
    hnews | ⟨hok,herr',hsome,hfd',hstat,huniq',hl⟩
  · have hl := hnews.balanced
    rw [hfd] at hl
    have hinv : Inv { c with ledger := l } T [x] held
        (of'.fd.toList++((c.file x).fd.toList++loose)) := by
      refine handles_inv c T held _ l [x] of'.fd.toList h _ (balanced_perm _ _ _ hl ?_)
      refine List.Perm.append_left _ ?_
      rw [← List.append_assoc, ← List.append_assoc]
      exact List.perm_append_comm.append_right loose
    simp only at hrun
    split_ifs at hrun with hfail
    · have hnone := hnews.failed hfail.1
      rw [hnone] at hinv
      refine failed_some_inv fuel _ T x held loose of' o hinv (fun hpos => ?_) hnone hrun
      obtain ⟨he,hd⟩ := cached_plain _ _ hcached (Or.inl hpos)
      exact ⟨hkind he hd,he,hd⟩
    · have hok : ok = true ∨ of'.err ≠ 0 := by
        by_contra hno
        obtain ⟨hok,he⟩ := not_or.mp hno
        exact hfail ⟨by simpa using hok,Or.inl (not_not.mp he)⟩
      have husable := hnews.usable hok
      refine retested_inv fuel { c with ledger := l } T x hash name held loose of' w o hcached hinv
        husable (fun he hd hfe hfdir => ?_) hw.alloc hrun
      have hopen := hkind hfe hfdir
      obtain ⟨fi,fd,hfi,hne,hfile,hinfo,hdir⟩ :=
        hnews.changed (by rw [hfd]; exact hopen) (husable.file he hd)
      rw [huniq] at hne
      exact hs.changed hold hopen fi hfi hne fd of'.info hfile hinfo hdir
  have hopen : (c.file x).fd ≠ none := hfd ▸ hsome
  obtain ⟨he,hd⟩ := cached_plain _ _ hcached (Or.inr hopen)
  have hdir : of'.info.isDir = false :=
    hs.same hold hopen of'.info hstat (huniq'.trans huniq)
  have hinv := handles_inv c T held _ l [x] of'.fd.toList h loose hl
  have hupdate : o = OpenFileCache.update { c with ledger := l } x
      { of' with isDirectio := (c.file x).isDirectio } w.now := by
    simp only [hok, Bool.true_eq_false, false_and, if_false] at hrun
    rw [retested, if_neg (by simp [hdir]), if_neg (by simp [he, hd]),
      if_pos ⟨hdir,herr',huniq'.trans huniq⟩] at hrun
    exact (Option.some.inj hrun).symm
  rw [hupdate]
  refine ⟨T,update_inv _ T x held loose _ w.now hinv ⟨fun _ _ => ?_,fun hother => ?_⟩
    (fun _ _ => hs.room) (fun hother => ?_)⟩
  · show of'.fd ≠ none
    rw [hfd']
    exact hsome
  · exact absurd hother (not_or.mpr ⟨not_not.mpr herr',by simp [hdir]⟩)
  · exact absurd hother (not_or.mpr ⟨not_not.mpr herr',by simp [hdir]⟩)

theorem open_taken_inv (o : Outcome) (hcached : Cached (c.file x) (held.count x))
    (h : Inv c T [x] held ((c.file x).fd.toList++loose)) (hfd : of.fd = none) (herr : of.err = 0)
    (hs : Steady c x of w (held.count x)) (hw : Valid c w)
    (hrun : openTaken fuel c x hash name of w = some o) : Leaves held loose o := by
  rw [openTaken] at hrun
  simp only at hrun
  by_cases hnone : (c.file x).fd = none ∧ (c.file x).err = 0 ∧ (c.file x).isDir = false
  · rw [if_pos hnone] at hrun
    rw [hnone.1] at h
    exact open_closed_inv fuel c T x held loose of w o hcached h hnone.1 hfd herr hw hrun
  rw [if_neg hnone] at hrun
  by_cases hstill : fresh (c.file x) of w.now = true
  · rw [if_pos hstill] at hrun
    by_cases hgood : (c.file x).err = 0
    · rw [if_pos hgood] at hrun
      rw [← Option.some.inj hrun]
      by_cases hdir : (c.file x).isDir = true
      · rw [if_pos hdir]
        have hput := found_inv c T x held loose { of with
          fd := (c.file x).fd, isDirectio := (c.file x).isDirectio,
          info := { of.info with uniq := (c.file x).uniq, mtime := (c.file x).mtime,
                                 size := (c.file x).size, isDir := (c.file x).isDir,
                                 isFile := (c.file x).isFile, isLink := (c.file x).isLink,
                                 isExec := (c.file x).isExec } }
          w.now (c.file x) h rfl
          (by simpa only [found, herr, hdir, if_true, Option.toList_none, List.nil_append] using hcached)
        rw [set_file_same] at hput
        exact ⟨T,hput⟩
      rw [if_neg hdir]
      have hfile : (c.file x).isDir = false := Bool.eq_false_iff.mpr hdir
      refine ⟨T,found_inv c T x held loose _ w.now
        { c.file x with count := ((c.file x).count+1) % 2^24 } h rfl ?_⟩
      simp only [found, herr, hfile, Bool.false_eq_true, if_true, if_false]
      have hcons : ((some x).toList++held).count x = held.count x+1 := List.count_cons_self
      rw [hcons]
      refine ⟨?_,hs.room,fun hother => ?_,hcached.close,fun hfd => ?_⟩
      · show ((c.file x).count+1) % 2^24 = _
        rw [hcached.count, Nat.mod_eq_of_lt hs.room]
      · exact absurd hother (by simp [hgood])
      · exact absurd ⟨hfd,hgood,hfile⟩ hnone
    rw [if_neg hgood] at hrun
    rw [← Option.some.inj hrun]
    have hput := found_inv c T x held loose
      { of with err := (c.file x).err, failed := some .openFile } w.now (c.file x) h rfl
      (by simpa only [found, hgood, if_false, Option.toList_none, List.nil_append] using hcached)
    rw [set_file_same] at hput
    exact ⟨T,hput⟩
  rw [if_neg hstill] at hrun
  exact retest_inv fuel c T x hash name held loose { of with
    testDir := of.testDir || (c.file x).isDir, fd := (c.file x).fd,
    info := { of.info with uniq := (c.file x).uniq } } w o hcached h rfl rfl herr
    (fun he hd hn => hnone ⟨hn,he,hd⟩) of hs (Bool.eq_false_iff.mpr hstill) hw hrun

theorem open_found_inv (o : Outcome) (h : Inv c T [] held loose) (hx : x ∈ c.expireQueue)
    (hfd : of.fd = none) (herr : of.err = 0) (hs : Steady c x of w (held.count x)) (hw : Valid c w)
    (hrun : openFound fuel c x hash name of w = some o) : Leaves held loose o := by
  have hold := h.cached x hx
  obtain ⟨f,hf⟩ : ∃ f, f = { c.file x with uses := ((c.file x).uses+1) % 2^32 } := ⟨_,rfl⟩
  obtain ⟨c1,hc1⟩ : ∃ c1, c1 = { c.setFile x f with expireQueue := c.expireQueue.erase x } :=
    ⟨_,rfl⟩
  have hfile : c1.file x = f := by
    rw [hc1]
    exact set_file_self c x f
  have htake := take_inv c T x f held loose h hx (by rw [hf]) (by rw [hf])
  have hfd' : (c.file x).fd = f.fd := by rw [hf]
  rw [← hc1, hfd'] at htake
  rw [openFound] at hrun
  simp only [← hf] at hrun
  have hrun' : openTaken fuel c1 x hash name of w = some o := by
    rw [hc1]
    exact hrun
  refine open_taken_inv fuel c1 T x hash name held loose of w o ?_ ?_ hfd herr ?_ ?_ hrun'
  · rw [hfile, hf]
    exact ⟨hold.count,hold.bound,hold.other,hold.close,hold.closed⟩
  · rw [hfile]
    exact htake
  · refine ⟨hs.room,?_,?_⟩
    · rw [hfile, hf]
      exact hs.same
    · rw [hfile, hf]
      exact hs.changed
  · rw [hc1]
    exact ⟨hw.openFile,hw.alloc⟩

theorem lookup_queue (h : Inv c T [] held loose)
    (hrun : ngxOpenFileLookup fuel c hash name = some (some x)) : x ∈ c.expireQueue := by
  obtain ⟨⟨above,hat⟩,-,hsorted⟩ := h.kept
  have hroot : c.rbtree.root = ptr c.rbtree.sentinel T := hat.path_at
  obtain ⟨r,hsearch,hsome,-⟩ := search_tree c.rbtree (fileKey c) (nodeKey hash (cString name))
    (lookupOrder c hash name) (T.ids.length+1) _ T hat.tree_at hsorted
    (fun y => lookup_order_key c hash name y) (Nat.lt_succ_self _)
  rw [← hroot] at hsearch
  have hagree := runs_agree (fun n => search c.rbtree (lookupOrder c hash name) n c.rbtree.root)
    (fun n u hu => search_more _ _ n _ u hu) _ _ _ _ hsearch hrun
  exact h.queue.mem_iff.mpr (hsome x hagree).1

theorem open_cached_inv (crc : List ℕ → ℕ) (o : Outcome) (h : Inv c T [] held loose)
    (hw : Valid c w) (hs : ∀ x, ngxOpenFileLookup fuel c (crc name) name = some (some x) →
      Steady c x of w (held.count x))
    (hrun : ngxOpenCachedFile crc fuel c name of w = some o) : Leaves held loose o := by
  rw [ngxOpenCachedFile] at hrun
  simp only at hrun
  by_cases hadd : w.cleanupAdd = true
  · rw [if_pos hadd] at hrun
    obtain ⟨file,hlookup,hrest⟩ := Option.bind_eq_some_iff.mp hrun
    cases file with
    | some x =>
      have hsteady := hs x hlookup
      exact open_found_inv fuel c T x (crc name) name held loose { of with fd := none, err := 0 } w o
        h (lookup_queue fuel c T x (crc name) name held loose h hlookup) rfl rfl
        ⟨hsteady.room,hsteady.same,hsteady.changed⟩ hw hrest
    | none =>
      have hopened := open_and_stat_spec w c.ledger { of with fd := none, err := 0 }
        (fds c c.allocated++loose) h.balanced hw.openFile
      simp only at hrest
      generalize ngxOpenAndStatFile w c.ledger { of with fd := none, err := 0 } = res at hrest hopened
      obtain ⟨ok,of',l⟩ := res
      rcases opened_news _ w _ ok of' l hopened rfl with hnews | ⟨-,-,hsome,-⟩
      · have hinv := handles_inv c T held loose l [] of'.fd.toList h loose hnews.balanced
        simp only at hrest
        split_ifs at hrest with hfail
        · exact failed_none_inv fuel _ T held loose of' o hinv hrest
        · have hok : ok = true ∨ of'.err ≠ 0 := by
            by_contra hno
            obtain ⟨hok,he⟩ := not_or.mp hno
            exact hfail ⟨by simpa using hok,Or.inl (not_not.mp he)⟩
          exact create_inv fuel _ T (crc name) name held loose of' w o hinv (hnews.usable hok)
            hw.alloc hrest
      · exact absurd rfl hsome
  rw [if_neg hadd] at hrun
  rw [← Option.some.inj hrun]
  exact ⟨T,h⟩

end Open

end Nginx.OpenFileCacheCalls
