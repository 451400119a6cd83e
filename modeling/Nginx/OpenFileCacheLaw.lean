import Nginx.OpenFileCacheCalls
import Nginx.RbtreeLaw
import Nginx.Runs

/-!
# What holds in the cache of open files

Requests open files through the cache or without one, and their pools call the cleanups in
any order. The cache keeps its descriptors as long as a retest of an open file that sees the
number of the cached file sees that file, and the counters have room.
-/

set_option autoImplicit false

namespace Nginx.OpenFileCacheLaw
open Nginx.RedBlackTree Nginx.NgxRbtree Nginx.RbtreeShape Nginx.RbtreeKept Nginx.RbtreeLaw
open Nginx.RbtreeSearch Nginx.Ledger Nginx.OpenFileCache Nginx.OpenFileCacheKept
open Nginx.OpenFileCacheCalls

/-- The cleanups to come, of entries with their `min_uses` and of plain descriptors. -/
structure State where
  cache : Cache
  pending : List (ℕ × ℕ)
  plain : List ℕ

inductive Call where
  | openCached (name : List ℕ) (of : OpenFileInfo) (w : World)
  | openUncached (of : OpenFileInfo) (w : World)
  | cleanup (p : ℕ × ℕ) (now : ℤ)
  | closePlain (fd : ℕ)
  | expire (n : ℕ) (now : ℤ)

def State.run (crc : List ℕ → ℕ) (fuel : ℕ) (s : State) : Call → Option State
  | .openCached name of w => (ngxOpenCachedFile crc fuel s.cache name of w).map (fun o =>
      { s with cache := o.cache, pending := o.file.toList.map (fun x => (x, of.minUses))++s.pending })
  | .openUncached of w =>
    let (_, _, l, fd) := openUncached s.cache.ledger of w
    some { s with cache := { s.cache with ledger := l }, plain := fd.toList++s.plain }
  | .cleanup p now => (ngxOpenFileCleanup fuel s.cache p.1 p.2 now).map (fun c =>
      { s with cache := c, pending := s.pending.erase p })
  | .closePlain fd => some { s with cache := s.cache.closeFile fd, plain := s.plain.erase fd }
  | .expire n now => (ngxExpireOldCachedFiles fuel s.cache n now).map (fun c => { s with cache := c })

def Possible (s : State) : Call → Prop
  | .openCached _ _ w => Valid s.cache w
  | .openUncached _ w => Valid s.cache w
  | .cleanup p _ => p ∈ s.pending
  | .closePlain fd => fd ∈ s.plain
  | .expire _ _ => True

def SteadyCall (crc : List ℕ → ℕ) (s : State) : Call → Prop
  | .openCached name of w => ∀ fuel x, ngxOpenFileLookup fuel s.cache (crc name) name = some (some x) →
      Steady s.cache x of w (s.cache.file x).count
  | _ => True

inductive Reached (crc : List ℕ → ℕ) (cond : State → Call → Prop) : State → Prop where
  | init (nodes : ℕ → Node) (sentinel : ℕ) (file : ℕ → CachedOpenFile) (max : ℕ) (inactive : ℤ) :
      Reached crc cond ⟨ngxOpenFileCacheInit nodes sentinel file max inactive,[],[]⟩
  | step (s s' : State) (call : Call) (fuel : ℕ) (h : Reached crc cond s) (hp : Possible s call)
      (hc : cond s call) (hrun : s.run crc fuel call = some s') : Reached crc cond s'

/-- A descriptor that an entry or the cleanup of a pool is to close. -/
def InUse (s : State) (fd : ℕ) : Prop :=
  fd ∈ s.plain ∨ ∃ x ∈ s.cache.allocated, (s.cache.file x).fd = some fd

/-- The cache with the entries `xs`. -/
structure Law (s : State) (xs : List ℕ) : Prop where
  tree : InOrder s.cache.rbtree s.cache.rbtree.root xs
  queue : xs.Perm s.cache.expireQueue
  current : s.cache.current = xs.length
  bound : s.cache.current ≤ max 1 s.cache.max
  live : ∀ x ∈ xs, x ∈ s.cache.allocated
  count : ∀ x ∈ s.cache.allocated, (s.cache.file x).count = (s.pending.map Prod.fst).count x
  other : ∀ x ∈ s.cache.allocated, (s.cache.file x).err ≠ 0 ∨ (s.cache.file x).isDir = true →
    (s.cache.file x).count = 0
  held : ∀ p ∈ s.pending, p.1 ∈ s.cache.allocated
  unclosed : ∀ fd ∈ s.cache.ledger.opened, InUse s fd → s.cache.ledger.closes fd = 0
  closed : ∀ fd ∈ s.cache.ledger.opened, ¬ InUse s fd → s.cache.ledger.closes fd = 1

/-- What the final cleanup leaves, when no request has a cleanup to come or in any case. -/
structure Closed (s : State) (c : Cache) : Prop where
  tree : c.rbtree.root = c.rbtree.sentinel
  queue : c.expireQueue = []
  current : c.current = 0
  once : ∀ fd, c.ledger.closes fd ≤ 1
  freed : s.pending = [] → c.allocated = []
  closed : s.pending = [] → ∀ fd ∈ c.ledger.opened, fd ∉ s.plain → c.ledger.closes fd = 1

theorem count_entries (pending : List (ℕ × ℕ)) (p : ℕ × ℕ) (hp : p ∈ pending) :
    (pending.map Prod.fst).Perm (p.1::(pending.erase p).map Prod.fst) :=
  (List.perm_cons_erase hp).map Prod.fst

variable (c : Cache) (T : RedBlackTree.Tree ℕ)

theorem inv_held (hand held held' loose : List ℕ) (h : Inv c T hand held loose)
    (hp : held.Perm held') : Inv c T hand held' loose := by
  refine ⟨h.kept,h.queue,h.current,h.bound,h.allocated,h.sub,
    fun x hx => h.known x (hp.mem_iff.mpr hx),fun x hx => ?_,fun x hx => ?_,fun x hx hn => ?_,
    h.balanced⟩
  · rw [← hp.count_eq x]
    exact h.taken x hx
  · rw [← hp.count_eq x]
    exact h.cached x hx
  · rw [← hp.count_eq x]
    exact h.detached x hx hn

theorem inv_loose (hand held loose loose' : List ℕ) (h : Inv c T hand held loose)
    (hp : loose.Perm loose') : Inv c T hand held loose' :=
  ⟨h.kept,h.queue,h.current,h.bound,h.allocated,h.sub,h.known,h.taken,h.cached,h.detached,
    balanced_perm _ _ _ h.balanced (hp.append_left _)⟩

variable (held loose : List ℕ)

theorem open_uncached_inv (of : OpenFileInfo) (w : World) (h : Inv c T [] held loose)
    (hw : Valid c w) :
    Inv { c with ledger := (openUncached c.ledger of w).2.2.1 } T [] held
      ((openUncached c.ledger of w).2.2.2.toList++loose) := by
  rw [openUncached]
  simp only
  by_cases htest : of.testOnly = true
  · rw [if_pos htest]
    cases w.stat <;> exact h
  rw [if_neg htest]
  by_cases hadd : w.cleanupAdd = true
  · rw [if_pos hadd]
    have hopened := open_and_stat_spec w c.ledger { of with fd := none, err := 0 }
      (fds c c.allocated++loose) h.balanced hw.openFile
    generalize ngxOpenAndStatFile w c.ledger { of with fd := none, err := 0 } = res at hopened
    obtain ⟨ok,of',l⟩ := res
    cases hopened with
    | same fd of' l hfd => cases hfd
    | file fd of' l hfd herr hdir _ _ _ hl =>
      simp only [hdir, hfd, and_self, if_true]
      exact handles_inv c T held loose l [] [fd] h loose hl
    | dir of' l hfd herr hdir hl =>
      simp only [hdir, hfd, ite_self]
      exact handles_inv c T held loose l [] [] h loose hl
    | error of' l hfd hl =>
      simp only [hfd, ite_self]
      exact handles_inv c T held loose l [] [] h loose hl
  · rw [if_neg hadd]
    exact h

theorem run_inv (crc : List ℕ → ℕ) (fuel : ℕ) (s s' : State) (T : RedBlackTree.Tree ℕ) (call : Call)
    (h : Inv s.cache T [] (s.pending.map Prod.fst) s.plain) (hp : Possible s call)
    (hc : SteadyCall crc s call) (hrun : s.run crc fuel call = some s') :
    ∃ T', Inv s'.cache T' [] (s'.pending.map Prod.fst) s'.plain := by
  cases call with
  | openCached name of w =>
    obtain ⟨o,hopen,rfl⟩ := Option.map_eq_some_iff.mp hrun
    obtain ⟨T',hinv⟩ := open_cached_inv fuel s.cache T name _ s.plain of w crc o h hp
      (fun x hx => by
        have hqueue := lookup_queue fuel s.cache T x (crc name) name _ s.plain h hx
        rw [← (h.cached x hqueue).count]
        exact hc fuel x hx) hopen
    refine ⟨T',?_⟩
    rw [List.map_append, List.map_map]
    have hid : o.file.toList.map (Prod.fst ∘ fun x => (x, of.minUses)) = o.file.toList :=
      List.map_id _
    rw [hid]
    exact hinv
  | openUncached of w =>
    rw [← Option.some.inj hrun]
    exact ⟨T,open_uncached_inv s.cache T _ s.plain of w h hp⟩
  | cleanup p now =>
    obtain ⟨c,hclean,rfl⟩ := Option.map_eq_some_iff.mp hrun
    exact cleanup_inv s.cache T p.1 _ s.plain fuel p.2 now c
      (inv_held _ _ _ _ _ _ h (count_entries s.pending p hp)) hclean
  | closePlain fd =>
    rw [← Option.some.inj hrun]
    exact ⟨T,close_fd_inv s.cache T [] _ _ (some fd)
      (inv_loose _ _ _ _ _ _ h (List.perm_cons_erase hp))⟩
  | expire n now =>
    obtain ⟨c,hexpire,rfl⟩ := Option.map_eq_some_iff.mp hrun
    exact (expire_loop_inv fuel _ s.cache c T _ s.plain now h hexpire).1

theorem reached_inv (crc : List ℕ → ℕ) (s : State) (h : Reached crc (SteadyCall crc) s) :
    ∃ T, Inv s.cache T [] (s.pending.map Prod.fst) s.plain := by
  induction h with
  | init nodes sentinel file max inactive =>
    refine ⟨.leaf,kept_init nodes sentinel _,List.Perm.nil,rfl,Nat.zero_le _,List.nodup_nil,nofun,
      nofun,nofun,nofun,nofun,List.nodup_nil,nofun,fun _ _ => rfl,nofun⟩
  | step s s' call fuel _ hp hc hrun ih =>
    obtain ⟨T,hT⟩ := ih
    exact run_inv crc fuel s s' T call hT hp hc hrun

theorem mem_fds (xs : List ℕ) (fd : ℕ) : fd ∈ fds c xs ↔ ∃ x ∈ xs, (c.file x).fd = some fd := by
  simp [fds, eq_comm]

variable (s : State)

theorem inv_law (T : RedBlackTree.Tree ℕ) (h : Inv s.cache T [] (s.pending.map Prod.fst) s.plain) :
    Law s T.ids := by
  obtain ⟨⟨above,hat⟩,hsound,-⟩ := h.kept
  have huse : ∀ fd, InUse s fd ↔ fd ∈ fds s.cache s.cache.allocated++s.plain := by
    intro fd
    rw [List.mem_append, mem_fds, InUse, or_comm]
  refine ⟨(holds_balanced _ above T hat hsound).inOrder,h.queue.symm,h.current,h.bound,h.sub,
    fun x hx => ?_,fun x hx hother => ?_,fun p hp => h.known _ (List.mem_map_of_mem hp),
    fun fd _ hin => h.balanced.unclosed fd (Or.inl ((huse fd).mp hin)),
    fun fd hfd hin => h.balanced.closed fd hfd (fun hm => hin ((huse fd).mpr hm))⟩
  · by_cases hT : x ∈ T.ids
    · exact (h.cached x (h.queue.mem_iff.mpr hT)).count
    · exact (h.detached x hx hT).count
  · by_cases hT : x ∈ T.ids
    · have hcached := h.cached x (h.queue.mem_iff.mpr hT)
      exact hcached.count.trans (hcached.other hother).2
    have hdet := h.detached x hx hT
    rcases hother with he | hd
    · exact absurd hdet.err he
    · exact absurd (hd.symm.trans hdet.isDir) (by decide)


theorem forget_inv (x : ℕ) (f : CachedOpenFile) (held loose : List ℕ) (h : Inv c T [x] held loose)
    (hname : f.name = (c.file x).name) (hcount : f.count = 0) :
    Inv (c.setFile x f) T [x] (held.filter (fun y => y ≠ x)) loose := by
  have hmem := hand_mem c T x held loose h
  have hx := hand_nodup c T x held loose h
  have hother : ∀ y, y ≠ x → (held.filter (fun y => y ≠ x)).count y = held.count y :=
    fun y hy => List.count_filter (by simpa using hy)
  refine ⟨kept_file c T x f h.kept hname,h.queue,h.current,h.bound,h.allocated,h.sub,
    fun y hy => h.known y (List.mem_of_mem_filter hy),fun y hy => ?_,fun y hy => ?_,
    fun y hy hn => ?_,?_⟩
  · have hzero : (held.filter (fun y => y ≠ x)).count x = 0 :=
      List.count_eq_zero.mpr (fun hm => by simpa using (List.mem_filter.mp hm).2)
    rw [List.mem_singleton.mp hy, set_file_self, hcount, hzero]
    exact ⟨rfl,by decide⟩
  · have hne : y ≠ x := fun he => hx (he ▸ hy)
    rw [set_file_of_ne c x y f hne, hother y hne]
    exact h.cached y hy
  · have hne : y ≠ x := fun he => hn (he ▸ hmem)
    rw [set_file_of_ne c x y f hne, hother y hne]
    exact h.detached y hy hn
  · show Ledger.Balanced c.ledger (fds (c.setFile x f) (c.allocated.erase x)++loose)
    rw [fds_erase c x f h.allocated]
    exact h.balanced

theorem final_file_inv (x fuel : ℕ) (held loose : List ℕ) (now : ℤ) (t : Rbtree)
    (h : Inv c T [] held loose) (hx : x ∈ c.expireQueue)
    (hdelete : ngxRbtreeDelete fuel c.rbtree x = some t) (c1 c' : Cache)
    (hc1 : c1 = { c with expireQueue := c.expireQueue.erase x, rbtree := t, current := c.current-1
      })
    (hc' : c' = if (c1.file x).err = 0 ∧ (c1.file x).isDir = false then ngxCloseCachedFile
      (c1.setFile x { c1.file x with close := true, count := 0 }) x 0 now else c1.free x) :
    (∃ T', Inv c' T' [] (held.filter (fun y => y ≠ x)) loose) ∧
      c'.expireQueue = c.expireQueue.erase x := by
  have hcached := h.cached x hx
  have htake := take_inv c T x (c.file x) held loose h hx rfl rfl
  rw [set_file_same] at htake
  have hfree : (held.filter (fun y => y ≠ x)).count x = 0 :=
    List.count_eq_zero.mpr (fun hm => by simpa using (List.mem_filter.mp hm).2)
  subst hc1
  simp only at hc'
  by_cases hopen : (c.file x).err = 0 ∧ (c.file x).isDir = false
  · rw [if_pos hopen, ngxCloseCachedFile, set_file_self, if_pos rfl,
      close_unused_freed _ x { c.file x with close := true, count := 0 } (set_file_self ..) rfl rfl]
      at hc'
    have hclose := close_fd_inv _ T [x] held loose (c.file x).fd htake
    have hforget := forget_inv _ T x { c.file x with close := true, count := 0 } held loose hclose
      (by cases (c.file x).fd <;> rfl) rfl
    obtain ⟨T',hinv⟩ := drop_inv _ T x { c.file x with close := true, count := 0, fd := none }
      _ loose fuel t hforget hfree (by cases (c.file x).fd <;> exact hdelete)
    subst hc'
    cases hfd : (c.file x).fd with
    | none =>
      rw [hfd] at hinv
      refine ⟨⟨T',?_⟩,rfl⟩
      simpa only [closeFd, Cache.free, Cache.setFile, Function.update_idem] using hinv
    | some d =>
      rw [hfd] at hinv
      refine ⟨⟨T',?_⟩,rfl⟩
      simpa only [closeFd, Cache.closeFile, Cache.free, Cache.setFile, Function.update_idem] using hinv
  rw [if_neg hopen] at hc'
  have hother : (c.file x).err ≠ 0 ∨ (c.file x).isDir = true := by
    rw [not_and_or] at hopen
    exact hopen.imp id (fun hd => by simpa using hd)
  obtain ⟨hfd,hn⟩ := hcached.other hother
  rw [hfd] at htake
  have hforget := forget_inv _ T x (c.file x) held loose htake rfl (hcached.count.trans hn)
  obtain ⟨T',hinv⟩ := drop_inv _ T x (c.file x) _ loose fuel t hforget hfree hdelete
  subst hc'
  refine ⟨⟨T',?_⟩,rfl⟩
  simpa only [Cache.free, Cache.setFile, Function.update_idem, Function.update_eq_self] using hinv

variable (fuel : ℕ)

theorem cleanup_loop_inv (k : ℕ) (c c' : Cache) (T : RedBlackTree.Tree ℕ) (held loose : List ℕ)
    (now : ℤ) (h : Inv c T [] held loose) (hk : c.expireQueue.length = k)
    (hrun : cleanupLoop fuel now k c = some c') :
    ∃ T' held', Inv c' T' [] held' loose ∧ held'.Sublist held ∧ c'.expireQueue = [] := by
  induction k generalizing c T held with
  | zero =>
    cases hrun
    exact ⟨T,held,h,List.Sublist.refl _,List.length_eq_zero_iff.mp hk⟩
  | succ k ih =>
    rw [cleanupLoop] at hrun
    cases hlast : c.expireQueue.getLast? with
    | none =>
      rw [List.getLast?_eq_none_iff.mp hlast] at hk
      cases hk
    | some x =>
      rw [hlast] at hrun
      have hx := List.mem_of_getLast? hlast
      obtain ⟨t,hdelete,hrest⟩ := Option.bind_eq_some_iff.mp hrun
      obtain ⟨⟨T1,h1⟩,hqueue⟩ := final_file_inv c T x fuel held loose now t h hx hdelete _ _ rfl rfl
      obtain ⟨T',held',hinv,hsub,hempty⟩ := ih _ T1 _ h1
        (by rw [hqueue, List.length_erase_of_mem hx, hk]; rfl) hrest
      exact ⟨T',held',hinv,hsub.trans List.filter_sublist,hempty⟩

theorem final_closed (s : State) (T : RedBlackTree.Tree ℕ) (now : ℤ) (c' : Cache)
    (h : Inv s.cache T [] (s.pending.map Prod.fst) s.plain)
    (hrun : ngxOpenFileCacheCleanup fuel s.cache now = some c') : Closed s c' := by
  obtain ⟨T',held',hinv,hsub,hempty⟩ := cleanup_loop_inv fuel _ s.cache c' T _ s.plain now h rfl hrun
  have hqueue := hinv.queue
  rw [hempty] at hqueue
  have hids : T'.ids = [] := List.perm_nil.mp hqueue.symm
  have hfreed : s.pending = [] → c'.allocated = [] := by
    intro hpending
    rw [hpending] at hsub
    have hheld : held' = [] := List.sublist_nil.mp hsub
    refine List.eq_nil_iff_forall_not_mem.mpr (fun x hx => ?_)
    have hpos := (hinv.detached x hx (hids ▸ List.not_mem_nil)).pos
    rw [hheld] at hpos
    exact absurd hpos (Nat.lt_irrefl 0)
  refine ⟨?_,hempty,?_,fun fd => ?_,hfreed,fun hpending fd hfd hplain => ?_⟩
  · obtain ⟨⟨above,hat⟩,-,-⟩ := hinv.kept
    cases T' with
    | leaf => exact hat.path_at
    | node red l x r => simp [RedBlackTree.Tree.ids] at hids
  · rw [hinv.current, hids]
    rfl
  · by_cases hfd : fd ∈ c'.ledger.opened
    · by_cases hin : fd ∈ fds c' c'.allocated++s.plain
      · rw [hinv.balanced.unclosed fd (Or.inl hin)]
        exact Nat.zero_le 1
      · rw [hinv.balanced.closed fd hfd hin]
    · rw [hinv.balanced.unclosed fd (Or.inr hfd)]
      exact Nat.zero_le 1
  · refine hinv.balanced.closed fd hfd ?_
    show fd ∉ fds c' c'.allocated++s.plain
    rw [hfreed hpending]
    exact hplain

/-- In every state that opened files and cleanups lead to, while a retest of an open file that
sees its number sees that file, the tree and the queue have the same files, the counters
are the numbers of the cleanups to come, and every descriptor that nobody is to close has
been closed once. The final cleanup closes what is left. -/
theorem open_file_cache_law (crc : List ℕ → ℕ) (s : State) (h : Reached crc (SteadyCall crc) s) :
    (∃ xs, Law s xs) ∧ ∀ fuel now c, ngxOpenFileCacheCleanup fuel s.cache now = some c → Closed s c := by
  obtain ⟨T,hT⟩ := reached_inv crc s h
  exact ⟨⟨T.ids,inv_law s T hT⟩,fun fuel now c hrun => final_closed fuel s T now c hT hrun⟩

section Replaced

def regular : FileInfo := ⟨1,0,5,5,false,true,false,false⟩

def directory : FileInfo := ⟨1,0,5,5,true,false,false,false⟩

def unused : CachedOpenFile := ⟨[],0,0,none,0,0,0,0,0,0,false,false,false,false,false,false⟩

def request : OpenFileInfo :=
  ⟨none,⟨0,0,0,0,false,false,false,false⟩,512,0,none,60,1,false,false,false,false⟩

inductive Turn where
  | openFile (now : ℤ) (file : Option FileInfo) (fd : ℕ)
  | cleanup

def answers (now : ℤ) (file : Option FileInfo) (fd : ℕ) : World :=
  ⟨now,file.elim (.error 2) .ok,.ok fd,file,true,true,
    fun c => if 2 ∉ c.allocated ∧ 2 ≠ c.rbtree.sentinel then some (2, unused) else none,true⟩

def Turn.call : Turn → Call
  | .openFile now file fd => .openCached [97] request (answers now file fd)
  | .cleanup => .cleanup (2, 1) 0

def possible (s : State) : Turn → Bool
  | .openFile _ _ fd => !s.cache.ledger.opened.contains fd
  | .cleanup => s.pending.any fun p => p.1 == 2 && p.2 == 1

/-- The path is that of a file, if there is one. -/
def steady (s : State) : Turn → Bool
  | .openFile _ file _ =>
    (ngxOpenFileLookup 9 s.cache (ngxCrc32Short [97]) [97]).any fun found => found.all fun x =>
      decide ((s.cache.file x).count+1 < 2^24) && file.all fun fi => fi.isDir == false
  | .cleanup => true

def emptyState : State :=
  ⟨ngxOpenFileCacheInit (fun _ => ⟨0,fun _ => 0,0,true⟩) 1 (fun _ => unused) 10 60,[],[]⟩

theorem turns_reached (cond : State → Call → Prop) (check : State → Turn → Bool)
    (hcheck : ∀ s t, check s t = true → cond s t.call) (ts : List Turn) (last : State → Bool)
    (h : (Runs.run (fun s (t : Turn) => s.run ngxCrc32Short 9 t.call)
      (fun s t => possible s t && check s t) emptyState ts).any last = true) :
    ∃ s, Reached ngxCrc32Short cond s ∧ last s = true := by
  refine Runs.run_reaches _ _ (Reached ngxCrc32Short cond) (fun s t s' hs ht hrun => ?_) ts
    emptyState (Reached.init _ _ _ _ _) last h
  obtain ⟨hp,hc⟩ := Bool.and_eq_true_iff.mp ht
  refine hs.step s s' t.call 9 ?_ (hcheck s t hc) hrun
  cases t with
  | cleanup =>
    obtain ⟨⟨x,u⟩,hmem,hp⟩ := List.any_eq_true.mp hp
    obtain ⟨rfl,rfl⟩ : x = 2 ∧ u = 1 := by simpa using hp
    exact hmem
  | openFile now file fd =>
    refine ⟨fun fd' hfd => ?_,fun c x garbage halloc => ?_⟩
    · cases hfd
      simpa [possible] using hp
    · simp only [answers] at halloc
      split_ifs at halloc with hfree
      cases halloc
      exact hfree

theorem steady_call (s : State) (t : Turn) (h : steady s t = true) :
    SteadyCall ngxCrc32Short s t.call := by
  cases t with
  | cleanup => trivial
  | openFile now file fd =>
    intro fuel x hx
    obtain ⟨found,hfound,h⟩ := (Option.any_eq_true _ _).mp h
    obtain rfl : found = some x := runs_agree (fun n => ngxOpenFileLookup n s.cache _ [97])
      (fun n u hu => search_more _ _ n _ u hu) 9 fuel _ _ hfound hx
    obtain ⟨hroom,hfile⟩ := Bool.and_eq_true_iff.mp h
    have hstat : ∀ fi, file.elim (.error 2) .ok = Except.ok fi → file = some fi := by
      intro fi hfi
      cases file with
      | none => cases hfi
      | some f =>
        cases hfi
        rfl
    refine ⟨of_decide_eq_true hroom,fun _ _ fi hfi _ => ?_,
      fun _ _ fi hfi hne fd' fi' _ hinfo _ => ?_⟩
    · rw [hstat fi hfi] at hfile
      exact beq_iff_eq.mp hfile
    · have hsame : some fi = some fi' := (hstat fi hfi).symm.trans hinfo
      rwa [← Option.some.inj hsame]

/-- The path is tested again twice: first the file is still there, then it is another one. -/
theorem open_file_cache_law_retested : ∃ s, ((s.cache.file 2).fd = some 11 ∧
    s.cache.ledger.opened = [11,10] ∧ s.cache.ledger.closes 10 = 1) ∧ ∃ xs, Law s xs := by
  obtain ⟨s,hs,hlast⟩ := turns_reached _ steady steady_call [.openFile 0 (some regular) 10,
    .cleanup, .openFile 100 (some regular) 11, .cleanup,
    .openFile 200 (some { regular with uniq := 2 }) 11]
    (fun s => decide ((s.cache.file 2).fd = some 11 ∧ s.cache.ledger.opened = [11,10] ∧
      s.cache.ledger.closes 10 = 1)) (by decide +kernel)
  exact ⟨s,of_decide_eq_true hlast,(open_file_cache_law ngxCrc32Short s hs).1⟩

/-- A directory that has the number of the open file it replaces keeps the closed descriptor in
its entry, and it is closed again with the entry. -/
theorem descriptor_closed_twice : ∃ s, Reached ngxCrc32Short (fun _ _ => True) s ∧
    10 ∈ s.cache.ledger.opened ∧ s.cache.ledger.closes 10 = 2 := by
  obtain ⟨s,hs,hlast⟩ := turns_reached (fun _ _ => True) (fun _ _ => true) (fun _ _ _ => trivial)
    [.openFile 0 (some regular) 10, .cleanup, .openFile 100 (some directory) 11,
      .openFile 200 none 11]
    (fun s => decide (10 ∈ s.cache.ledger.opened ∧ s.cache.ledger.closes 10 = 2))
    (by decide +kernel)
  exact ⟨s,hs,of_decide_eq_true hlast⟩

end Replaced

end Nginx.OpenFileCacheLaw
