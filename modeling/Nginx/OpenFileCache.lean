import Nginx.RbtreeSearch
import Nginx.Ledger

/-!
# The cache of open files

Entries live in a memory indexed by their addresses, and stand in a tree by the hash and
the name and in a queue from the most to the least recently used one. A descriptor is
a number that the system has not given before, and what the system calls, the
allocator and the clock answer are parameters of a call. Vnode events are not used.
-/

set_option autoImplicit false

namespace Nginx.OpenFileCache
open Nginx.NgxRbtree Nginx.RbtreeSearch Nginx.Ledger

structure FileInfo where
  uniq : ℕ
  mtime : ℤ
  size : ℤ
  fsSize : ℤ
  isDir : Bool
  isFile : Bool
  isLink : Bool
  isExec : Bool

inductive Failed where
  | fileInfo
  | openFile
  deriving DecidableEq, Repr

/-- `ngx_open_file_info_t`, with no descriptor for `NGX_INVALID_FILE`. -/
structure OpenFileInfo where
  fd : Option ℕ
  info : FileInfo
  directio : ℤ
  err : ℕ
  failed : Option Failed
  valid : ℤ
  minUses : ℕ
  testDir : Bool
  testOnly : Bool
  errors : Bool
  isDirectio : Bool

structure CachedOpenFile where
  name : List ℕ
  created : ℤ
  accessed : ℤ
  fd : Option ℕ
  uniq : ℕ
  mtime : ℤ
  size : ℤ
  err : ℕ
  uses : ℕ
  count : ℕ
  close : Bool
  isDir : Bool
  isFile : Bool
  isLink : Bool
  isExec : Bool
  isDirectio : Bool

/-- `allocated` and `ledger` are not in the source: the entries that are not freed, and the
descriptors that have been opened and closed. -/
structure Cache where
  rbtree : Rbtree
  file : ℕ → CachedOpenFile
  expireQueue : List ℕ
  current : ℕ
  max : ℕ
  inactive : ℤ
  allocated : List ℕ
  ledger : Handles

/-- The answers of the world around a call. An entry from `alloc` holds anything. -/
structure World where
  now : ℤ
  stat : Except ℕ FileInfo
  openFile : Except ℕ ℕ
  fdInfo : Option FileInfo
  directioOn : Bool
  cleanupAdd : Bool
  alloc : Cache → Option (ℕ × CachedOpenFile)
  allocName : Bool

def Cache.setFile (c : Cache) (x : ℕ) (file : CachedOpenFile) : Cache :=
  { c with file := Function.update c.file x file }

def Cache.closeFile (c : Cache) (fd : ℕ) : Cache := { c with ledger := c.ledger.close fd }

def Cache.free (c : Cache) (x : ℕ) : Cache := { c with allocated := c.allocated.erase x }

/-- `ngx_strcmp` of strings that end at the first NUL. -/
@[grind =] def ngxStrcmp : List ℕ → List ℕ → Ordering
  | [], [] => .eq
  | [], b::_ => if b = 0 then .eq else .lt
  | a::_, [] => if a = 0 then .eq else .gt
  | a::s1, b::s2 =>
    if a < b then .lt else if b < a then .gt else if a = 0 then .eq else ngxStrcmp s1 s2

def ngxOpenFileCacheRbtreeInsertValue (c : Cache) (t : Rbtree) (node temp : ℕ) : Bool :=
  if t.key node < t.key temp then true
  else if t.key temp < t.key node then false
  else ngxStrcmp (c.file node).name (c.file temp).name = .lt

def lookupOrder (c : Cache) (hash : ℕ) (name : List ℕ) (node : ℕ) : Ordering :=
  if hash < c.rbtree.key node then .lt
  else if c.rbtree.key node < hash then .gt
  else ngxStrcmp name (c.file node).name

def ngxOpenFileLookup (fuel : ℕ) (c : Cache) (hash : ℕ) (name : List ℕ) : Option (Option ℕ) :=
  search c.rbtree (lookupOrder c hash name) fuel c.rbtree.root

def failedInfo (of : OpenFileInfo) (err : ℕ) (failed : Failed) : OpenFileInfo :=
  { of with fd := none, err := err, failed := some failed }

/-- `ngx_open_and_stat_file` from the call of `ngx_open_file` on. -/
def openAndInfo (w : World) (l : Handles) (of : OpenFileInfo) : Bool × OpenFileInfo × Handles :=
  match w.openFile with
  | .error err => (false, failedInfo of err .openFile, l)
  | .ok fd =>
    let l := l.open fd
    match w.fdInfo with
    | none => (false, { of with fd := none }, l.close fd)
    | some fi =>
      if fi.isDir then (true, { of with fd := none, info := fi }, l.close fd)
      else
        (true, { of with fd := some fd, info := fi,
                         isDirectio := (of.directio ≤ fi.size ∧ w.directioOn) || of.isDirectio }, l)

def ngxOpenAndStatFile (w : World) (l : Handles) (of : OpenFileInfo) :
    Bool × OpenFileInfo × Handles :=
  if of.fd ≠ none then
    match w.stat with
    | .error err => (false, failedInfo of err .fileInfo, l)
    | .ok fi =>
      if of.info.uniq = fi.uniq then (true, { of with info := fi }, l) else openAndInfo w l of
  else if of.testDir then
    match w.stat with
    | .error err => (false, failedInfo of err .fileInfo, l)
    | .ok fi => if fi.isDir then (true, { of with info := fi }, l) else openAndInfo w l of
  else openAndInfo w l of

/-- `ngx_close_cached_file` behind the part for an entry that stays in the cache. -/
def closeUnused (c : Cache) (x : ℕ) : Cache :=
  if (c.file x).count ≠ 0 then c
  else
    let c :=
      match (c.file x).fd with
      | some fd => (c.closeFile fd).setFile x { c.file x with fd := none }
      | none => c
    if (c.file x).close then c.free x else c

def ngxCloseCachedFile (c : Cache) (x minUses : ℕ) (now : ℤ) : Cache :=
  if (c.file x).close then closeUnused c x
  else
    let c := c.setFile x { c.file x with accessed := now }
    let c := { c with expireQueue := x::c.expireQueue.erase x }
    if (c.file x).uses ≥ minUses ∨ (c.file x).count ≠ 0 then c else closeUnused c x

def expireFile (fuel : ℕ) (c : Cache) (x : ℕ) (now : ℤ) : Option Cache :=
  (ngxRbtreeDelete fuel c.rbtree x).map (fun t =>
    let c := { c with expireQueue := c.expireQueue.erase x, rbtree := t, current := c.current-1 }
    if (c.file x).err = 0 ∧ (c.file x).isDir = false then
      ngxCloseCachedFile (c.setFile x { c.file x with close := true }) x 0 now
    else c.free x)

@[grind =] def expireLoop (fuel : ℕ) (now : ℤ) : ℕ → Cache → Option Cache
  | 0, c => some c
  | k+1, c =>
    match c.expireQueue.getLast? with
    | none => some c
    | some x =>
      if k ≠ 2 ∧ now-(c.file x).accessed ≤ c.inactive then some c
      else (expireFile fuel c x now).bind (expireLoop fuel now k)

def ngxExpireOldCachedFiles (fuel : ℕ) (c : Cache) (n : ℕ) (now : ℤ) : Option Cache :=
  expireLoop fuel now (3-n) c

/-- `file` is the entry for which a cleanup is to be called. -/
structure Outcome where
  ok : Bool
  of : OpenFileInfo
  cache : Cache
  file : Option ℕ

/-- `ngx_open_cached_file` from the label `found` on. -/
def found (c : Cache) (x : ℕ) (of : OpenFileInfo) (now : ℤ) : Outcome :=
  let c := c.setFile x { c.file x with accessed := now }
  let c := { c with expireQueue := x::c.expireQueue }
  if of.err = 0 then ⟨true,of,c,if of.info.isDir then none else some x⟩
  else ⟨false,of,c,none⟩

def update (c : Cache) (x : ℕ) (of : OpenFileInfo) (now : ℤ) : Outcome :=
  let file := { c.file x with fd := of.fd, err := of.err }
  let file :=
    if of.err = 0 then
      { file with uniq := of.info.uniq, mtime := of.info.mtime, size := of.info.size,
                  close := false, isDir := of.info.isDir, isFile := of.info.isFile,
                  isLink := of.info.isLink, isExec := of.info.isExec, isDirectio := of.isDirectio,
                  count := if of.info.isDir then file.count else (file.count+1) % 2^24 }
    else file
  found (c.setFile x { file with created := now }) x of now

def closeInfo (c : Cache) (of : OpenFileInfo) : Cache :=
  match of.fd with
  | some fd => c.closeFile fd
  | none => c

def failedFile (fuel : ℕ) (c : Cache) (x : ℕ) : Option Cache :=
  (ngxRbtreeDelete fuel c.rbtree x).map (fun t =>
    let c := { c with rbtree := t, current := c.current-1 }
    if (c.file x).count = 0 then
      match (c.file x).fd with
      | some fd => (c.closeFile fd).free x
      | none => c.free x
    else c.setFile x { c.file x with close := true })

def failed (fuel : ℕ) (c : Cache) (file : Option ℕ) (of : OpenFileInfo) : Option Outcome :=
  (match file with
    | some x => failedFile fuel c x
    | none => some c).map (fun c => ⟨false,of,closeInfo c of,none⟩)

def create (fuel : ℕ) (c : Cache) (hash : ℕ) (name : List ℕ) (of : OpenFileInfo) (w : World) :
    Option Outcome :=
  (if c.current ≥ c.max then ngxExpireOldCachedFiles fuel c 0 w.now else some c).bind (fun c =>
    match w.alloc c with
    | none => failed fuel c none of
    | some (x, garbage) =>
      if w.allocName then
        let c := { c with allocated := x::c.allocated, rbtree := c.rbtree.setKey x hash }
        let c := c.setFile x { garbage with name := name }
        (ngxRbtreeInsert (ngxOpenFileCacheRbtreeInsertValue c) fuel c.rbtree x).map (fun t =>
          let c := { c with rbtree := t, current := c.current+1 }
          update (c.setFile x { c.file x with uses := 1, count := 0 }) x of w.now)
      else failed fuel c none of)

/-- The rest of a retest of the entry `x`, with the answer of `ngx_open_and_stat_file`. -/
def retested (fuel : ℕ) (c : Cache) (x hash : ℕ) (name : List ℕ) (of : OpenFileInfo) (w : World) :
    Option Outcome :=
  let file := c.file x
  if of.info.isDir ∧ (file.isDir ∨ file.err ≠ 0) then some (update c x of w.now)
  else if of.info.isDir = false ∧ of.err = 0 ∧ (file.isDir ∨ file.err ≠ 0) then
    some (update c x of w.now)
  else if of.info.isDir = false ∧ of.err = 0 ∧ of.info.uniq = file.uniq then
    let of := { of with isDirectio := file.isDirectio }
    some (update c x of w.now)
  else if of.info.isDir = false ∧ of.err ≠ 0 ∧ (file.err ≠ 0 ∨ file.isDir) then
    some (update c x of w.now)
  else if file.count = 0 then
    let c :=
      match file.fd with
      | some fd => c.closeFile fd
      | none => c
    some (update c x of w.now)
  else
    (ngxRbtreeDelete fuel c.rbtree x).bind (fun t =>
      let c := { c with rbtree := t, current := c.current-1 }
      create fuel (c.setFile x { c.file x with close := true }) hash name of w)

def fresh (file : CachedOpenFile) (of : OpenFileInfo) (now : ℤ) : Bool :=
  (of.info.uniq = 0 ∨ of.info.uniq = file.uniq) ∧ now-file.created < of.valid

/-- The part of `ngx_open_cached_file` for an entry that is out of the queue. -/
def openTaken (fuel : ℕ) (c : Cache) (x hash : ℕ) (name : List ℕ) (of : OpenFileInfo) (w : World) :
    Option Outcome :=
  let file := c.file x
  if file.fd = none ∧ file.err = 0 ∧ file.isDir = false then
    let (ok, of, ledger) := ngxOpenAndStatFile w c.ledger of
    let c := { c with ledger := ledger }
    if ok = false ∧ (of.err = 0 ∨ of.errors = false) then failed fuel c (some x) of
    else some (update c x of w.now)
  else if fresh file of w.now then
    if file.err = 0 then
      let of := { of with fd := file.fd, isDirectio := file.isDirectio,
                          info := { of.info with uniq := file.uniq, mtime := file.mtime,
                                                 size := file.size, isDir := file.isDir,
                                                 isFile := file.isFile, isLink := file.isLink,
                                                 isExec := file.isExec } }
      let c :=
        if file.isDir then c else c.setFile x { file with count := (file.count+1) % 2^24 }
      some (found c x of w.now)
    else some (found c x { of with err := file.err, failed := some .openFile } w.now)
  else
    let of := { of with testDir := of.testDir || file.isDir, fd := file.fd,
                        info := { of.info with uniq := file.uniq } }
    let (ok, of, ledger) := ngxOpenAndStatFile w c.ledger of
    let c := { c with ledger := ledger }
    if ok = false ∧ (of.err = 0 ∨ of.errors = false) then failed fuel c (some x) of
    else retested fuel c x hash name of w

def openFound (fuel : ℕ) (c : Cache) (x hash : ℕ) (name : List ℕ) (of : OpenFileInfo) (w : World) :
    Option Outcome :=
  let c := c.setFile x { c.file x with uses := ((c.file x).uses+1) % 2^32 }
  openTaken fuel { c with expireQueue := c.expireQueue.erase x } x hash name of w

/-- `ngx_open_cached_file` with a cache. The hash of a name is a parameter. -/
def ngxOpenCachedFile (crc : List ℕ → ℕ) (fuel : ℕ) (c : Cache) (name : List ℕ) (of : OpenFileInfo)
    (w : World) : Option Outcome :=
  let of := { of with fd := none, err := 0 }
  if w.cleanupAdd then
    (ngxOpenFileLookup fuel c (crc name) name).bind (fun file =>
      match file with
      | some x => openFound fuel c x (crc name) name of w
      | none =>
        let (ok, of, ledger) := ngxOpenAndStatFile w c.ledger of
        let c := { c with ledger := ledger }
        if ok = false ∧ (of.err = 0 ∨ of.errors = false) then failed fuel c none of
        else create fuel c (crc name) name of w)
  else some ⟨false,of,c,none⟩

/-- `ngx_open_cached_file` without a cache, with the descriptor that a cleanup is to close. -/
def openUncached (l : Handles) (of : OpenFileInfo) (w : World) :
    Bool × OpenFileInfo × Handles × Option ℕ :=
  let of := { of with fd := none, err := 0 }
  if of.testOnly then
    match w.stat with
    | .error err => (false, { of with err := err, failed := some .fileInfo }, l, none)
    | .ok fi => (true, { of with info := fi }, l, none)
  else if w.cleanupAdd then
    let (ok, of, l) := ngxOpenAndStatFile w l of
    (ok, of, l, if ok ∧ of.info.isDir = false then of.fd else none)
  else (false, of, l, none)

def ngxOpenFileCleanup (fuel : ℕ) (c : Cache) (x minUses : ℕ) (now : ℤ) : Option Cache :=
  let c := c.setFile x { c.file x with count := ((c.file x).count+(2^24-1)) % 2^24 }
  ngxExpireOldCachedFiles fuel (ngxCloseCachedFile c x minUses now) 1 now

/-- The loop of `ngx_open_file_cache_cleanup` with so many entries in the queue. -/
@[grind =] def cleanupLoop (fuel : ℕ) (now : ℤ) : ℕ → Cache → Option Cache
  | 0, c => some c
  | k+1, c =>
    match c.expireQueue.getLast? with
    | none => some c
    | some x =>
      (ngxRbtreeDelete fuel c.rbtree x).bind (fun t =>
        let c := { c with expireQueue := c.expireQueue.erase x, rbtree := t,
                          current := c.current-1 }
        cleanupLoop fuel now k (
          if (c.file x).err = 0 ∧ (c.file x).isDir = false then
            ngxCloseCachedFile (c.setFile x { c.file x with close := true, count := 0 }) x 0 now
          else c.free x))

def ngxOpenFileCacheCleanup (fuel : ℕ) (c : Cache) (now : ℤ) : Option Cache :=
  cleanupLoop fuel now c.expireQueue.length c

def ngxOpenFileCacheInit (nodes : ℕ → Node) (sentinel : ℕ) (file : ℕ → CachedOpenFile) (max : ℕ)
    (inactive : ℤ) : Cache :=
  ⟨ngxRbtreeInit nodes sentinel,file,[],0,max,inactive,[],⟨[],fun _ => 0⟩⟩

end Nginx.OpenFileCache
