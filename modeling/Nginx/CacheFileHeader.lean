import Nginx.LittleEndian
import Nginx.FileCacheNodes

/-!
# The header of a cache file

A response is stored behind a header that says how long it is valid and where its own header
and its body begin. The two places have 16 bits each, so that a body that begins behind the
first 64K of the file is not found again.
-/

set_option autoImplicit false

namespace Nginx.CacheFileHeader
open LittleEndian FileCacheNodes

/-- `r->cache`; `time_t` has 64 bits. -/
structure Cache where
  keys : List (List UInt8)
  crc32 : BitVec 32
  validSec : BitVec 64
  lastModified : BitVec 64
  date : BitVec 64
  validMsec : ℕ
  headerStart : ℕ
  bodyStart : ℕ
  uniq : ℕ
  fsSize : ℕ
  updating : Bool

/-- `sizeof(ngx_http_file_cache_header_t)`: three times of 8 bytes, a word of 4 bytes, three of
2 bytes, and 6 bytes of padding -/
def sizeofHeader : ℕ := 40

/-- "KEY: " on a new line -/
def ngxHttpFileCacheKey : List UInt8 := [10,75,69,89,58,32]

def ngxCrc32Update (table : BitVec 32 → BitVec 32) (crc : BitVec 32) (s : List UInt8) :
    BitVec 32 :=
  s.foldl (fun c b => table ((c ^^^ b.toBitVec.setWidth 32) &&& 0xff) ^^^ (c >>> 8)) crc

def ngxHttpFileCacheCreateKey (table : BitVec 32 → BitVec 32) (c : Cache) : Cache :=
  { c with
    crc32 := c.keys.foldl (ngxCrc32Update table) 0xffffffff ^^^ 0xffffffff
    headerStart := sizeofHeader+ngxHttpFileCacheKey.length+c.keys.flatten.length+1 }

/-- The check in `ngx_http_upstream_cache`, and the place up to which a file is read -/
def ngxHttpUpstreamCache (table : BitVec 32 → BitVec 32) (bufferSize : ℕ) (c : Cache) :
    Option Cache :=
  let c := ngxHttpFileCacheCreateKey table c
  if c.headerStart+256 ≥ bufferSize then none else some { c with bodyStart := bufferSize }

/-- `cache_valid`: a status, 0 for any, and a time -/
def ngxHttpFileCacheValid : List (ℕ × BitVec 64) → ℕ → BitVec 64
  | [], _ => 0
  | v::cacheValid, status =>
    if v.1 = 0 then v.2 else if v.1 = status then v.2 else ngxHttpFileCacheValid cacheValid status

/-! Writing -/

@[grind =] def keyCopies : List (List UInt8) → ℕ → List (ℕ × List UInt8)
  | [], p => [(p, [10])]
  | key::keys, p => (p, key)::keyCopies keys (p+key.length)

/-- The assignments to the fields of the header, and what is copied behind it -/
def headerStores (c : Cache) : List (ℕ × List UInt8) :=
  (0, toBytes 8 c.validSec.toNat)::(8, toBytes 8 c.lastModified.toNat)::
  (16, toBytes 8 c.date.toNat)::(24, toBytes 4 c.crc32.toNat)::
  (28, toBytes 2 c.validMsec)::(30, toBytes 2 c.headerStart)::(32, toBytes 2 c.bodyStart)::
  (sizeofHeader, ngxHttpFileCacheKey)::
  keyCopies c.keys (sizeofHeader+ngxHttpFileCacheKey.length)

def ngxHttpFileCacheSetHeader (c : Cache) (buf : List UInt8) : List UInt8 :=
  storeAll (headerStores c) buf

/-- What `ngx_http_upstream_send_response` does for a response to be cached: `buf` is the memory
of `u->buffer`, with the end of the header at `pos`. There is no result when the response
gets no time to be valid. -/
def ngxHttpUpstreamSendResponse (cacheValid : List (ℕ × BitVec 64)) (statusN : ℕ)
    (now lastModifiedTime : BitVec 64) (pos : ℕ) (c : Cache) (buf : List UInt8) :
    Option (Cache × List UInt8) :=
  let byStatus := ngxHttpFileCacheValid cacheValid statusN
  let valid := if c.validSec = 0 then byStatus else c.validSec
  let validSec := if c.validSec = 0 ∧ byStatus ≠ 0 then now+byStatus else c.validSec
  if valid = 0 then none
  else
    let c := { c with validSec := validSec, lastModified := lastModifiedTime, date := now,
                      bodyStart := pos % 2^16 }
    some (c, ngxHttpFileCacheSetHeader c buf)

/-- The file: `p->buf_to_file` with the memory up to `pos`, and the body -/
def cacheFile (buf : List UInt8) (pos : ℕ) (body : List UInt8) : List UInt8 :=
  buf.take pos++body

/-! Reading -/

inductive Code where
  | ok
  | stale
  | updating
  | declined
  deriving DecidableEq, Repr

structure Reading where
  code : Code
  cache : Cache
  node : Node
  size : ℤ

def existsBodyStart (node : Node) (c : Cache) : Cache :=
  if node.bodyStart = 0 then c else { c with bodyStart := node.bodyStart }

/-- The end of `ngx_http_file_cache_read`, where a stale response goes to one request to update -/
def readTime (now : BitVec 64) (size : ℤ) (node : Node) (c : Cache) : Reading :=
  if c.validSec.toInt < now.toInt then
    if node.updating then ⟨.updating,c,node,size⟩
    else ⟨.stale,{ c with updating := true },{ node with updating := true },size⟩
  else ⟨.ok,c,node,size⟩

/-- The part of `ngx_http_file_cache_read` behind the checks -/
def readHeader (buf : List UInt8) (now : BitVec 64) (cold : Bool) (size : ℤ) (node : Node)
    (c : Cache) : Reading :=
  let c := { c with
    validSec := BitVec.ofNat 64 (load buf 0 8)
    lastModified := BitVec.ofNat 64 (load buf 8 8)
    date := BitVec.ofNat 64 (load buf 16 8)
    validMsec := load buf 28 2
    headerStart := load buf 30 2
    bodyStart := load buf 32 2 }
  let fill := cold && !node.exists'
  readTime now (if fill then size+c.fsSize else size)
    (if fill then
      { node with uses := 1, bodyStart := c.bodyStart, exists' := true, uniq := c.uniq,
                  fsSize := c.fsSize }
    else node) c

/-- `file` is read from its front into a buffer of `c->body_start` bytes; `cold` and `size` are
those of the shared memory. -/
def ngxHttpFileCacheRead (file : List UInt8) (now : BitVec 64) (cold : Bool) (size : ℤ)
    (node : Node) (c : Cache) : Reading :=
  let buf := file.take c.bodyStart
  if buf.length < c.headerStart then ⟨.declined,c,node,size⟩
  else if load buf 24 4 ≠ c.crc32.toNat then ⟨.declined,c,node,size⟩
  else if load buf 32 2 > c.bodyStart then ⟨.declined,c,node,size⟩
  else readHeader buf now cold size node c

/-! Requests that store and read -/

/-- A request whose response is to be cached: the key and its checksum are those that it was
created with, and the header of the response, in the buffer of the configured size, ends at
`pos`. -/
structure Response (table : BitVec 32 → BitVec 32) (bufferSize : ℕ) where
  request : Cache
  cache : Cache
  buf : List UInt8
  pos : ℕ
  body : List UInt8
  created : ∃ c, ngxHttpUpstreamCache table bufferSize request = some c ∧
    cache.keys = request.keys ∧ cache.crc32 = c.crc32 ∧ c.headerStart ≤ cache.headerStart
  memory : buf.length = bufferSize
  header : cache.headerStart ≤ pos ∧ pos ≤ buf.length

def Response.headerBytes {table : BitVec 32 → BitVec 32} {bufferSize : ℕ}
    (resp : Response table bufferSize) : List UInt8 :=
  slice resp.buf resp.cache.headerStart (resp.pos-resp.cache.headerStart)

/-- What was read is what was stored, and the header and the body are served from their first
bytes on. -/
structure Restored {table : BitVec 32 → BitVec 32} {bufferSize : ℕ}
    (resp : Response table bufferSize) (stored : Cache) (file : List UInt8) (reading : Reading) :
    Prop where
  found : reading.code ≠ .declined
  validSec : reading.cache.validSec = stored.validSec
  lastModified : reading.cache.lastModified = stored.lastModified
  date : reading.cache.date = stored.date
  headerStart : reading.cache.headerStart = stored.headerStart
  bodyStart : reading.cache.bodyStart = resp.pos
  servedHeader : slice file reading.cache.headerStart
    (reading.cache.bodyStart-reading.cache.headerStart) = resp.headerBytes
  servedBody : file.drop reading.cache.bodyStart = resp.body

variable {table : BitVec 32 → BitVec 32} {bufferSize : ℕ}

def keyEnd (keys : List (List UInt8)) : ℕ :=
  sizeofHeader+ngxHttpFileCacheKey.length+keys.flatten.length+1

theorem keyCopies_within (keys : List (List UInt8)) (p : ℕ) :
    ∀ q ∈ keyCopies keys p, p ≤ q.1 ∧ q.1+q.2.length ≤ p+keys.flatten.length+1 := by
  induction keys generalizing p with
  | nil => simp [keyCopies]
  | cons key keys ih =>
    have ih := ih (p+key.length)
    rw [keyCopies, List.forall_mem_cons, List.flatten_cons, List.length_append]
    refine ⟨⟨le_rfl,?_⟩,fun q hq => ?_⟩
    · dsimp only
      omega
    · have := ih q hq
      omega

theorem keyCopies_ascending (keys : List (List UInt8)) (p : ℕ) : Ascending (keyCopies keys p) := by
  induction keys generalizing p with
  | nil => exact List.pairwise_singleton _ _
  | cons key keys ih =>
    exact List.pairwise_cons.mpr ⟨fun q hq => (keyCopies_within keys _ q hq).1,ih _⟩

theorem headerStores_within (c : Cache) :
    ∀ p ∈ headerStores c, p.1+p.2.length ≤ keyEnd c.keys := by
  have hk := keyCopies_within c.keys (sizeofHeader+ngxHttpFileCacheKey.length)
  have he : keyEnd c.keys = 47+c.keys.flatten.length := by
    rw [keyEnd, sizeofHeader, ngxHttpFileCacheKey]
    simp only [List.length_cons, List.length_nil]
    omega
  simp only [headerStores, List.forall_mem_cons, toBytes_length]
  refine ⟨by omega,by omega,by omega,by omega,by omega,by omega,by omega,?_,fun p hp => ?_⟩
  · rw [keyEnd]
    omega
  · have := (hk p hp).2
    rw [keyEnd]
    omega

theorem headerStores_ascending (c : Cache) : Ascending (headerStores c) := by
  have hk := keyCopies_within c.keys (sizeofHeader+ngxHttpFileCacheKey.length)
  have hb : ∀ n ≤ 46, ∀ p ∈ keyCopies c.keys (sizeofHeader+ngxHttpFileCacheKey.length),
      n ≤ p.1 := fun n hn p hp => le_trans hn (hk p hp).1
  simp only [Ascending, headerStores, List.pairwise_cons, List.forall_mem_cons, toBytes_length]
  simp only [sizeofHeader, ngxHttpFileCacheKey] at hb ⊢
  simp only [List.length_cons, List.length_nil] at hb ⊢
  simp only [Nat.reduceAdd, Nat.reduceLeDiff, true_and] at hb ⊢
  exact ⟨hb _ (by decide),hb _ (by decide),hb _ (by decide),hb _ (by decide),hb _ (by decide),
    hb _ (by decide),hb _ (by decide),hb _ (by decide),keyCopies_ascending _ _⟩

theorem header_load {c : Cache} {buf : List UInt8} (h : keyEnd c.keys ≤ buf.length) {o w n : ℕ}
    (hm : (o, toBytes w n) ∈ headerStores c) :
    load (ngxHttpFileCacheSetHeader c buf) o w = n % 256^w :=
  storeAll_load (headerStores_ascending c)
    (fun p hp => le_trans (headerStores_within c p hp) h) hm

theorem keyEnd_eq (keys : List (List UInt8)) : keyEnd keys = 47+keys.flatten.length := by
  rw [keyEnd, sizeofHeader, ngxHttpFileCacheKey]
  simp only [List.length_cons, List.length_nil]
  omega

theorem created_spec {c d : Cache} (h : ngxHttpUpstreamCache table bufferSize c = some d) :
    d = { ngxHttpFileCacheCreateKey table c with bodyStart := bufferSize } ∧
      keyEnd c.keys+256 < bufferSize := by
  rw [ngxHttpUpstreamCache] at h
  split at h
  · cases h
  · rename_i hs
    exact ⟨(Option.some.inj h).symm,not_le.mp hs⟩

theorem send_spec {cacheValid : List (ℕ × BitVec 64)} {statusN pos : ℕ} {now lm : BitVec 64}
    {c stored : Cache} {buf buf' : List UInt8}
    (h : ngxHttpUpstreamSendResponse cacheValid statusN now lm pos c buf = some (stored, buf')) :
    buf' = ngxHttpFileCacheSetHeader stored buf ∧ stored.keys = c.keys ∧
      stored.crc32 = c.crc32 ∧ stored.headerStart = c.headerStart ∧
      stored.bodyStart = pos % 2^16 := by
  rw [ngxHttpUpstreamSendResponse] at h
  dsimp only at h
  by_cases hv : (if c.validSec = 0 then ngxHttpFileCacheValid cacheValid statusN
      else c.validSec) = 0
  · rw [if_pos hv] at h
    cases h
  rw [if_neg hv] at h
  obtain ⟨rfl,rfl⟩ := Prod.mk.inj (Option.some.inj h)
  exact ⟨rfl,rfl,rfl,rfl,rfl⟩

structure Taken (buf : List UInt8) (reading : Reading) : Prop where
  validSec : reading.cache.validSec = BitVec.ofNat 64 (load buf 0 8)
  lastModified : reading.cache.lastModified = BitVec.ofNat 64 (load buf 8 8)
  date : reading.cache.date = BitVec.ofNat 64 (load buf 16 8)
  headerStart : reading.cache.headerStart = load buf 30 2
  bodyStart : reading.cache.bodyStart = load buf 32 2

theorem readTime_spec (now : BitVec 64) (size : ℤ) (node : Node) (c : Cache) :
    (readTime now size node c).code ≠ .declined ∧ ∃ updating,
      (readTime now size node c).cache = { c with updating := updating } := by
  rw [readTime]
  split
  · split
    · exact ⟨by rintro ⟨⟩,c.updating,rfl⟩
    · exact ⟨by rintro ⟨⟩,true,rfl⟩
  · exact ⟨by rintro ⟨⟩,c.updating,rfl⟩

theorem readHeader_spec (buf : List UInt8) (now : BitVec 64) (cold : Bool) (size : ℤ)
    (node : Node) (c : Cache) : (readHeader buf now cold size node c).code ≠ .declined ∧
      Taken buf (readHeader buf now cold size node c) := by
  obtain ⟨hcode,_,hc⟩ := readTime_spec now _ _ _
  refine ⟨hcode,?_,?_,?_,?_,?_⟩
  all_goals exact congrArg _ hc

theorem read_spec (file : List UInt8) (now : BitVec 64) (cold : Bool) (size : ℤ) (node : Node)
    (c : Cache) :
    ((ngxHttpFileCacheRead file now cold size node c).code ≠ .declined ↔
      c.headerStart ≤ (file.take c.bodyStart).length ∧
        load (file.take c.bodyStart) 24 4 = c.crc32.toNat ∧
        load (file.take c.bodyStart) 32 2 ≤ c.bodyStart) ∧
    ((ngxHttpFileCacheRead file now cold size node c).code ≠ .declined →
      Taken (file.take c.bodyStart) (ngxHttpFileCacheRead file now cold size node c)) := by
  rw [ngxHttpFileCacheRead]
  by_cases h1 : (file.take c.bodyStart).length < c.headerStart
  · rw [if_pos h1]
    exact ⟨iff_of_false (fun hd => hd rfl) fun hd => not_le.mpr h1 hd.1,fun hd => absurd rfl hd⟩
  rw [if_neg h1]
  by_cases h2 : load (file.take c.bodyStart) 24 4 ≠ c.crc32.toNat
  · rw [if_pos h2]
    exact ⟨iff_of_false (fun hd => hd rfl) fun hd => h2 hd.2.1,fun hd => absurd rfl hd⟩
  rw [if_neg h2]
  by_cases h3 : load (file.take c.bodyStart) 32 2 > c.bodyStart
  · rw [if_pos h3]
    exact ⟨iff_of_false (fun hd => hd rfl) fun hd => not_le.mpr h3 hd.2.2,
      fun hd => absurd rfl hd⟩
  rw [if_neg h3]
  obtain ⟨hcode,htaken⟩ := readHeader_spec (file.take c.bodyStart) now cold size node c
  exact ⟨iff_of_true hcode ⟨not_lt.mp h1,not_not.mp h2,not_lt.mp h3⟩,fun _ => htaken⟩

/-! What is stored and read -/

section Stored

variable (resp : Response table bufferSize) {cacheValid : List (ℕ × BitVec 64)} {statusN : ℕ}
  {now lm : BitVec 64} {stored : Cache} {buf : List UInt8}
  (hsend : ngxHttpUpstreamSendResponse cacheValid statusN now lm resp.pos resp.cache resp.buf =
    some (stored, buf))

include hsend

theorem stored_spec : buf = ngxHttpFileCacheSetHeader stored resp.buf ∧
    stored.keys = resp.request.keys ∧
    stored.crc32 = (ngxHttpFileCacheCreateKey table resp.request).crc32 ∧
    stored.headerStart = resp.cache.headerStart ∧ stored.bodyStart = resp.pos % 2^16 ∧
    keyEnd stored.keys ≤ stored.headerStart ∧ stored.headerStart ≤ resp.pos := by
  obtain ⟨hbuf,hk,hcrc,hh,hb⟩ := send_spec hsend
  obtain ⟨first,hfirst,hfk,hfc,hfh⟩ := resp.created
  obtain ⟨rfl,_⟩ := created_spec hfirst
  have hkeys := hk.trans hfk
  refine ⟨hbuf,hkeys,hcrc.trans hfc,hh,hb,?_,hh ▸ resp.header.1⟩
  rw [hkeys, hh]
  exact hfh

theorem file_load {k : ℕ} (hk : keyEnd stored.keys ≤ k) {o w n : ℕ} (ho : o+w ≤ 40)
    (hm : (o, toBytes w n) ∈ headerStores stored) :
    load ((cacheFile buf resp.pos resp.body).take k) o w = n % 256^w := by
  obtain ⟨rfl,_,_,_,_,hkh,hhp⟩ := stored_spec resp hsend
  have he := keyEnd_eq stored.keys
  have hpos := resp.header.2
  have hl : (ngxHttpFileCacheSetHeader stored resp.buf).length = resp.buf.length :=
    storeAll_length fun p hp => le_trans (headerStores_within stored p hp) (by omega)
  have hlen : keyEnd stored.keys ≤ resp.buf.length := by omega
  rw [← header_load hlen hm, load, load, slice_take (by omega), cacheFile,
    slice_append (by rw [List.length_take]; omega), slice_take (by omega)]

theorem file_served : slice (cacheFile buf resp.pos resp.body) stored.headerStart
      (resp.pos-stored.headerStart) = resp.headerBytes ∧
    (cacheFile buf resp.pos resp.body).drop resp.pos = resp.body := by
  obtain ⟨rfl,_,_,hh,_,hkh,hhp⟩ := stored_spec resp hsend
  have hpos := resp.header.2
  have hl : (ngxHttpFileCacheSetHeader stored resp.buf).length = resp.buf.length :=
    storeAll_length fun p hp => le_trans (headerStores_within stored p hp) (by omega)
  have hd : (ngxHttpFileCacheSetHeader stored resp.buf).drop stored.headerStart =
      resp.buf.drop stored.headerStart :=
    storeAll_drop (fun p hp => le_trans (headerStores_within stored p hp) (by omega))
      fun p hp => le_trans (headerStores_within stored p hp) hkh
  constructor
  · rw [cacheFile, slice_append (by rw [List.length_take]; omega), slice_take (by omega), slice,
      hd, hh]
    rfl
  · rw [cacheFile, List.drop_left' (by rw [List.length_take]; omega)]

variable {request c : Cache} (hkeys : request.keys = resp.request.keys)
  (hc : ngxHttpUpstreamCache table bufferSize request = some c)
  {node : Node} (hnode : node.bodyStart = 0 ∨ node.bodyStart = stored.bodyStart)

include hkeys hc hnode

theorem reader_spec : (existsBodyStart node c).headerStart = keyEnd stored.keys ∧
    (existsBodyStart node c).crc32 = stored.crc32 ∧
    ((existsBodyStart node c).bodyStart = bufferSize ∨
      (existsBodyStart node c).bodyStart = resp.pos % 2^16) := by
  obtain ⟨_,hk,hcrc,_,hb,_⟩ := stored_spec resp hsend
  obtain ⟨rfl,_⟩ := created_spec hc
  rw [hk, hcrc, ← hkeys, existsBodyStart]
  split
  · exact ⟨rfl,by simp only [ngxHttpFileCacheCreateKey, hkeys],Or.inl rfl⟩
  · rename_i hn
    exact ⟨rfl,by simp only [ngxHttpFileCacheCreateKey, hkeys],
      Or.inr ((hnode.resolve_left hn).trans hb)⟩

theorem restored_lt {later : BitVec 64} {cold : Bool} {size : ℤ}
    (h : Restored resp stored (cacheFile buf resp.pos resp.body) (ngxHttpFileCacheRead
      (cacheFile buf resp.pos resp.body) later cold size node (existsBodyStart node c))) :
    resp.pos < 2^16 := by
  obtain ⟨_,_,_,_,hb,_⟩ := stored_spec resp hsend
  obtain ⟨hdh,_,_⟩ := reader_spec resp hsend hkeys hc hnode
  obtain ⟨hfound,hread⟩ := read_spec (cacheFile buf resp.pos resp.body) later cold size node
    (existsBodyStart node c)
  obtain ⟨hlen,_⟩ := hfound.mp h.found
  rw [List.length_take, hdh] at hlen
  have hs := (hread h.found).bodyStart
  rw [h.bodyStart, file_load resp hsend (n := stored.bodyStart) (by omega) (by decide)
    (by simp [headerStores]), hb] at hs
  omega

/-- What the request with the same key has read is what was stored if and only if the body
begins in the first 64K of the file. -/
theorem round_trip (later : BitVec 64) (cold : Bool) (size : ℤ) :
    Restored resp stored (cacheFile buf resp.pos resp.body) (ngxHttpFileCacheRead
      (cacheFile buf resp.pos resp.body) later cold size node (existsBodyStart node c)) ↔
        resp.pos < 2^16 := by
  refine ⟨restored_lt resp hsend hkeys hc hnode,fun hsmall => ?_⟩
  obtain ⟨hbuf,_,_,hh,hb,hkh,hhp⟩ := stored_spec resp hsend
  obtain ⟨hdh,hdc,hdb⟩ := reader_spec resp hsend hkeys hc hnode
  obtain ⟨hfound,hread⟩ := read_spec (cacheFile buf resp.pos resp.body) later cold size node
    (existsBodyStart node c)
  have hpos := resp.header.2
  have hmem := resp.memory
  have hk : keyEnd stored.keys ≤ (existsBodyStart node c).bodyStart := by omega
  have hlen : resp.pos ≤ (cacheFile buf resp.pos resp.body).length := by
    rw [cacheFile, List.length_append, List.length_take, hbuf, ngxHttpFileCacheSetHeader,
      storeAll_length fun p hp => le_trans (headerStores_within stored p hp) (by omega)]
    omega
  have hcode := hfound.mpr ⟨by rw [List.length_take, hdh]; omega,by
    rw [file_load resp hsend (n := stored.crc32.toNat) hk (by decide) (by simp [headerStores]),
      hdc]
    exact Nat.mod_eq_of_lt stored.crc32.isLt,by
    rw [file_load resp hsend (n := stored.bodyStart) hk (by decide) (by simp [headerStores])]
    omega⟩
  have hr := hread hcode
  have hs := hr.headerStart
  have hbs := hr.bodyStart
  rw [file_load resp hsend (n := stored.headerStart) hk (by decide) (by simp [headerStores]),
    Nat.mod_eq_of_lt (by omega)] at hs
  rw [file_load resp hsend (n := stored.bodyStart) hk (by decide) (by simp [headerStores]),
    Nat.mod_eq_of_lt (by omega), hb, Nat.mod_eq_of_lt hsmall] at hbs
  have htime : ∀ t : BitVec 64, BitVec.ofNat 64 (t.toNat % 256^8) = t := by
    intro t
    have ht : t.toNat % 256^8 = t.toNat := Nat.mod_eq_of_lt t.isLt
    rw [ht, BitVec.ofNat_toNat, BitVec.setWidth_eq]
  obtain ⟨hheader,hbody⟩ := file_served resp hsend
  refine ⟨hcode,?_,?_,?_,hs,hbs,?_,?_⟩
  · rw [hr.validSec, file_load resp hsend (n := stored.validSec.toNat) hk (by decide)
      (by simp [headerStores]), htime]
  · rw [hr.lastModified, file_load resp hsend (n := stored.lastModified.toNat) hk (by decide)
      (by simp [headerStores]), htime]
  · rw [hr.date, file_load resp hsend (n := stored.date.toNat) hk (by decide)
      (by simp [headerStores]), htime]
  · rw [hs, hbs, hheader]
  · rw [hbs, hbody]

end Stored

/-- A request with the key "/", before and after the check of its buffer -/
def firstRequest (headerStart bodyStart : ℕ) (crc32 : BitVec 32) : Cache :=
  ⟨[[47]],crc32,9,0,0,0,headerStart,bodyStart,0,0,false⟩

theorem first_created (bufferSize : ℕ) (h : 304 < bufferSize) :
    ngxHttpUpstreamCache (fun _ => 0) bufferSize (firstRequest 0 0 0) =
      some (firstRequest 48 bufferSize
        (ngxHttpFileCacheCreateKey (fun _ => 0) (firstRequest 0 0 0)).crc32) := by
  have hs : (ngxHttpFileCacheCreateKey (fun _ => 0) (firstRequest 0 0 0)).headerStart = 48 := rfl
  rw [ngxHttpUpstreamCache, hs, if_neg (by omega)]
  rfl

/-- A response whose header ends at `pos`, with a body of one byte -/
def responseAt (bufferSize pos : ℕ) (h : 304 < bufferSize) (hp : 48 ≤ pos ∧ pos ≤ bufferSize) :
    Response (fun _ => 0) bufferSize where
  request := firstRequest 0 0 0
  cache := firstRequest 48 bufferSize
    (ngxHttpFileCacheCreateKey (fun _ => 0) (firstRequest 0 0 0)).crc32
  buf := List.replicate bufferSize 0
  pos := pos
  body := [98]
  created := ⟨_,first_created bufferSize h,rfl,rfl,le_rfl⟩
  memory := List.length_replicate
  header := ⟨hp.1,by rw [List.length_replicate]; exact hp.2⟩

def newNode : Node := ⟨0,1,1,0,0,false,false,false,0,0,0,0,0⟩

theorem round_trip_small : ∃ stored buf, ngxHttpUpstreamSendResponse [] 200 5 3 60
      (responseAt 512 60 (by decide) (by decide)).cache
      (responseAt 512 60 (by decide) (by decide)).buf = some (stored, buf) ∧
    (Restored (responseAt 512 60 (by decide) (by decide)) stored (cacheFile buf 60 [98])
      (ngxHttpFileCacheRead (cacheFile buf 60 [98]) 7 true 0 newNode (existsBodyStart newNode
        (firstRequest 48 512
          (ngxHttpFileCacheCreateKey (fun _ => 0) (firstRequest 0 0 0)).crc32))) ↔ 60 < 2^16) :=
  ⟨_,_,rfl,round_trip (responseAt 512 60 (by decide) (by decide))
    (show ngxHttpUpstreamSendResponse [] 200 5 3 60 _ _ = some _ from rfl) rfl
    (first_created 512 (by decide)) (Or.inl rfl) 7 true 0⟩

/-- With a buffer of 128K and a header that ends at 65536, the body begins at 0 in the file. -/
theorem long_header : ∃ (resp : Response (fun _ => 0) 131072) (stored c : Cache)
    (buf : List UInt8),
    ngxHttpUpstreamSendResponse [] 200 5 3 resp.pos resp.cache resp.buf = some (stored, buf) ∧
    ngxHttpUpstreamCache (fun _ => 0) 131072 resp.request = some c ∧
    ¬ Restored resp stored (cacheFile buf resp.pos resp.body) (ngxHttpFileCacheRead
      (cacheFile buf resp.pos resp.body) 7 true 0 newNode (existsBodyStart newNode c)) := by
  refine ⟨responseAt 131072 65536 (by decide) (by decide),_,_,_,rfl,
    first_created 131072 (by decide),fun h => ?_⟩
  have hlt := restored_lt (responseAt 131072 65536 (by decide) (by decide))
    (show ngxHttpUpstreamSendResponse [] 200 5 3 65536 _ _ = some _ from rfl) rfl
    (first_created 131072 (by decide)) (Or.inl rfl) h
  exact absurd hlt (by decide)

end Nginx.CacheFileHeader
