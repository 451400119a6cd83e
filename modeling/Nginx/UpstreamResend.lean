import Nginx.FastcgiRequestLaw
import Nginx.ProxyRequestLaw

/-!
# Sending a request again

`ngx_http_upstream_reinit` rewinds every buffer of the request to the start of its memory and
of its file. A part that was cut out of a larger buffer starts elsewhere, and is sent again
with what stands before it. `u->output` is left out: its buffer gets no more than copies of the
file parts of these buffers, and is emptied too.
-/

set_option autoImplicit false

namespace Nginx.UpstreamResend
open TempMemory FastcgiRequest

/-! Buffers with their bounds -/

/-- `mem` is the memory from `start` on, and `pos` and `last` are offsets in it. -/
structure Buf where
  inFile : Bool
  mem : List UInt8
  pos : ℕ
  last : ℕ
  filePos : ℕ
  fileLast : ℕ
  inMem : pos ≤ last ∧ last ≤ mem.length
  inRange : filePos ≤ fileLast

def Buf.bytes (file : ℕ → UInt8) (b : Buf) : List UInt8 :=
  if b.inFile then (List.range' b.filePos (b.fileLast-b.filePos)).map file
  else (b.mem.take b.last).drop b.pos

def Buf.size (b : Buf) : ℕ := if b.inFile then b.fileLast-b.filePos else b.last-b.pos

/-- `n` bytes of a buffer have been sent, or all of it. -/
def Buf.advance (b : Buf) (n : ℕ) : Buf :=
  { b with
    pos := if b.inFile then b.pos else min (b.pos+n) b.last
    filePos := if b.inFile then min (b.filePos+n) b.fileLast else b.filePos
    inMem := by
      have := b.inMem
      split <;> omega
    inRange := by
      have := b.inRange
      split <;> omega }

def Buf.rewind (b : Buf) : Buf :=
  { b with pos := 0, filePos := 0, inMem := ⟨Nat.zero_le _,b.inMem.2⟩, inRange := Nat.zero_le _ }

def chainBytes (file : ℕ → UInt8) (bufs : List Buf) : List UInt8 := bufs.flatMap (Buf.bytes file)

/-- `sent` bytes from the front of a chain have been sent. -/
@[grind =] def send : List Buf → ℕ → List Buf
  | [], _ => []
  | b::bufs, sent =>
    if sent = 0 then b::bufs
    else if sent ≥ b.size then b.advance b.size::send bufs (sent-b.size)
    else b.advance sent::bufs

/-! `ngx_http_upstream_reinit` -/

/-- `u->headers_in`, zeroes and an empty list at first -/
structure HeadersIn where
  headers : List (List UInt8 × List UInt8)
  statusN : ℕ
  statusLine : List UInt8
  contentLengthN : ℤ
  deriving DecidableEq, Repr

def emptyHeaders : HeadersIn := ⟨[],0,[],0⟩

/-- `buffer` holds the offsets of `pos` and `last` in the memory of `u->buffer`. -/
structure Upstream where
  requestBufs : List Buf
  headersIn : HeadersIn
  buffer : ℕ × ℕ

/-- `cache` is `r->cache->header_start` for a response that is to be cached. -/
def ngxHttpUpstreamReinit (cache : Option ℕ) (u : Upstream) : Upstream :=
  ⟨u.requestBufs.map Buf.rewind,emptyHeaders,(cache.getD 0, cache.getD 0)⟩

/-! The requests -/

/-- A buffer with its bytes between `start` and `last` -/
def tempBuf (b : Block UInt8) : Buf where
  inFile := false
  mem := b.cells.map (·.getD 0)
  pos := 0
  last := b.cells.length
  filePos := 0
  fileLast := 0
  inMem := by simp
  inRange := le_rfl

/-- The buffer as `ngx_http_fastcgi_create_request` reads it -/
def toBody (b : Buf) : BodyBuf := ⟨b.inFile,(b.mem.take b.last).drop b.pos,b.filePos,b.fileLast⟩

/-- The copy of a buffer with the bytes from `k` to `k'`, counted from its first -/
def Buf.part (b : Buf) (k k' : ℕ) (h : k ≤ k') (h' : k' ≤ b.size) : Buf :=
  { b with
    pos := if b.inFile then b.pos else b.pos+k
    last := if b.inFile then b.last else b.pos+k'
    filePos := if b.inFile then b.filePos+k else b.filePos
    fileLast := if b.inFile then b.filePos+k' else b.fileLast
    inMem := by
      have := b.inMem
      rw [Buf.size] at h'
      split
      · exact this
      · rename_i hf
        rw [if_neg hf] at h'
        omega
    inRange := by
      have := b.inRange
      split <;> omega }

/-- The parts that `do { ... } while (!next)` makes of a buffer -/
def parts (b : Buf) (k : ℕ) (hk : k ≤ b.size) : List Buf :=
  if h : k+chunkSize ≥ b.size then [b.part k b.size hk le_rfl]
  else b.part k (k+chunkSize) (Nat.le_add_right _ _) (by omega)::parts b (k+chunkSize) (by omega)
termination_by b.size-k
decreasing_by
  have : 0 < chunkSize := by decide
  omega

@[grind =] def attach : List Piece → List Buf → List Buf
  | [], _ => []
  | .temp b::pieces, bufs => tempBuf b::attach pieces bufs
  | .part _::pieces, b::bufs => b::attach pieces bufs
  | .part _::_, [] => []

/-- The chain of `ngx_http_fastcgi_create_request` -/
def fastcgiChain (conf : LocConf) (pieces : List Piece) (body : List Buf) : List Buf :=
  attach pieces (if conf.passRequestBody then body.flatMap fun b => parts b 0 (Nat.zero_le _)
    else [])

/-- The buffer as `ngx_http_proxy_create_request` reads it -/
def toChain (b : Buf) : BufChain.Buf :=
  { BufChain.ngxCallocBuf with
    temporary := !b.inFile
    inFile := b.inFile
    data := if b.inFile then [] else ((b.mem.take b.last).drop b.pos).map UInt8.toNat
    room := b.mem.length
    filePos := b.filePos
    fileLast := b.fileLast }

/-- The chain of `ngx_http_proxy_create_request`: the header, and copies of the buffers of the
body unless it is set or not to be passed -/
def proxyChain (conf : ProxyRequest.LocConf) (out : ProxyRequest.Out) (body : List Buf) :
    List Buf :=
  tempBuf out.header::if conf.bodySet.isNone && conf.passRequestBody then body else []

/-! Rewinding -/

def Buf.start (b : Buf) : ℕ := if b.inFile then b.filePos else b.pos

variable (b : Buf)

theorem rewind_advance (n : ℕ) : (b.advance n).rewind = b.rewind := rfl

variable (bufs : List Buf)

theorem rewind_send (sent : ℕ) : (send bufs sent).map Buf.rewind = bufs.map Buf.rewind := by
  induction bufs generalizing sent with
  | nil => rfl
  | cons b bufs ih =>
    rw [send]
    split
    · rfl
    · split
      · rw [List.map_cons, List.map_cons, rewind_advance, ih]
      · rfl

theorem rewind_sends (ns : List ℕ) : (ns.foldl send bufs).map Buf.rewind = bufs.map Buf.rewind := by
  induction ns generalizing bufs with
  | nil => rfl
  | cons n ns ih => rw [List.foldl_cons, ih, rewind_send]

variable (file : ℕ → UInt8)

theorem bytes_length (b : Buf) : (b.bytes file).length = b.size := by
  have := b.inMem
  simp only [Buf.bytes, Buf.size]
  split
  · simp
  · rw [List.length_drop, List.length_take]
    omega

theorem rewind_size : b.rewind.size = b.start+b.size := by
  have := b.inMem
  have := b.inRange
  by_cases hf : b.inFile = true
  · simp only [Buf.rewind, Buf.size, Buf.start, hf, if_true]
    omega
  · simp only [Buf.rewind, Buf.size, Buf.start, hf, Bool.false_eq_true, if_false]
    omega

theorem rewind_bytes {b : Buf} (h : b.start = 0) : b.rewind.bytes file = b.bytes file := by
  by_cases hf : b.inFile = true
  · simp only [Buf.start, hf, if_true] at h
    simp only [Buf.rewind, Buf.bytes, hf, if_true, h]
  · simp only [Buf.start, hf, Bool.false_eq_true, if_false] at h
    simp only [Buf.rewind, Buf.bytes, hf, Bool.false_eq_true, if_false, h]

theorem chainBytes_cons (b : Buf) (bufs : List Buf) :
    chainBytes file (b::bufs) = b.bytes file++chainBytes file bufs := List.flatMap_cons

theorem rewind_longer (bufs : List Buf) :
    (chainBytes file bufs).length ≤ (chainBytes file (bufs.map Buf.rewind)).length := by
  induction bufs with
  | nil => exact le_rfl
  | cons b bufs ih =>
    have := rewind_size b
    rw [List.map_cons, chainBytes_cons, chainBytes_cons, List.length_append, List.length_append,
      bytes_length, bytes_length]
    omega

theorem rewind_iff (bufs : List Buf) :
    chainBytes file (bufs.map Buf.rewind) = chainBytes file bufs ↔ ∀ b ∈ bufs, b.start = 0 := by
  induction bufs with
  | nil => simp [chainBytes]
  | cons b bufs ih =>
    rw [List.forall_mem_cons, ← ih, List.map_cons, chainBytes_cons, chainBytes_cons]
    constructor
    · intro h
      have hs := rewind_size b
      have hl := congrArg List.length h
      have hle := rewind_longer file bufs
      rw [List.length_append, List.length_append, bytes_length, bytes_length] at hl
      have hb : b.start = 0 := by omega
      rw [rewind_bytes file hb] at h
      exact ⟨hb,List.append_cancel_left h⟩
    · rintro ⟨hb,hbs⟩
      rw [rewind_bytes file hb, hbs]

/-! The parts of a request -/

@[grind =] def bodyParts : List Piece → List BodyBuf
  | [] => []
  | .temp _::pieces => bodyParts pieces
  | .part b::pieces => b::bodyParts pieces

theorem bodyParts_append (xs ys : List Piece) :
    bodyParts (xs++ys) = bodyParts xs++bodyParts ys := by
  induction xs with
  | nil => rfl
  | cons x xs ih => cases x <;> simp [bodyParts, ih]

variable {pieces : List Piece}

theorem bodyParts_set {i : ℕ} {b : Block UInt8} (h : pieces[i]? = some (.temp b)) (b' : Block UInt8) :
    bodyParts (pieces.set i (.temp b')) = bodyParts pieces := by
  induction pieces generalizing i with
  | nil => cases h
  | cons x xs ih =>
    cases i with
    | zero =>
      obtain rfl := Option.some.inj h
      rfl
    | succ i =>
      have h : xs[i]? = some (.temp b) := h
      cases x <;> simp [bodyParts, ih h]

variable {s : Out}

theorem fillHeader_parts {header : List UInt8} (h : fillHeader s header = some pieces) :
    bodyParts pieces = bodyParts s.pieces := by
  rw [fillHeader] at h
  split at h
  · rename_i b hb
    obtain ⟨b',_,rfl⟩ := Option.map_eq_some_iff.mp h
    exact bodyParts_set hb b'
  · cases h

theorem turn_parts {buf : BodyBuf} {pos last : ℕ} {s s' : Out}
    (h : FastcgiRequestLaw.turn buf pos last s = some s') :
    bodyParts s'.pieces = bodyParts s.pieces++[buf.cut pos last] := by
  obtain ⟨pieces,hp,h⟩ := Option.bind_eq_some_iff.mp h
  obtain ⟨b,_,h⟩ := Option.bind_eq_some_iff.mp h
  obtain ⟨t,_,rfl⟩ := Option.map_eq_some_iff.mp h
  rw [bodyParts_append, fillHeader_parts hp]
  rfl

theorem toBody_size : (toBody b).last = (toBody b).first+b.size := by
  have := b.inMem
  have := b.inRange
  by_cases hf : b.inFile = true
  · simp only [toBody, BodyBuf.last, BodyBuf.first, Buf.size, hf, if_true]
    omega
  simp only [toBody, BodyBuf.last, BodyBuf.first, Buf.size, hf, Bool.false_eq_true, if_false,
    List.length_drop, List.length_take]
  omega

theorem toBody_part {k k' : ℕ} (h : k ≤ k') (h' : k' ≤ b.size) :
    toBody (b.part k k' h h') = (toBody b).cut ((toBody b).first+k) ((toBody b).first+k') := by
  by_cases hf : b.inFile = true
  · simp only [toBody, Buf.part, BodyBuf.cut, BodyBuf.first, hf, if_true]
  have := b.inMem
  simp only [Buf.size, hf, Bool.false_eq_true, if_false] at h'
  simp only [toBody, Buf.part, BodyBuf.cut, BodyBuf.first, hf, Bool.false_eq_true, if_false,
    Nat.zero_add, BodyBuf.mk.injEq, true_and, and_true]
  rw [List.drop_drop, List.drop_take, List.drop_take, List.take_take]
  congr 1
  omega

theorem stdinLoop_parts (k : ℕ) (hk : k ≤ b.size) {s s' : Out}
    (h : stdinLoop (toBody b) ((toBody b).first+k) s = some s') :
    bodyParts s'.pieces = bodyParts s.pieces++(parts b k hk).map toBody := by
  have hsize := toBody_size b
  have hpos : 0 < chunkSize := by decide
  induction hn : b.size-k using Nat.strong_induction_on generalizing k s with
  | _ n ih =>
    rw [parts]
    by_cases he : k+chunkSize ≥ b.size
    · rw [FastcgiRequestLaw.stdinLoop_end _ (by omega), hsize] at h
      rw [turn_parts h, dif_pos he, List.map_cons, List.map_nil, toBody_part]
    rw [FastcgiRequestLaw.stdinLoop_next _ (by omega)] at h
    obtain ⟨s₁,h₁,h₂⟩ := Option.bind_eq_some_iff.mp h
    rw [Nat.add_assoc] at h₁ h₂
    rw [ih (b.size-(k+chunkSize)) (by omega) (k+chunkSize) (by omega) h₂ rfl, turn_parts h₁,
      dif_neg he, List.map_cons, toBody_part, List.append_assoc, List.singleton_append]

theorem stdinLoops_parts {s s' : Out}
    (h : (bufs.map toBody).foldlM (fun s buf => stdinLoop buf buf.first s) s = some s') :
    bodyParts s'.pieces = bodyParts s.pieces++
      (bufs.flatMap fun b => parts b 0 (Nat.zero_le _)).map toBody := by
  induction bufs generalizing s with
  | nil =>
    obtain rfl := Option.some.inj h
    simp
  | cons b bufs ih =>
    rw [List.map_cons, List.foldlM_cons] at h
    obtain ⟨s₁,h₁,h₂⟩ := Option.bind_eq_some_iff.mp h
    rw [ih h₂, stdinLoop_parts b 0 (Nat.zero_le _) h₁, List.flatMap_cons, List.map_append,
      List.append_assoc]

theorem create_parts {conf : LocConf} {r : Request} {bufs : List Buf}
    (hbody : r.body = bufs.map toBody) (h : ngxHttpFastcgiCreateRequest conf r = some (.ok pieces)) :
    bodyParts pieces = (if conf.passRequestBody then
      bufs.flatMap fun b => parts b 0 (Nat.zero_le _) else []).map toBody := by
  rw [ngxHttpFastcgiCreateRequest] at h
  obtain ⟨s,_,h⟩ := Option.bind_eq_some_iff.mp h
  split at h
  · cases h
  · obtain ⟨b,_,h⟩ := Option.bind_eq_some_iff.mp h
    obtain ⟨b',_,h⟩ := Option.bind_eq_some_iff.mp h
    obtain ⟨s',hs,h⟩ := Option.bind_eq_some_iff.mp h
    obtain ⟨pieces',hp,he⟩ := Option.map_eq_some_iff.mp h
    obtain rfl := Outcome.ok.inj he
    rw [fillHeader_parts hp]
    split at hs
    · rename_i hpass
      rw [hbody] at hs
      rw [if_pos hpass, stdinLoops_parts bufs hs]
      rfl
    · rename_i hpass
      obtain rfl := Option.some.inj hs
      rw [if_neg hpass]
      rfl

theorem attach_start {bufs : List Buf} (hp : bodyParts pieces = bufs.map toBody) :
    (∀ b ∈ attach pieces bufs, b.start = 0) ↔ ∀ b ∈ bufs, b.start = 0 := by
  induction pieces generalizing bufs with
  | nil =>
    have hn : bufs = [] := List.map_eq_nil_iff.mp hp.symm
    rw [hn]
    rfl
  | cons x pieces ih =>
    cases x with
    | temp b =>
      rw [attach, List.forall_mem_cons, ih hp]
      exact and_iff_right rfl
    | part b =>
      cases bufs with
      | nil => cases hp
      | cons c bufs =>
        rw [attach, List.forall_mem_cons, List.forall_mem_cons, ih (List.cons.inj hp).2]

theorem part_start {k k' : ℕ} (h : k ≤ k') (h' : k' ≤ b.size) :
    (b.part k k' h h').start = b.start+k := by
  by_cases hf : b.inFile = true
  · simp only [Buf.part, Buf.start, hf, if_true]
  · simp only [Buf.part, Buf.start, hf, Bool.false_eq_true, if_false]

theorem parts_first {k : ℕ} (hk : k ≤ b.size) : ∃ p ∈ parts b k hk, p.start = b.start+k := by
  rw [parts]
  split
  · exact ⟨_,List.mem_cons_self,part_start b _ _⟩
  · exact ⟨_,List.mem_cons_self,part_start b _ _⟩

theorem parts_start :
    (∀ p ∈ parts b 0 (Nat.zero_le _), p.start = 0) ↔ b.start = 0 ∧ b.size ≤ chunkSize := by
  have hpos : 0 < chunkSize := by decide
  rw [parts]
  by_cases he : 0+chunkSize ≥ b.size
  · rw [dif_pos he, List.forall_mem_cons, part_start]
    simp only [List.not_mem_nil, false_imp_iff, implies_true, and_true]
    omega
  rw [dif_neg he, List.forall_mem_cons]
  refine iff_of_false ?_ (by omega)
  rintro ⟨_,h⟩
  obtain ⟨p,hp,hs⟩ := parts_first b (k := 0+chunkSize) (by omega)
  rw [h p hp] at hs
  omega

/-! Requests that are sent again -/

/-- The request is sent again as it was, what is kept of the response is empty, and the buffer
is empty behind the header of the cache file. -/
structure Resent (file : ℕ → UInt8) (cache : Option ℕ) (chain : List Buf) (u : Upstream) :
    Prop where
  bytes : chainBytes file (ngxHttpUpstreamReinit cache u).requestBufs = chainBytes file chain
  headersIn : (ngxHttpUpstreamReinit cache u).headersIn = emptyHeaders
  buffer : (ngxHttpUpstreamReinit cache u).buffer = (cache.getD 0, cache.getD 0)

theorem resent_iff (cache : Option ℕ) {chain : List Buf} {u : Upstream} {ns : List ℕ}
    (hu : u.requestBufs = ns.foldl send chain) :
    Resent file cache chain u ↔ ∀ b ∈ chain, b.start = 0 := by
  have hr : (ngxHttpUpstreamReinit cache u).requestBufs = chain.map Buf.rewind := by
    rw [ngxHttpUpstreamReinit, hu, rewind_sends]
  rw [← rewind_iff file, ← hr]
  exact ⟨fun h => h.bytes,fun h => ⟨h,rfl,rfl⟩⟩

theorem fastcgi_resent (cache : Option ℕ) {conf : LocConf} {r : Request} {bufs : List Buf}
    (hbody : r.body = bufs.map toBody) (h : ngxHttpFastcgiCreateRequest conf r = some (.ok pieces))
    {u : Upstream} {ns : List ℕ}
    (hu : u.requestBufs = ns.foldl send (fastcgiChain conf pieces bufs)) :
    Resent file cache (fastcgiChain conf pieces bufs) u ↔
      (conf.passRequestBody = true → ∀ b ∈ bufs, b.start = 0 ∧ b.size ≤ chunkSize) := by
  rw [resent_iff file cache hu, fastcgiChain, attach_start (create_parts hbody h)]
  split
  · rename_i hpass
    simp only [List.mem_flatMap, hpass, forall_const, forall_exists_index, and_imp,
      ← parts_start]
    exact ⟨fun h b hb p hp => h p b hb hp,fun h p b hb hp => h b hb p hp⟩
  · rename_i hpass
    simp [hpass]

theorem proxy_resent (cache : Option ℕ) {conf : ProxyRequest.LocConf} {bufs : List Buf}
    (out : ProxyRequest.Out) {u : Upstream} {ns : List ℕ}
    (hu : u.requestBufs = ns.foldl send (proxyChain conf out bufs)) :
    Resent file cache (proxyChain conf out bufs) u ↔
      (conf.bodySet = none ∧ conf.passRequestBody = true → ∀ b ∈ bufs, b.start = 0) := by
  have hc : (conf.bodySet.isNone && conf.passRequestBody) = true ↔
      conf.bodySet = none ∧ conf.passRequestBody = true := by
    rw [Bool.and_eq_true, Option.isNone_iff_eq_none]
  have ht : (tempBuf out.header).start = 0 := rfl
  rw [resent_iff file cache hu, proxyChain, List.forall_mem_cons, and_iff_right ht]
  split
  · rename_i hpass
    rw [forall_prop_of_true (hc.mp hpass)]
  · rename_i hpass
    simp only [List.not_mem_nil, false_imp_iff, implies_true, true_iff]
    exact fun h => absurd (hc.mpr h) hpass

def smallBuf : Buf := ⟨false,[98],0,1,0,0,by decide,le_rfl⟩

/-- The request is passed with its body. -/
def passConf : ProxyRequest.LocConf := { ProxyRequestLaw.smallConf [] with bodySet := none }

def bodyRequest : ProxyRequest.Request :=
  { ProxyRequestLaw.smallRequest with requestBufs := [smallBuf].map toChain }

def largeBuf : Buf := ⟨true,[],0,0,0,32769,by decide,by decide⟩

end Nginx.UpstreamResend
