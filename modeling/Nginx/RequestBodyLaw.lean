import Nginx.RequestBody

/-!
# What becomes of a request body

While a body is read, the part in front of `rb->buf`, the file and `rb->buf` are together what
has been received. At the end the chain describes exactly the body, except that with a
single buffer of fewer than four bytes the preread part can get lost.
-/

set_option autoImplicit false

namespace Nginx.RequestBodyLaw
open Nginx.RequestBody

structure Fresh (r : Request) : Prop where
  main : r.main = true
  start : r.headerIn.pos = 0
  stop : r.headerIn.last ≤ r.headerIn.stop
  received : r.received = r.headerIn.last
  requestBody : r.requestBody = false
  discardBody : r.discardBody = false
  bufs : r.bufs = []

def upcoming (client : ℕ → ℕ) (r : Request) (i : ℕ) : ℕ :=
  if i < r.headerIn.last-r.headerIn.pos then client (r.headerIn.pos+i)
  else client (r.received+(i-(r.headerIn.last-r.headerIn.pos)))

/-- The bytes that `r->request_body->bufs` describes. -/
def bodyBytes (r : Request) : List ℕ :=
  r.bufs.flatMap (fun b => match b with
    | .memory data => data
    | .file filePos fileLast =>
      (((r.tempFile.map TempFile.bytes).getD []).drop filePos).take (fileLast-filePos))

/-- The part in `header_in` is forgotten: the rest of the body has to be put into a single
buffer, does not fit behind that part, and just fits into a buffer that a quarter would not
make larger. -/
structure Lost (s : Settings) (r : Request) : Prop where
  single : s.inSingleBuf = true
  memory : s.inFileOnly = false
  preread : 0 < r.headerIn.last
  room : r.headerIn.stop < r.contentLength
  fits : r.contentLength = r.headerIn.last+s.bufferSize
  small : s.bufferSize < 4

def Body.written (rb : Body) : List ℕ := (rb.tempFile.map TempFile.bytes).getD []

structure Reading (client : ℕ → ℕ) (s : Settings) (r0 r : Request) (rb : Body) : Prop where
  received : (r.received+rb.rest : ℤ) = r0.contentLength
  header : r.headerIn.pos = r.headerIn.last
  file : ∀ tf, rb.tempFile = some tf → tf.offset = tf.bytes.length ∧ tf.fileOffset = tf.bytes.length
  fits : rb.data.length ≤ rb.size
  all : rb.toWriteAll = true → rb.tempFile = none ∧
    rb.first.getD []++rb.data = sent client 0 r.received
  roomy : rb.toWriteAll = true → (s.inFileOnly || s.inSingleBuf) = false →
    rb.data.length+rb.rest ≤ rb.size
  flagged : rb.toWriteAll = false → (s.inFileOnly || s.inSingleBuf) = true →
    rb.tempFile.isSome = true ∧ Body.written rb++rb.data = sent client 0 r.received
  unflagged : rb.toWriteAll = false → (s.inFileOnly || s.inSingleBuf) = false →
    rb.first.getD []++Body.written rb++rb.data = sent client 0 r.received
  split : s.inSingleBuf = true → s.inFileOnly = false → rb.first.isSome = true →
    rb.tempFile = none → 0 < r0.headerIn.last ∧ r0.headerIn.stop < r0.contentLength ∧
      rb.size = s.bufferSize ∧ (rb.data.length+rb.rest+r0.headerIn.last : ℤ) = r0.contentLength ∧
      (s.bufferSize+s.bufferSize/4+r0.headerIn.last : ℤ) ≤ r0.contentLength
  lost : Lost s r0 → rb.first.isSome = true ∧ rb.tempFile = none ∧ rb.size = s.bufferSize ∧
    (rb.data.length+rb.rest+r0.headerIn.last : ℤ) = r0.contentLength

theorem sent_append (client : ℕ → ℕ) (a b c : ℕ) (hab : a ≤ b) (hbc : b ≤ c) :
    sent client a b++sent client b c = sent client a c := by
  rw [sent, sent, sent, ← List.map_append]
  have hb : a+(b-a) = b := by omega
  have hc : c-a = (b-a)+(c-b) := by omega
  rw [hc, ← List.range'_append_1, hb]

theorem sent_length (client : ℕ → ℕ) (a b : ℕ) : (sent client a b).length = b-a := by
  rw [sent, List.length_map, List.length_range']

theorem write_at_end (tf : TempFile) (chain : List (List ℕ)) (h : tf.offset = tf.bytes.length)
    (h' : tf.fileOffset = tf.bytes.length) :
    (tf.write chain).bytes = tf.bytes++chain.flatten ∧
      (tf.write chain).offset = (tf.write chain).bytes.length ∧
      (tf.write chain).fileOffset = (tf.write chain).bytes.length := by
  have hbytes : (tf.write chain).bytes = tf.bytes++chain.flatten := by
    show tf.bytes.take tf.offset++chain.flatten++tf.bytes.drop (tf.offset+chain.flatten.length) = _
    rw [h, List.take_length, List.drop_of_length_le (Nat.le_add_right _ _), List.append_nil]
  refine ⟨hbytes,?_,?_⟩
  · rw [hbytes, List.length_append, ← h]
    rfl
  · rw [hbytes, List.length_append, ← h']
    rfl

section Loops
variable (client : ℕ → ℕ) (s : Settings) (r0 r : Request) (rb : Body)

theorem written_chain (chain : List (List ℕ)) (h : Reading client s r0 r rb) :
    (ngxHttpWriteRequestBody rb.tempFile chain).bytes = Body.written rb++chain.flatten ∧
      (ngxHttpWriteRequestBody rb.tempFile chain).offset =
        (ngxHttpWriteRequestBody rb.tempFile chain).bytes.length ∧
      (ngxHttpWriteRequestBody rb.tempFile chain).fileOffset =
        (ngxHttpWriteRequestBody rb.tempFile chain).bytes.length := by
  rw [ngxHttpWriteRequestBody, Body.written]
  cases htf : rb.tempFile with
  | none => exact write_at_end ⟨[],0,0⟩ chain rfl rfl
  | some tf =>
    obtain ⟨hoffset,hfile⟩ := h.file tf htf
    exact write_at_end tf chain hoffset hfile

theorem to_write_all (h : rb.toWriteAll = true) : rb.toWrite.flatten = rb.first.getD []++rb.data := by
  rw [Body.toWrite, if_pos h]
  cases rb.first <;> simp

theorem to_write_buf (h : rb.toWriteAll = false) : rb.toWrite.flatten = rb.data := by
  rw [Body.toWrite, h, if_neg Bool.false_ne_true]
  simp

theorem flush_reading (h : Reading client s r0 r rb) (hrest : 0 < rb.rest)
    (hfull : rb.data.length = rb.size) : Reading client s r0 r rb.flush := by
  obtain ⟨hbytes,hoffset,hfile⟩ := written_chain client s r0 r rb rb.toWrite h
  have hwritten : Body.written rb.flush = Body.written rb++rb.toWrite.flatten := hbytes
  refine ⟨h.received,h.header,fun tf htf => ?_,Nat.zero_le _,nofun,nofun,
    fun _ hflags => ⟨rfl,?_⟩,
    fun _ hflags => ?_,fun _ _ _ => nofun,fun hlost => ?_⟩
  · cases htf
    exact ⟨hoffset,hfile⟩
  · show Body.written rb.flush++[] = _
    rw [hwritten, List.append_nil]
    cases hall : rb.toWriteAll with
    | true =>
      obtain ⟨hnone,hsent⟩ := h.all hall
      rw [to_write_all rb hall, hsent, Body.written, hnone]
      rfl
    | false =>
      rw [to_write_buf rb hall]
      exact (h.flagged hall hflags).2
  · show rb.first.getD []++Body.written rb.flush++[] = _
    rw [hwritten, List.append_nil]
    cases hall : rb.toWriteAll with
    | true =>
      have := h.roomy hall hflags
      omega
    | false =>
      rw [to_write_buf rb hall, ← List.append_assoc]
      exact h.unflagged hall hflags
  · obtain ⟨-,-,hsize,hcount⟩ := h.lost hlost
    have := hlost.fits
    omega

theorem take_reading (h : Reading client s r0 r rb) (n : ℕ) (hn : n ≤ rb.rest)
    (hsize : rb.data.length+n ≤ rb.size) :
    Reading client s r0 { r with received := r.received+n }
      { rb with data := rb.data++sent client r.received (r.received+n), rest := rb.rest-n } := by
  have hlength : (rb.data++sent client r.received (r.received+n)).length = rb.data.length+n := by
    rw [List.length_append, sent_length]
    omega
  have hmore : ∀ xs, xs++rb.data = sent client 0 r.received →
      xs++(rb.data++sent client r.received (r.received+n)) = sent client 0 (r.received+n) := by
    intro xs hxs
    rw [← List.append_assoc, hxs]
    exact sent_append client 0 _ _ (Nat.zero_le _) (Nat.le_add_right _ _)
  have hreceived := h.received
  refine ⟨?_,h.header,h.file,?_,fun hall => ?_,fun hall hflags => ?_,fun hall hflags => ?_,
    fun hall hflags => hmore _ (h.unflagged hall hflags),fun hs hf hfirst hnone => ?_,
    fun hlost => ?_⟩
  · show ((r.received+n : ℕ)+(rb.rest-n : ℕ) : ℤ) = r0.contentLength
    omega
  · show (rb.data++_).length ≤ rb.size
    rw [hlength]
    exact hsize
  · obtain ⟨hnone,hsent⟩ := h.all hall
    exact ⟨hnone,hmore _ hsent⟩
  · have := h.roomy hall hflags
    show (rb.data++_).length+(rb.rest-n) ≤ rb.size
    rw [hlength]
    omega
  · obtain ⟨hsome,hsent⟩ := h.flagged hall hflags
    exact ⟨hsome,hmore _ hsent⟩
  · obtain ⟨h1,h2,h3,h4,h5⟩ := h.split hs hf hfirst hnone
    refine ⟨h1,h2,h3,?_,h5⟩
    show ((rb.data++_).length+(rb.rest-n : ℕ)+r0.headerIn.last : ℤ) = r0.contentLength
    rw [hlength]
    omega
  · obtain ⟨h1,h2,h3,h4⟩ := h.lost hlost
    refine ⟨h1,h2,h3,?_⟩
    show ((rb.data++_).length+(rb.rest-n : ℕ)+r0.headerIn.last : ℤ) = r0.contentLength
    rw [hlength]
    omega

/-- A body that has been read: what its chain describes, and where the next request starts. -/
structure Complete (r' : Request) : Prop where
  bytes : bodyBytes r' = sent client 0 r0.contentLength.toNat ↔ ¬Lost s r0
  next : ∀ i, upcoming client r' i = client (r0.contentLength.toNat+i)

theorem body_bytes_file (first : Option (List ℕ)) (tf : TempFile)
    (h : tf.fileOffset = tf.bytes.length) :
    bodyBytes { r with bufs := first.toList.map BodyBuf.memory++[.file 0 tf.fileOffset],
                       tempFile := some tf } = first.getD []++tf.bytes := by
  cases first <;> simp [bodyBytes, h]

theorem body_bytes_memory (first : Option (List ℕ)) (data : List ℕ) :
    bodyBytes { r with bufs := first.toList.map BodyBuf.memory++[.memory data], tempFile := none } =
      first.getD []++data := by
  cases first <;> simp [bodyBytes]

theorem last_buf (first : Option (List ℕ)) (b : BodyBuf) (flags : Bool) (h : flags = true) :
    (if (first.toList.map BodyBuf.memory++[b]).length > 1 ∧ flags = true then
      (first.toList.map BodyBuf.memory++[b]).tail else first.toList.map BodyBuf.memory++[b]) = [b] := by
  cases first <;> simp [h]

theorem finish_file (h : Reading client s r0 r rb) (hfile : (rb.tempFile.isSome || s.inFileOnly) = true)
    (r' : Request) (hfinish : finish s true r rb = .done r') :
    bodyBytes r' = sent client 0 r.received := by
  obtain ⟨hbytes,-,hoffset⟩ := written_chain client s r0 r rb rb.toWrite h
  rw [finish, if_pos hfile] at hfinish
  simp only [Bool.not_true, Bool.false_eq_true, if_false] at hfinish
  cases hflags : s.inFileOnly || s.inSingleBuf with
  | true =>
    rw [hflags] at hfinish
    rw [last_buf rb.first _ true rfl] at hfinish
    cases hfinish
    have hone := body_bytes_file r none _ hoffset
    rw [Option.toList_none, List.map_nil, List.nil_append, Option.getD_none, List.nil_append] at hone
    rw [hone, hbytes]
    cases hall : rb.toWriteAll with
    | true =>
      obtain ⟨hnone,hsent⟩ := h.all hall
      rw [to_write_all rb hall, hsent, Body.written, hnone]
      rfl
    | false =>
      rw [to_write_buf rb hall]
      exact (h.flagged hall hflags).2
  | false =>
    rw [hflags, if_neg (fun hc => Bool.false_ne_true hc.2)] at hfinish
    cases hfinish
    rw [body_bytes_file r rb.first _ hoffset, hbytes]
    cases hall : rb.toWriteAll with
    | true =>
      obtain ⟨hnone,-⟩ := h.all hall
      rw [hnone, (Bool.or_eq_false_iff.mp hflags).1] at hfile
      cases hfile
    | false =>
      rw [to_write_buf rb hall, ← List.append_assoc]
      exact h.unflagged hall hflags

theorem finish_memory (h : Reading client s r0 r rb) (hrest : rb.rest = 0)
    (hfile : (rb.tempFile.isSome || s.inFileOnly) = false) (saved : Bool) (r' : Request)
    (hfinish : finish s saved r rb = .done r') :
    bodyBytes r' = sent client 0 r.received ↔ ¬Lost s r0 := by
  obtain ⟨hnone,honly⟩ := Bool.or_eq_false_iff.mp hfile
  rw [Option.isSome_eq_false_iff, Option.isNone_iff_eq_none] at hnone
  rw [finish, if_neg (by rw [hfile]; exact Bool.false_ne_true)] at hfinish
  simp only [honly, Bool.false_or] at hfinish
  cases hsingle : s.inSingleBuf with
  | false =>
    rw [hsingle, if_neg (fun hc => Bool.false_ne_true hc.2)] at hfinish
    cases hfinish
    have hflags : (s.inFileOnly || s.inSingleBuf) = false := by rw [honly, hsingle]; rfl
    refine iff_of_true ?_ (fun hlost => ?_)
    · rw [body_bytes_memory]
      cases hall : rb.toWriteAll with
      | true => exact (h.all hall).2
      | false =>
        have hsent := h.unflagged hall hflags
        rwa [Body.written, hnone, Option.map_none, Option.getD_none, List.append_nil] at hsent
    · have := hlost.single
      rw [hsingle] at this
      cases this
  | true =>
    rw [hsingle, last_buf rb.first _ true rfl] at hfinish
    cases hfinish
    have hone := body_bytes_memory r none rb.data
    rw [Option.toList_none, List.map_nil, List.nil_append, Option.getD_none, List.nil_append] at hone
    rw [hone]
    have hall : rb.toWriteAll = true := by
      by_contra hall
      rw [Bool.not_eq_true] at hall
      have hsome := (h.flagged hall (by rw [hsingle, Bool.or_true])).1
      rw [hnone] at hsome
      cases hsome
    obtain ⟨-,hsent⟩ := h.all hall
    cases hfirst : rb.first with
    | none =>
      rw [hfirst] at hsent
      refine iff_of_true hsent (fun hlost => ?_)
      have := (h.lost hlost).1
      rw [hfirst] at this
      cases this
    | some first =>
      obtain ⟨hpreread,hroom,hsize,hcount,hquarter⟩ :=
        h.split hsingle honly (by rw [hfirst]; rfl) hnone
      have hfits := h.fits
      have hreceived := h.received
      refine iff_of_false (fun heq => ?_) (fun hnot => hnot
        ⟨hsingle,honly,hpreread,hroom,by omega,by omega⟩)
      have hlength := congrArg List.length heq
      rw [sent_length] at hlength
      omega

theorem finish_complete (h : Reading client s r0 r rb) (hrest : rb.rest = 0) (saved : Bool)
    (r' : Request) (hfinish : finish s saved r rb = .done r') : Complete client s r0 r' := by
  have hreceived := h.received
  have hlength : r.received = r0.contentLength.toNat := by omega
  have hkept : r'.headerIn = r.headerIn ∧ r'.received = r.received := by
    rw [finish] at hfinish
    split_ifs at hfinish <;> cases hfinish <;> exact ⟨rfl,rfl⟩
  refine ⟨?_,fun i => ?_⟩
  · rw [← hlength]
    cases hfile : rb.tempFile.isSome || s.inFileOnly with
    | true =>
      cases saved with
      | false =>
        rw [finish, if_pos hfile] at hfinish
        cases hfinish
      | true =>
        refine iff_of_true (finish_file client s r0 r rb h hfile r' hfinish) (fun hlost => ?_)
        obtain ⟨-,hnone,-,-⟩ := h.lost hlost
        rw [hnone, hlost.memory] at hfile
        cases hfile
    | false => exact finish_memory client s r0 r rb h hrest hfile saved r' hfinish
  · rw [upcoming, hkept.1, hkept.2, h.header, Nat.sub_self, if_neg (Nat.not_lt_zero i), hlength]
    rfl

def Ends : Result → Prop
  | .done r' => Complete client s r0 r'
  | .again r' rb' => Reading client s r0 r' rb' ∧ 0 < rb'.rest
  | .failed _ => True

theorem do_read_ends (saved : Bool) (answers : List Answer) (h : Reading client s r0 r rb)
    (hrest : 0 < rb.rest) (res : Result)
    (hrun : ngxHttpDoReadClientRequestBody client s saved answers r rb = some res) :
    Ends client s r0 res := by
  induction answers generalizing r rb with
  | nil => cases hrun
  | cons a as ih =>
    rw [ngxHttpDoReadClientRequestBody] at hrun
    simp only at hrun
    by_cases hfailed : rb.data.length = rb.size ∧ a.written = false
    · rw [if_pos hfailed] at hrun
      split_ifs at hrun
      cases hrun
      trivial
    rw [if_neg hfailed] at hrun
    have hroom : Reading client s r0 r (if rb.data.length = rb.size then rb.flush else rb) ∧
        (if rb.data.length = rb.size then rb.flush else rb).rest = rb.rest := by
      split_ifs with hfull
      · exact ⟨flush_reading client s r0 r rb h hrest hfull,rfl⟩
      · exact ⟨h,rfl⟩
    generalize (if rb.data.length = rb.size then rb.flush else rb) = rb1 at hrun hroom
    obtain ⟨h1,hrest1⟩ := hroom
    rw [← hrest1] at hrest
    have hfits := h1.fits
    cases hrecv : a.recv with
    | again =>
      simp only [hrecv] at hrun
      split_ifs at hrun
      · exact ih _ _ h1 hrest hrun
      · cases hrun
        exact ⟨h1,hrest⟩
    | closed =>
      simp only [hrecv] at hrun
      split_ifs at hrun
      cases hrun
      trivial
    | error =>
      simp only [hrecv] at hrun
      split_ifs at hrun
      cases hrun
      trivial
    | bytes n =>
      simp only [hrecv] at hrun
      by_cases hn : n = 0 ∨ n > (if rb1.size-rb1.data.length > rb1.rest then rb1.rest
          else rb1.size-rb1.data.length)
      · rw [if_pos hn] at hrun
        cases hrun
      rw [if_neg hn] at hrun
      have hbounds : n ≤ rb1.rest ∧ rb1.data.length+n ≤ rb1.size := by
        split_ifs at hn <;> omega
      have h2 := take_reading client s r0 r rb1 h1 n hbounds.1 hbounds.2
      by_cases hdone : rb1.rest-n = 0
      · rw [if_pos hdone] at hrun
        split_ifs at hrun
        cases hrun
        cases hfinish : finish s saved { r with received := r.received+n }
            { rb1 with data := rb1.data++sent client r.received (r.received+n),
                       rest := rb1.rest-n } with
        | done r' => exact finish_complete client s r0 _ _ h2 hdone saved r' hfinish
        | again r' rb' =>
          rw [finish] at hfinish
          split_ifs at hfinish
        | failed status => trivial
      rw [if_neg hdone] at hrun
      split_ifs at hrun
      · cases hrun
        exact ⟨h2,Nat.pos_of_ne_zero hdone⟩
      · exact ih _ _ h2 (Nat.pos_of_ne_zero hdone) hrun

end Loops

section Starts
variable (client : ℕ → ℕ) (s : Settings) (r : Request)

theorem sent_nil (a b : ℕ) (h : b ≤ a) : sent client a b = [] := by
  rw [sent, Nat.sub_eq_zero_of_le h]
  rfl

theorem header_reading (hf : Fresh r) (hpart : (r.headerIn.last : ℤ) < r.contentLength)
    (hroom : r.contentLength.toNat-r.headerIn.last ≤ r.headerIn.stop-r.headerIn.last) (r1 : Request)
    (hpos : r1.headerIn.pos = r1.headerIn.last) (hreceived : r1.received = r.received) :
    Reading client s r r1 ⟨none,sent client 0 r.headerIn.last,r.headerIn.stop,true,
      r.contentLength.toNat-r.headerIn.last,none⟩ := by
  have hstop := hf.stop
  have hall := hf.received
  refine ⟨?_,hpos,nofun,?_,fun _ => ⟨rfl,?_⟩,fun _ _ => ?_,nofun,nofun,nofun,
    fun hlost => ?_⟩
  · show (r1.received+(r.contentLength.toNat-r.headerIn.last : ℕ) : ℤ) = r.contentLength
    omega
  · show (sent client 0 r.headerIn.last).length ≤ r.headerIn.stop
    rw [sent_length]
    omega
  · rw [hreceived, hall]
    rfl
  · show (sent client 0 r.headerIn.last).length+(r.contentLength.toNat-r.headerIn.last) ≤
      r.headerIn.stop
    rw [sent_length]
    omega
  · have := hlost.room
    omega

theorem new_body_reading (hf : Fresh r) (hpart : (r.headerIn.last : ℤ) < r.contentLength)
    (hroom : ¬(r.headerIn.last ≠ 0 ∧
      r.contentLength.toNat-r.headerIn.last ≤ r.headerIn.stop-r.headerIn.last)) (r1 : Request)
    (hpos : r1.headerIn.pos = r1.headerIn.last) (hreceived : r1.received = r.received) :
    Reading client s r r1 (newBody s
      (if r.headerIn.last = 0 then none else some (sent client 0 r.headerIn.last))
      (r.contentLength.toNat-r.headerIn.last)) := by
  have hstop := hf.stop
  have hall : r1.received = r.headerIn.last := hreceived.trans hf.received
  generalize hpre : (if r.headerIn.last = 0 then none else some (sent client 0 r.headerIn.last)) = pre
  have hbytes : pre.getD [] = sent client 0 r.headerIn.last := by
    rw [← hpre]
    split_ifs with hzero
    · rw [sent_nil client 0 _ (by omega)]
      rfl
    · rfl
  have hsome : pre.isSome = true ↔ 0 < r.headerIn.last := by
    rw [← hpre]
    split_ifs with hzero
    · exact iff_of_false nofun (by omega)
    · exact iff_of_true rfl (by omega)
  have hlength : (pre.getD []).length = r.headerIn.last := by
    rw [hbytes, sent_length]
    omega
  generalize hrest : r.contentLength.toNat-r.headerIn.last = rest at hroom
  have hparts : (newBody s pre rest).first.getD []++(newBody s pre rest).data =
      sent client 0 r1.received := by
    rw [hall, ← hbytes]
    show (if _ then none else pre).getD []++(if _ then pre.getD [] else []) = pre.getD []
    split_ifs
    · rfl
    · exact List.append_nil _
  refine ⟨?_,hpos,nofun,?_,fun _ => ⟨rfl,hparts⟩,fun hflags hnot => ?_,fun hnot hflags => ?_,
    fun _ hflags => ?_,fun hs hm hfirst _ => ?_,fun hlost => ?_⟩
  · show (r1.received+rest : ℤ) = r.contentLength
    omega
  · rw [newBody]
    by_cases hcopy : rest < s.bufferSize+s.bufferSize/4 ∧ s.inSingleBuf = true ∧ pre.isSome = true
    · simp only [if_pos hcopy, if_pos hcopy.1, if_pos hcopy.2.1]
      exact Nat.le_add_left _ _
    · simp only [if_neg hcopy]
      exact Nat.zero_le _
  · have hboth : (s.inFileOnly || s.inSingleBuf) = true := hflags
    rw [hnot] at hboth
    cases hboth
  · have hboth : (s.inFileOnly || s.inSingleBuf) = false := hnot
    rw [hflags] at hboth
    cases hboth
  · have hwritten : Body.written (newBody s pre rest) = [] := rfl
    rw [hwritten, List.append_nil]
    exact hparts
  · by_cases hsmall : rest < s.bufferSize+s.bufferSize/4
    · rw [newBody] at hfirst
      by_cases hpresome : pre.isSome = true
      · simp only [if_pos (And.intro hsmall (And.intro hs hpresome))] at hfirst
        cases hfirst
      simp only [if_neg (fun hcopy : rest < s.bufferSize+s.bufferSize/4 ∧ s.inSingleBuf = true ∧
        pre.isSome = true => hpresome hcopy.2.2)] at hfirst
      exact absurd hfirst hpresome
    have hfirst' : pre.isSome = true := by
      rw [newBody] at hfirst
      simpa only [if_neg (fun hcopy : rest < s.bufferSize+s.bufferSize/4 ∧ s.inSingleBuf = true ∧
        pre.isSome = true => hsmall hcopy.1)] using hfirst
    have hlast := hsome.mp hfirst'
    have hsize : (newBody s pre rest).size = s.bufferSize := if_neg hsmall
    have hdata : (newBody s pre rest).data = [] := if_neg (fun hcopy => hsmall hcopy.1)
    refine ⟨hlast,by omega,hsize,?_,by omega⟩
    rw [hdata]
    show ((0 : ℕ)+rest+r.headerIn.last : ℤ) = r.contentLength
    omega
  · have hfits := hlost.fits
    have hfew := hlost.small
    have hsmall : ¬rest < s.bufferSize+s.bufferSize/4 := by omega
    have hsize : (newBody s pre rest).size = s.bufferSize := if_neg hsmall
    have hdata : (newBody s pre rest).data = [] := if_neg (fun hcopy => hsmall hcopy.1)
    have hfirst : (newBody s pre rest).first = pre := if_neg (fun hcopy => hsmall hcopy.1)
    refine ⟨?_,rfl,hsize,?_⟩
    · rw [hfirst]
      exact hsome.mpr hlost.preread
    · rw [hdata]
      show ((0 : ℕ)+rest+r.headerIn.last : ℤ) = r.contentLength
      omega

theorem no_body_complete (hf : Fresh r) (hzero : r.contentLength ≤ 0) (r' : Request)
    (hheader : r'.headerIn = r.headerIn) (hreceived : r'.received = r.received) (hbufs : r'.bufs = []) :
    Complete client s r r' := by
  have hnone : r.contentLength.toNat = 0 := by omega
  refine ⟨iff_of_true ?_ (fun hlost => ?_),fun i => ?_⟩
  · rw [bodyBytes, hbufs, hnone]
    rfl
  · have := hlost.fits
    have := hlost.preread
    omega
  · rw [upcoming, hheader, hreceived, hf.start, hf.received, hnone]
    split_ifs with hi
    · rfl
    · congr 1
      omega

theorem read_ends (hf : Fresh r) (fine saved : Bool) (answers : List Answer) (res : Result)
    (hrun : ngxHttpReadClientRequestBody client s fine saved answers r = some res) :
    Ends client s r res := by
  rw [ngxHttpReadClientRequestBody, hf.requestBody, hf.discardBody] at hrun
  simp only [Bool.or_false, Bool.false_eq_true, if_false] at hrun
  by_cases hfine : (!fine) = true
  · rw [if_pos hfine] at hrun
    split_ifs at hrun
    cases hrun
    trivial
  rw [if_neg hfine] at hrun
  by_cases hnegative : r.contentLength < 0
  · rw [if_pos hnegative] at hrun
    split_ifs at hrun
    cases hrun
    exact no_body_complete client s r hf (Int.le_of_lt hnegative) _ rfl rfl hf.bufs
  rw [if_neg hnegative] at hrun
  by_cases hzero : r.contentLength = 0
  · rw [if_pos hzero] at hrun
    split_ifs at hrun <;> cases hrun <;>
      exact no_body_complete client s r hf (Int.le_of_eq hzero) _ rfl rfl hf.bufs
  rw [if_neg hzero] at hrun
  have hstop := hf.stop
  have hreceived := hf.received
  simp only [hf.start, Nat.sub_zero, Nat.zero_add] at hrun
  by_cases hwhole : r.headerIn.last ≥ r.contentLength.toNat ∧ r.headerIn.last ≠ 0
  · rw [if_pos hwhole] at hrun
    split_ifs at hrun
    · cases hrun
      trivial
    all_goals
      cases hrun
      refine ⟨iff_of_true ?_ (fun hlost => ?_),fun i => ?_⟩
      · exact List.append_nil _
      · have := hlost.room
        omega
      · show (if i < r.headerIn.last-r.contentLength.toNat then client (r.contentLength.toNat+i)
          else client (r.received+(i-(r.headerIn.last-r.contentLength.toNat)))) = _
        split_ifs with hi
        · rfl
        · congr 1
          omega
  rw [if_neg hwhole] at hrun
  have hpart : (r.headerIn.last : ℤ) < r.contentLength := by omega
  by_cases hroom : r.headerIn.last ≠ 0 ∧
      r.contentLength.toNat-r.headerIn.last ≤ r.headerIn.stop-r.headerIn.last
  · rw [if_pos hroom] at hrun
    refine do_read_ends client s r _ _ saved answers ?_ ?_ res hrun
    · exact header_reading client s r hf hpart hroom.2 _ rfl rfl
    · show 0 < r.contentLength.toNat-r.headerIn.last
      omega
  rw [if_neg hroom] at hrun
  refine do_read_ends client s r _ _ saved answers ?_ ?_ res hrun
  · exact new_body_reading client s r hf hpart hroom _ rfl rfl
  · show 0 < r.contentLength.toNat-r.headerIn.last
    omega

end Starts

/-- The calls that read the body of a request: the first one, and those of the handler. -/
inductive Reads (client : ℕ → ℕ) (s : Settings) (r : Request) : Result → Prop where
  | first (fine saved : Bool) (answers : List Answer) (res : Result)
      (h : ngxHttpReadClientRequestBody client s fine saved answers r = some res) : Reads client s r res
  | handler (saved : Bool) (answers : List Answer) (r' : Request) (rb : Body) (res : Result)
      (h : Reads client s r (.again r' rb))
      (hrun : ngxHttpDoReadClientRequestBody client s saved answers r' rb = some res) :
      Reads client s r res

theorem reads_ends (client : ℕ → ℕ) (s : Settings) (r : Request) (hf : Fresh r) (res : Result)
    (h : Reads client s r res) : Ends client s r res := by
  induction h with
  | first fine saved answers res h => exact read_ends client s r hf fine saved answers res h
  | handler saved answers r' rb res h hrun ih =>
    exact do_read_ends client s r r' rb saved answers ih.1 ih.2 res hrun

inductive Discards (r : Request) : Request → Prop where
  | first (fine ready : Bool) (answers : List Answer) (r' : Request)
      (h : ngxHttpDiscardRequestBody fine ready answers r = some (some r')) : Discards r r'
  | done (ready : Bool) (answers : List Answer) (r1 r' : Request) (h : Discards r r1)
      (hrun : ngxHttpReadDiscardedRequestBody answers ready r1 = some (.done r')) :
      Discards r { r' with discardBody := false }
  | again (ready : Bool) (answers : List Answer) (r1 r' : Request) (h : Discards r r1)
      (hrun : ngxHttpReadDiscardedRequestBody answers ready r1 = some (.again r')) : Discards r r'

structure Discarding (client : ℕ → ℕ) (r r' : Request) : Prop where
  header : 0 < r'.contentLength → r'.headerIn.pos = r'.headerIn.last
  left : r'.contentLength.toNat ≤ r.contentLength.toNat
  next : ∀ i, upcoming client r' i = client (r.contentLength.toNat-r'.contentLength.toNat+i)

theorem read_discarded (client : ℕ → ℕ) (r r1 r' : Request) (ready : Bool) (answers : List Answer)
    (h : Discarding client r r1) (res : Discarded)
    (hrun : ngxHttpReadDiscardedRequestBody answers ready r1 = some res)
    (hres : res = .done r' ∨ res = .again r') : Discarding client r r' := by
  have hsame : ∀ r2, Discarding client r r2 → (res = .done r2 ∨ res = .again r2) →
      Discarding client r r' := by
    rintro r2 h2 (h3 | h3) <;> rcases hres with h4 | h4 <;> rw [h3] at h4 <;> cases h4 <;> exact h2
  induction answers generalizing ready r1 with
  | nil =>
    rw [ngxHttpReadDiscardedRequestBody] at hrun
    split_ifs at hrun
    · cases hrun
      exact hsame r1 h (Or.inl rfl)
    · cases hrun
      exact hsame r1 h (Or.inr rfl)
  | cons a as ih =>
    rw [ngxHttpReadDiscardedRequestBody] at hrun
    by_cases hend : r1.contentLength = 0 ∨ ready = false
    · rw [if_pos hend] at hrun
      cases hrun
    rw [if_neg hend] at hrun
    cases hrecv : a.recv with
    | error =>
      simp only [hrecv] at hrun
      split_ifs at hrun
      cases hrun
      exact hsame r1 h (Or.inl rfl)
    | again =>
      simp only [hrecv] at hrun
      split_ifs at hrun
      cases hrun
      exact hsame r1 h (Or.inr rfl)
    | closed =>
      simp only [hrecv] at hrun
      split_ifs at hrun
      cases hrun
      exact hsame r1 h (Or.inl rfl)
    | bytes n =>
      simp only [hrecv] at hrun
      split_ifs at hrun with hn
      have hle : n ≤ r1.contentLength.toNat := by omega
      have hheader := h.header (by omega)
      have hleft := h.left
      refine ih _ _ ?_ hrun
      refine ⟨fun _ => hheader,?_,fun i => ?_⟩
      · show (r1.contentLength-n).toNat ≤ r.contentLength.toNat
        omega
      · have hold := h.next (n+i)
        rw [upcoming, hheader, Nat.sub_self, if_neg (Nat.not_lt_zero _), Nat.sub_zero] at hold
        show (if i < r1.headerIn.last-r1.headerIn.pos then client (r1.headerIn.pos+i)
          else client (r1.received+n+(i-(r1.headerIn.last-r1.headerIn.pos)))) =
          client (r.contentLength.toNat-(r1.contentLength-n).toNat+i)
        rw [hheader, Nat.sub_self, if_neg (Nat.not_lt_zero _), Nat.sub_zero, Nat.add_assoc, hold]
        congr 1
        omega

theorem discard_first (client : ℕ → ℕ) (r r' : Request) (hf : Fresh r) (fine ready : Bool)
    (answers : List Answer) (hrun : ngxHttpDiscardRequestBody fine ready answers r = some (some r')) :
    Discarding client r r' := by
  have hreceived := hf.received
  rw [ngxHttpDiscardRequestBody, hf.main, hf.discardBody, hf.requestBody] at hrun
  simp only [Bool.not_true, Bool.or_false, Bool.false_eq_true, if_false, or_false] at hrun
  by_cases hfine : (!fine) = true
  · rw [if_pos hfine] at hrun
    split_ifs at hrun
    cases hrun
  rw [if_neg hfine] at hrun
  by_cases hzero : r.contentLength ≤ 0
  · rw [if_pos hzero] at hrun
    split_ifs at hrun
    cases hrun
    refine ⟨fun hpos => by omega,Nat.le_refl _,fun i => ?_⟩
    rw [upcoming, hf.start]
    split_ifs with hi
    · congr 1
      omega
    · congr 1
      omega
  rw [if_neg hzero] at hrun
  simp only [hf.start, Nat.sub_zero, Nat.zero_add] at hrun
  by_cases hwhole : r.headerIn.last ≠ 0 ∧ r.contentLength ≤ r.headerIn.last
  · rw [if_pos hwhole] at hrun
    split_ifs at hrun
    cases hrun
    refine ⟨fun hpos => absurd hpos (Int.lt_irrefl 0),Nat.zero_le _,fun i => ?_⟩
    show (if i < r.headerIn.last-r.contentLength.toNat then client (r.contentLength.toNat+i)
      else client (r.received+(i-(r.headerIn.last-r.contentLength.toNat)))) =
      client (r.contentLength.toNat+i)
    split_ifs with hi
    · rfl
    · congr 1
      omega
  rw [if_neg hwhole] at hrun
  have hstart : Discarding client r { r with
      headerIn := { r.headerIn with pos := r.headerIn.last },
      contentLength := r.contentLength-r.headerIn.last } := by
    refine ⟨fun _ => rfl,?_,fun i => ?_⟩
    · show (r.contentLength-r.headerIn.last).toNat ≤ r.contentLength.toNat
      omega
    · show (if i < r.headerIn.last-r.headerIn.last then client (r.headerIn.last+i)
        else client (r.received+(i-(r.headerIn.last-r.headerIn.last)))) =
        client (r.contentLength.toNat-(r.contentLength-r.headerIn.last).toNat+i)
      rw [Nat.sub_self, if_neg (Nat.not_lt_zero i)]
      congr 1
      omega
  rw [hf.main, hf.requestBody, hf.discardBody] at hstart
  split at hrun
  · cases hrun
  · rename_i r1 hread
    cases hrun
    exact read_discarded client r _ r' ready answers hstart _ hread (Or.inl rfl)
  · rename_i r1 hread
    cases hrun
    obtain ⟨h1,h2,h3⟩ := read_discarded client r _ r1 ready answers hstart _ hread (Or.inr rfl)
    exact ⟨h1,h2,h3⟩

theorem discards_law (client : ℕ → ℕ) (r r' : Request) (hf : Fresh r) (h : Discards r r') :
    Discarding client r r' := by
  induction h with
  | first fine ready answers r' h => exact discard_first client r r' hf fine ready answers h
  | done ready answers r1 r' h hrun ih =>
    obtain ⟨h1,h2,h3⟩ := read_discarded client r r1 r' ready answers ih _ hrun (Or.inl rfl)
    exact ⟨h1,h2,h3⟩
  | again ready answers r1 r' h hrun ih =>
    exact read_discarded client r r1 r' ready answers ih _ hrun (Or.inr rfl)

/-- However the body of a request arrives, both functions take from `header_in` and the
socket exactly its bytes, and a body that has been read is described by the chain if and only
if the preread part does not get lost. -/
theorem request_body_law (client : ℕ → ℕ) (s : Settings) (r : Request) (hf : Fresh r) :
    (∀ r', Reads client s r (.done r') →
      (bodyBytes r' = sent client 0 r.contentLength.toNat ↔ ¬Lost s r) ∧
      ∀ i, upcoming client r' i = client (r.contentLength.toNat+i)) ∧
    ∀ r', Discards r r' → ∀ i,
      upcoming client r' i = client (r.contentLength.toNat-r'.contentLength.toNat+i) := by
  refine ⟨fun r' h => ?_,fun r' h => (discards_law client r r' hf h).next⟩
  have hends : Complete client s r r' := reads_ends client s r hf _ h
  exact ⟨hends.bytes,hends.next⟩

/-- A request whose `header_in` is full and ends with one byte of the body. -/
def fullHeader (length : ℤ) : Request :=
  ⟨true,⟨0,1,1⟩,length,1,false,false,[],none⟩

theorem request_body_law_spilled : ∃ r', Reads id ⟨false,true,3⟩ (fullHeader 6) (.done r') ∧
    r'.bufs = [.file 0 6] ∧ bodyBytes r' = [0,1,2,3,4,5] ∧ upcoming id r' 0 = 6 := by
  have hfresh : Fresh (fullHeader 6) := ⟨rfl,rfl,by decide,rfl,rfl,rfl,rfl⟩
  have hrun : ngxHttpReadClientRequestBody id ⟨false,true,3⟩ true true
      [⟨true,.bytes 3,true⟩, ⟨true,.bytes 1,true⟩, ⟨true,.bytes 1,true⟩] (fullHeader 6) =
      some (.done ⟨true,⟨1,1,1⟩,6,6,true,false,[.file 0 6],
        some ⟨[0,1,2,3,4,5],6,6⟩⟩) := by
    decide
  have hreads := Reads.first true true _ _ hrun
  have hlaw := (request_body_law id ⟨false,true,3⟩ (fullHeader 6) hfresh).1 _ hreads
  refine ⟨_,hreads,rfl,hlaw.1.mpr (fun hlost => ?_),hlaw.2 0⟩
  exact absurd hlost.fits (by decide)

/-- With a single buffer of three bytes the first of four bytes is not in the chain. -/
theorem preread_lost : ∃ r', Reads id ⟨false,true,3⟩ (fullHeader 4) (.done r') ∧
    r'.bufs = [.memory [1,2,3]] ∧ bodyBytes r' ≠ sent id 0 4 := by
  have hrun : ngxHttpReadClientRequestBody id ⟨false,true,3⟩ true true
      [⟨true,.bytes 3,true⟩] (fullHeader 4) =
      some (.done ⟨true,⟨1,1,1⟩,4,4,true,false,[.memory [1,2,3]],none⟩) := by
    decide
  exact ⟨_,Reads.first true true _ _ hrun,rfl,by decide⟩

end Nginx.RequestBodyLaw
