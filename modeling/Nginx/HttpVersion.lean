import Nginx.Numeral
import Nginx.RequestLine

/-!
# The version of a request line

The line comes in any number of reads. Between two calls of the parser more of it is in memory, and
it may have been copied to a larger buffer with the pointers of the request.
-/

set_option autoImplicit false

namespace Nginx.HttpVersion
open Nginx.Numeral Nginx.RequestLine Nginx.UriBytes

def movePointer (d a : ℤ) : ℤ := if a = 0 then 0 else a+d

/-- The pointers that `ngx_http_alloc_large_header_buffer` moves by the distance `d` -/
def relocate (d : ℤ) (r : Request) : Request :=
  { r with
    requestStart := r.requestStart+d
    requestEnd := movePointer d r.requestEnd
    methodEnd := r.methodEnd+d
    uriStart := r.uriStart+d
    uriEnd := r.uriEnd+d
    schemaStart := movePointer d r.schemaStart
    schemaEnd := if r.schemaStart = 0 then r.schemaEnd else r.schemaEnd+d
    hostStart := movePointer d r.hostStart
    hostEnd := if r.hostStart = 0 then r.hostEnd else movePointer d r.hostEnd
    portStart := movePointer d r.portStart
    portEnd := if r.portStart = 0 then r.portEnd else r.portEnd+d
    uriExt := movePointer d r.uriExt
    argsStart := movePointer d r.argsStart
    httpProtocol := movePointer d r.httpProtocol }

/-- Memory, request and position at the next call. What has been read of the line is still there;
of a line that has not begun nothing is kept. -/
inductive Refill (mem : Memory) (r : Request) (pos : ℤ) : Memory → Request → ℤ → Prop
  | more {mem' : Memory} (h : bytes mem' r.requestStart pos = bytes mem r.requestStart pos) :
    Refill mem r pos mem' r pos
  | fresh {mem' : Memory} {pos' : ℤ} (hstate : r.state = .swStart) (hpos : 0 < pos') :
    Refill mem r pos mem' r pos'
  | moved {mem' : Memory} {d : ℤ} (hpos : 0 < pos+d) (hstart : 0 < r.requestStart+d)
    (h : bytes mem' (r.requestStart+d) (pos+d) = bytes mem r.requestStart pos) :
    Refill mem r pos mem' (relocate d r) (pos+d)

inductive Reading : Memory → Request → ℤ → Prop
  | start (mem : Memory) {pos : ℤ} (h : 0 < pos) : Reading mem newRequest pos
  | again {mem mem' : Memory} {r r' r'' : Request} {pos pos' pos'' last : ℤ}
    (h : Reading mem r pos) (hrefill : Refill mem r pos mem' r' pos')
    (hparse : ngxHttpParseRequestLine mem' r' pos' last = .again r'' pos'') :
    Reading mem' r'' pos''

def Accepted (mem : Memory) (r : Request) (next : ℤ) : Prop :=
  ∃ mem0 r0 pos0 r1 pos1 last, Reading mem0 r0 pos0 ∧ Refill mem0 r0 pos0 mem r1 pos1 ∧
    ngxHttpParseRequestLine mem r1 pos1 last = .ok r next

def httpSlash : List UInt8 := [72,84,84,80,47]

def decimal (s : List UInt8) : ℕ := value 10 (s.map fun ch => ch.toNat-48)

structure Digits (s : List UInt8) : Prop where
  some : s ≠ []
  all : ∀ ch ∈ s, isDigit ch = true

structure Protocol (mem : Memory) (r : Request) (p : ℤ) (text : List UInt8) : Prop where
  start : 0 < r.requestStart
  order : r.requestStart ≤ r.httpProtocol
  before : r.httpProtocol ≤ p
  text : bytes mem r.httpProtocol p = text

/-- A whole protocol with what is behind it, and what the request has of its numbers -/
def Version (mem : Memory) (r : Request) (p : ℤ) (ending : List UInt8) : Prop :=
  ∃ major minor, Digits major ∧ Digits minor ∧
    Protocol mem r p (httpSlash++major++dot::(minor++ending)) ∧
    r.httpMajor.toNat = decimal major%65536 ∧ r.httpMinor.toNat = decimal minor%65536

def NoDigit (ending : List UInt8) : Prop := ∀ ch ∈ ending.head?, isDigit ch = false

structure Before (r : Request) (p : ℤ) : Prop where
  none : r.httpProtocol = 0
  start : 0 < r.requestStart
  order : r.requestStart ≤ p

def Inv (mem : Memory) : LineState → Request → ℤ → Prop
  | .swStart, r, p => r.httpProtocol = 0 ∧ 0 < p
  | .swHttpH, r, p => Protocol mem r p [72]
  | .swHttpHT, r, p => Protocol mem r p [72,84]
  | .swHttpHTT, r, p => Protocol mem r p [72,84,84]
  | .swHttpHTTP, r, p => Protocol mem r p [72,84,84,80]
  | .swFirstMajorDigit, r, p => Protocol mem r p httpSlash
  | .swMajorDigit, r, p => ∃ major, Digits major ∧ Protocol mem r p (httpSlash++major) ∧
      r.httpMajor.toNat = decimal major%65536
  | .swFirstMinorDigit, r, p => ∃ major, Digits major ∧
      Protocol mem r p (httpSlash++major++[dot]) ∧ r.httpMajor.toNat = decimal major%65536
  | .swMinorDigit, r, p => Version mem r p []
  | .swSpacesAfterDigit, r, p => ∃ ending, NoDigit ending ∧ ending ≠ [] ∧ Version mem r p ending
  | .swAlmostDone, r, p => r.httpProtocol = 0 ∨ ∃ ending, NoDigit ending ∧ ending ≠ [] ∧
      Version mem r p ending
  | _, r, p => Before r p

def Done (mem : Memory) (r : Request) (p : ℤ) : Prop :=
  r.httpProtocol = 0 ∨ ∃ ending, NoDigit ending ∧ Version mem r p ending

/-! Bytes -/

variable {mem : Memory} {p : ℤ}

theorem protocol_next {r r' : Request} {text : List UInt8} (h : Protocol mem r p text)
    (hstart : r'.requestStart = r.requestStart) (hprotocol : r'.httpProtocol = r.httpProtocol) :
    Protocol mem r' (p+1) (text++[mem p]) := by
  have hbefore := h.before
  refine ⟨hstart ▸ h.start,?_,?_,?_⟩
  · rw [hstart, hprotocol]
    exact h.order
  · rw [hprotocol]
    omega
  · rw [hprotocol, bytes_succ mem _ _ hbefore, h.text]

theorem decimal_concat (s : List UInt8) (ch : UInt8) :
    decimal (s++[ch]) = decimal s*10+(ch.toNat-48) := by
  rw [decimal, List.map_append, List.map_singleton, value_concat]
  rfl

variable {ch : UInt8}

theorem digits_concat {s : List UInt8} (h : ∀ x ∈ s, isDigit x = true) (hch : isDigit ch = true) :
    Digits (s++[ch]) :=
  ⟨by simp,List.forall_mem_append.mpr ⟨h,List.forall_mem_singleton.mpr hch⟩⟩

theorem digit_range (h : isDigit ch = true) : 48 ≤ ch.toNat ∧ ch.toNat ≤ 57 := by
  simp only [isDigit, Bool.and_eq_true, decide_eq_true_eq, UInt8.le_iff_toNat_le] at h
  exact h

theorem field_next {x : UInt16} {n : ℕ} (hch : isDigit ch = true) (hx : x.toNat = n%65536) :
    (x*10+ch.toUInt16-48).toNat = (n*10+(ch.toNat-48))%65536 := by
  obtain ⟨hl,hr⟩ := digit_range hch
  simp only [UInt16.toNat_sub, UInt16.toNat_add, UInt16.toNat_mul, UInt8.toNat_toUInt16,
    UInt16.toNat_ofNat]
  omega

theorem field_first (hch : isDigit ch = true) : (ch.toUInt16-48).toNat = (ch.toNat-48)%65536 := by
  obtain ⟨hl,hr⟩ := digit_range hch
  simp only [UInt16.toNat_sub, UInt8.toNat_toUInt16, UInt16.toNat_ofNat]
  omega

/-! Turns in front of the protocol -/

section Before

variable {mem : Memory} {r r' : Request} {p : ℤ} {state state' : LineState} {other : Move}

theorem before_next (h : Before r p) (hstart : r'.requestStart = r.requestStart)
    (hprotocol : r'.httpProtocol = r.httpProtocol) : Before r' (p+1) := by
  have horder := h.order
  exact ⟨hprotocol.trans h.none,hstart ▸ h.start,by omega⟩

theorem protocol_first (h : Before r p) (hstart : r'.requestStart = r.requestStart)
    (hprotocol : r'.httpProtocol = p) (hch : mem p = 72) : Protocol mem r' (p+1) [72] := by
  refine ⟨hstart ▸ h.start,?_,?_,?_⟩
  · rw [hstart, hprotocol]
    exact h.order
  · rw [hprotocol]
    omega
  · rw [hprotocol, bytes_succ mem p p le_rfl, bytes_self, hch]
    rfl

def InFront (state : LineState) : Prop :=
  ∀ mem r p, Before r p → Inv mem state r p

/-- What a turn in front of the protocol does, as far as the protocol is concerned -/
def Quiet (mem : Memory) (r : Request) (p : ℤ) : Move → Prop
  | .next state r' => InFront state ∧ r'.requestStart = r.requestStart ∧
        r'.httpProtocol = r.httpProtocol ∨
      state = .swAlmostDone ∧ r'.httpProtocol = r.httpProtocol ∨
      state = .swHttpH ∧ r'.requestStart = r.requestStart ∧ r'.httpProtocol = p ∧ mem p = 72
  | .done r' => r'.httpProtocol = r.httpProtocol
  | .fail _ => True

theorem quiet_http09 (hother : Quiet mem r p other) :
    Quiet mem r p (http09Move other r p (mem p)) := by
  rw [http09Move]
  split_ifs with hcr hlf hch
  · exact Or.inr (Or.inl ⟨rfl,rfl⟩)
  · rfl
  · exact Or.inr (Or.inr ⟨rfl,rfl,rfl,hch⟩)
  · exact hother

theorem quiet_uri_end {spaces : LineState} (hspaces : InFront spaces)
    (hother : Quiet mem r p other) : Quiet mem r p (uriEndMove spaces other r p (mem p)) := by
  rw [uriEndMove]
  split_ifs
  · exact Or.inl ⟨hspaces,rfl,rfl⟩
  · exact Or.inr (Or.inl ⟨rfl,rfl⟩)
  · rfl
  · exact hother

def frontStates : List LineState :=
  [.swMethod, .swSpacesBeforeUri, .swSchema, .swSchemaSlash, .swSchemaSlashSlash, .swHost, .swPort,
    .swHostHttp09, .swAfterSlashInUri, .swCheckUri, .swCheckUriHttp09, .swUri, .swHttp09]

theorem front_in (h : state ∈ frontStates) : InFront state := by
  intro mem r p hbefore
  cases state with
  | swMethod | swSpacesBeforeUri | swSchema | swSchemaSlash | swSchemaSlashSlash | swHost
  | swPort | swHostHttp09 | swAfterSlashInUri | swCheckUri | swCheckUriHttp09 | swUri
  | swHttp09 => exact hbefore
  | swStart | swHttpH | swHttpHT | swHttpHTT | swHttpHTTP | swFirstMajorDigit | swMajorDigit
  | swFirstMinorDigit | swMinorDigit | swSpacesAfterDigit | swAlmostDone =>
    exact absurd h (by decide)

theorem quiet_to (r' : Request) (h : state ∈ frontStates)
    (hstart : r'.requestStart = r.requestStart) (hprotocol : r'.httpProtocol = r.httpProtocol) :
    Quiet mem r p (.next state r') :=
  Or.inl ⟨front_in h,hstart,hprotocol⟩

theorem front_quiet (h : state ∈ frontStates) : Quiet mem r p (move mem state r p) := by
  cases state with
  | swMethod =>
    rw [move, methodMove]
    split_ifs
    · exact quiet_to _ (by decide) rfl rfl
    · exact quiet_to _ (by decide) rfl rfl
    · trivial
  | swSpacesBeforeUri =>
    rw [move, spacesBeforeUriMove]
    split_ifs
    · exact quiet_to _ (by decide) rfl rfl
    · exact quiet_to _ (by decide) rfl rfl
    · exact quiet_to _ (by decide) rfl rfl
    · trivial
  | swSchema =>
    rw [move, schemaMove]
    split_ifs
    · exact quiet_to _ (by decide) rfl rfl
    · exact quiet_to _ (by decide) rfl rfl
    · trivial
  | swSchemaSlash =>
    rw [move, expectMove]
    split_ifs
    · exact quiet_to _ (by decide) rfl rfl
    · trivial
  | swSchemaSlashSlash =>
    rw [move, expectMove]
    split_ifs
    · exact quiet_to _ (by decide) rfl rfl
    · trivial
  | swHost =>
    rw [move, hostMove]
    split_ifs
    · exact quiet_to _ (by decide) rfl rfl
    · exact quiet_to _ (by decide) rfl rfl
    · exact quiet_to _ (by decide) rfl rfl
    · exact quiet_to _ (by decide) rfl rfl
    · exact quiet_to _ (by decide) rfl rfl
    · trivial
  | swPort =>
    rw [move, portMove]
    split_ifs
    · exact quiet_to _ (by decide) rfl rfl
    · exact quiet_to _ (by decide) rfl rfl
    · exact quiet_to _ (by decide) rfl rfl
    · trivial
  | swHostHttp09 =>
    rw [move, hostHttp09Move]
    split_ifs
    · exact quiet_to _ (by decide) rfl rfl
    · exact quiet_http09 trivial
  | swAfterSlashInUri =>
    rw [move, afterSlashInUriMove]
    split_ifs
    case pos => exact quiet_to _ (by decide) rfl rfl
    all_goals
      refine quiet_uri_end (front_in (by decide)) ?_
      first | trivial | exact quiet_to _ (by decide) rfl rfl
  | swCheckUri =>
    rw [move, checkUriMove]
    split_ifs
    · exact quiet_to _ (by decide) rfl rfl
    · exact quiet_to _ (by decide) rfl rfl
    · exact quiet_to _ (by decide) rfl rfl
    all_goals
      refine quiet_uri_end (front_in (by decide)) ?_
      first | trivial | exact quiet_to _ (by decide) rfl rfl
  | swCheckUriHttp09 =>
    rw [move, checkUriHttp09Move]
    split_ifs
    · exact quiet_to _ (by decide) rfl rfl
    · exact quiet_http09 (quiet_to _ (by decide) rfl rfl)
  | swUri =>
    rw [move, uriMove]
    split_ifs
    case pos => exact quiet_to _ (by decide) rfl rfl
    all_goals
      refine quiet_uri_end (front_in (by decide)) ?_
      first | trivial | exact quiet_to _ (by decide) rfl rfl
  | swHttp09 =>
    rw [move, uriHttp09Move]
    split_ifs
    · exact quiet_to _ (by decide) rfl rfl
    · exact quiet_http09 (quiet_to _ (by decide) rfl rfl)
  | swStart | swHttpH | swHttpHT | swHttpHTT | swHttpHTTP | swFirstMajorDigit | swMajorDigit
  | swFirstMinorDigit | swMinorDigit | swSpacesAfterDigit | swAlmostDone =>
    exact absurd h (by decide)

def Keeps (mem : Memory) (p : ℤ) : Move → Prop
  | .next state r => Inv mem state r (p+1)
  | .done r => Done mem r (p+1)
  | .fail _ => True

theorem quiet_keeps {m : Move} (h : Before r p) (hm : Quiet mem r p m) : Keeps mem p m := by
  cases m with
  | next state' r' =>
    rcases hm with ⟨hfront,hstart,hprotocol⟩|⟨rfl,hprotocol⟩|⟨rfl,hstart,hprotocol,hch⟩
    · exact hfront mem r' (p+1) (before_next h hstart hprotocol)
    · exact Or.inl (hprotocol.trans h.none)
    · exact protocol_first h hstart hprotocol hch
  | done r' => exact Or.inl (hm.trans h.none)
  | fail error => trivial

end Before

/-! Turns in the protocol and behind it -/

section Turns

variable {mem : Memory} {r r' : Request} {p : ℤ} {state : LineState}

theorem start_keeps (h : Inv mem .swStart r p) : Keeps mem p (startMove r p (mem p)) := by
  obtain ⟨hnone,hpos⟩ := h
  rw [startMove]
  split_ifs
  · exact ⟨hnone,by omega⟩
  · exact ⟨hnone,hpos,by change p ≤ p+1; omega⟩
  · trivial

theorem expect_keeps {text text' : List UInt8} {wanted : UInt8} (h : Protocol mem r p text)
    (htext : text++[wanted] = text')
    (hstate : ∀ r p, Protocol mem r p text' → Inv mem state r p) :
    Keeps mem p (expectMove wanted state r (mem p)) := by
  rw [expectMove]
  split_ifs with hch
  · refine hstate r (p+1) ?_
    rw [← htext, ← hch]
    exact protocol_next h rfl rfl
  · trivial

theorem first_major_keeps (h : Protocol mem r p httpSlash) :
    Keeps mem p (firstMajorDigitMove r (mem p)) := by
  rw [firstMajorDigitMove]
  split_ifs with hch
  · trivial
  · have hdigit : isDigit (mem p) = true := by
      simp only [isDigit, Bool.and_eq_true, decide_eq_true_eq, UInt8.le_iff_toNat_le,
        UInt8.lt_iff_toNat_lt, not_or, not_lt] at hch ⊢
      exact ⟨le_trans (by decide) hch.1,hch.2⟩
    refine ⟨[mem p],digits_concat (s := []) (by simp) hdigit,protocol_next h rfl rfl,?_⟩
    rw [field_first hdigit]
    exact congrArg (·%65536) (Nat.zero_add _).symm

theorem major_keeps (h : Inv mem .swMajorDigit r p) :
    Keeps mem p (majorDigitMove r (mem p)) := by
  obtain ⟨major,hmajor,hprotocol,hfield⟩ := h
  rw [majorDigitMove]
  split_ifs with hdot hdigit
  · refine ⟨major,hmajor,?_,hfield⟩
    have hnext : Protocol mem r (p+1) _ := protocol_next hprotocol rfl rfl
    rwa [hdot] at hnext
  · refine ⟨major++[mem p],digits_concat hmajor.all hdigit,?_,?_⟩
    · rw [← List.append_assoc]
      exact protocol_next hprotocol rfl rfl
    · rw [decimal_concat]
      exact field_next hdigit hfield
  · trivial

theorem first_minor_keeps (h : Inv mem .swFirstMinorDigit r p) :
    Keeps mem p (firstMinorDigitMove r (mem p)) := by
  obtain ⟨major,hmajor,hprotocol,hfield⟩ := h
  rw [firstMinorDigitMove]
  split_ifs with hdigit
  · refine ⟨major,[mem p],hmajor,digits_concat (s := []) (by simp) hdigit,?_,hfield,?_⟩
    · rw [List.append_nil, ← List.singleton_append, ← List.append_assoc]
      exact protocol_next hprotocol rfl rfl
    · rw [field_first hdigit]
      exact congrArg (·%65536) (Nat.zero_add _).symm
  · trivial

theorem version_next {ending : List UInt8} (h : Version mem r p ending)
    (hstart : r'.requestStart = r.requestStart) (hprotocol : r'.httpProtocol = r.httpProtocol)
    (hmajor : r'.httpMajor = r.httpMajor) (hminor : r'.httpMinor = r.httpMinor) :
    Version mem r' (p+1) (ending++[mem p]) := by
  obtain ⟨major,minor,hdmajor,hdminor,hp,hfmajor,hfminor⟩ := h
  refine ⟨major,minor,hdmajor,hdminor,?_,by rw [hmajor, hfmajor],by rw [hminor, hfminor]⟩
  have hnext := protocol_next hp hstart hprotocol
  simpa using hnext

theorem no_digit_next {ending : List UInt8} (ch : UInt8) (h : NoDigit ending)
    (hne : ending ≠ []) : NoDigit (ending++[ch]) := by
  intro x hx
  rw [List.head?_append_of_ne_nil _ hne] at hx
  exact h x hx

theorem no_digit_first (h : isDigit ch = false) : NoDigit ([]++[ch]) := by
  rintro x ⟨⟩
  exact h

theorem minor_keeps (h : Version mem r p []) : Keeps mem p (minorDigitMove r (mem p)) := by
  have hnext : Version mem r (p+1) _ := version_next h rfl rfl rfl rfl
  rw [minorDigitMove]
  split_ifs with hcr hlf hspace hdigit
  · exact Or.inr ⟨_,no_digit_first (by rw [hcr]; rfl),by simp,hnext⟩
  · exact Or.inr ⟨_,no_digit_first (by rw [hlf]; rfl),hnext⟩
  · exact ⟨_,no_digit_first (by rw [hspace]; rfl),by simp,hnext⟩
  · obtain ⟨major,minor,hdmajor,hdminor,hp,hfmajor,hfminor⟩ := h
    refine ⟨major,minor++[mem p],hdmajor,digits_concat hdminor.all hdigit,?_,hfmajor,?_⟩
    · rw [List.append_nil] at hp ⊢
      rw [← List.cons_append, ← List.append_assoc]
      exact protocol_next hp rfl rfl
    · rw [decimal_concat]
      exact field_next hdigit hfminor
  · trivial

theorem spaces_keeps (h : Inv mem .swSpacesAfterDigit r p) :
    Keeps mem p (spacesAfterDigitMove r (mem p)) := by
  obtain ⟨ending,hending,hne,hversion⟩ := h
  have hno := no_digit_next (mem p) hending hne
  have hnext : Version mem r (p+1) _ := version_next hversion rfl rfl rfl rfl
  rw [spacesAfterDigitMove]
  split_ifs
  · exact ⟨_,hno,by simp,hnext⟩
  · exact Or.inr ⟨_,hno,by simp,hnext⟩
  · exact Or.inr ⟨_,hno,hnext⟩
  · trivial

theorem almost_done_keeps (h : Inv mem .swAlmostDone r p) :
    Keeps mem p (almostDoneMove r p (mem p)) := by
  rw [almostDoneMove]
  split_ifs
  · rcases h with hnone|⟨ending,hending,hne,hversion⟩
    · exact Or.inl hnone
    · exact Or.inr ⟨_,no_digit_next (mem p) hending hne,version_next hversion rfl rfl rfl rfl⟩
  · trivial

theorem move_keeps (h : Inv mem state r p) : Keeps mem p (move mem state r p) := by
  cases state with
  | swStart => exact start_keeps h
  | swMethod | swSpacesBeforeUri | swSchema | swSchemaSlash | swSchemaSlashSlash | swHost
  | swPort | swHostHttp09 | swAfterSlashInUri | swCheckUri | swCheckUriHttp09 | swUri
  | swHttp09 => exact quiet_keeps h (front_quiet (by decide))
  | swHttpH => exact expect_keeps h rfl fun _ _ h => h
  | swHttpHT => exact expect_keeps h rfl fun _ _ h => h
  | swHttpHTT => exact expect_keeps h rfl fun _ _ h => h
  | swHttpHTTP => exact expect_keeps h rfl fun _ _ h => h
  | swFirstMajorDigit => exact first_major_keeps h
  | swMajorDigit => exact major_keeps h
  | swFirstMinorDigit => exact first_minor_keeps h
  | swMinorDigit => exact minor_keeps h
  | swSpacesAfterDigit => exact spaces_keeps h
  | swAlmostDone => exact almost_done_keeps h

end Turns

/-! Runs -/

/-- A request that is the same apart from the place of its bytes -/
structure Carried (mem mem' : Memory) (r r' : Request) (p d : ℤ) : Prop where
  pos : 0 < p → 0 < p+d
  start : r'.requestStart = r.requestStart+d
  startPos : 0 < r.requestStart → 0 < r'.requestStart
  protocol : r'.httpProtocol = movePointer d r.httpProtocol
  text : bytes mem' (r.requestStart+d) (p+d) = bytes mem r.requestStart p
  major : r'.httpMajor = r.httpMajor
  minor : r'.httpMinor = r.httpMinor

section Carried

variable {mem mem' : Memory} {r r' : Request} {p d : ℤ}

theorem bytes_tail {a b : ℤ} (h : bytes mem' (a+d) (p+d) = bytes mem a p) (hab : a ≤ b)
    (hbp : b ≤ p) : bytes mem' (b+d) (p+d) = bytes mem b p := by
  rw [bytes_append mem' (a+d) (b+d) (p+d) (by omega) (by omega),
    bytes_append mem a b p hab hbp] at h
  refine List.append_inj_right h ?_
  rw [bytes_length, bytes_length]
  omega

theorem Carried.none (h : Carried mem mem' r r' p d) (hnone : r.httpProtocol = 0) :
    r'.httpProtocol = 0 := by
  rw [h.protocol, hnone]
  rfl

theorem Carried.before (h : Carried mem mem' r r' p d) (hbefore : Before r p) :
    Before r' (p+d) := by
  refine ⟨h.none hbefore.none,h.startPos hbefore.start,?_⟩
  rw [h.start]
  exact Int.add_le_add_right hbefore.order d

theorem Carried.text_kept (h : Carried mem mem' r r' p d) {text : List UInt8}
    (hp : Protocol mem r p text) : Protocol mem' r' (p+d) text := by
  have hmove : r'.httpProtocol = r.httpProtocol+d := by
    have hstart := hp.start
    have horder := hp.order
    rw [h.protocol, movePointer, if_neg (by omega)]
  refine ⟨h.startPos hp.start,?_,?_,?_⟩
  · rw [h.start, hmove]
    exact Int.add_le_add_right hp.order d
  · rw [hmove]
    exact Int.add_le_add_right hp.before d
  · rw [hmove, bytes_tail h.text hp.order hp.before, hp.text]

theorem Carried.version (h : Carried mem mem' r r' p d) {ending : List UInt8}
    (hv : Version mem r p ending) : Version mem' r' (p+d) ending := by
  obtain ⟨major,minor,hdmajor,hdminor,hp,hfmajor,hfminor⟩ := hv
  exact ⟨major,minor,hdmajor,hdminor,h.text_kept hp,by rw [h.major, hfmajor],
    by rw [h.minor, hfminor]⟩

theorem Carried.inv (h : Carried mem mem' r r' p d) {state : LineState}
    (hinv : Inv mem state r p) : Inv mem' state r' (p+d) := by
  cases state with
  | swStart => exact ⟨h.none hinv.1,h.pos hinv.2⟩
  | swMethod | swSpacesBeforeUri | swSchema | swSchemaSlash | swSchemaSlashSlash | swHost
  | swPort | swHostHttp09 | swAfterSlashInUri | swCheckUri | swCheckUriHttp09 | swUri
  | swHttp09 => exact h.before hinv
  | swHttpH | swHttpHT | swHttpHTT | swHttpHTTP | swFirstMajorDigit => exact h.text_kept hinv
  | swMajorDigit | swFirstMinorDigit =>
    obtain ⟨major,hdigits,hp,hfield⟩ := hinv
    exact ⟨major,hdigits,h.text_kept hp,by rw [h.major, hfield]⟩
  | swMinorDigit => exact h.version hinv
  | swSpacesAfterDigit =>
    obtain ⟨ending,hending,hne,hv⟩ := hinv
    exact ⟨ending,hending,hne,h.version hv⟩
  | swAlmostDone =>
    rcases hinv with hnone|⟨ending,hending,hne,hv⟩
    · exact Or.inl (h.none hnone)
    · exact Or.inr ⟨ending,hending,hne,h.version hv⟩

theorem move_zero (a : ℤ) : movePointer 0 a = a := by
  rw [movePointer]
  split_ifs with h
  · exact h.symm
  · exact add_zero a

theorem carried_still (htext : bytes mem' r.requestStart p = bytes mem r.requestStart p)
    (hstart : r'.requestStart = r.requestStart) (hprotocol : r'.httpProtocol = r.httpProtocol)
    (hmajor : r'.httpMajor = r.httpMajor) (hminor : r'.httpMinor = r.httpMinor) :
    Carried mem mem' r r' p 0 := by
  refine ⟨fun h => by rwa [add_zero],by rwa [add_zero],fun h => hstart ▸ h,?_,?_,hmajor,hminor⟩
  · rw [hprotocol, move_zero]
  · rwa [add_zero, add_zero]

theorem inv_still {state : LineState} (h : Inv mem state r p)
    (htext : bytes mem' r.requestStart p = bytes mem r.requestStart p)
    (hstart : r'.requestStart = r.requestStart) (hprotocol : r'.httpProtocol = r.httpProtocol)
    (hmajor : r'.httpMajor = r.httpMajor) (hminor : r'.httpMinor = r.httpMinor) :
    Inv mem' state r' p := by
  have hinv := (carried_still htext hstart hprotocol hmajor hminor).inv h
  rwa [add_zero] at hinv

end Carried

theorem refill_keeps {mem mem' : Memory} {r r' : Request} {p p' : ℤ}
    (h : Refill mem r p mem' r' p') (hinv : Inv mem r.state r p) : Inv mem' r'.state r' p' := by
  cases h with
  | more htext => exact inv_still hinv htext rfl rfl rfl rfl
  | fresh hstate hpos =>
    rw [hstate] at hinv ⊢
    exact ⟨hinv.1,hpos⟩
  | @moved d hpos hstart htext =>
    have hcarried : Carried mem mem' r (relocate d r) p d :=
      ⟨fun _ => hpos,rfl,fun _ => hstart,rfl,htext,rfl,rfl⟩
    exact hcarried.inv hinv

variable {r : Request}

theorem loop_keeps {state : LineState} (n : ℕ) (h : Inv mem state r p) :
    (∀ r' p', parseLoop mem state r p n = .again r' p' → Inv mem r'.state r' p') ∧
      ∀ r' next, parseLoop mem state r p n = .ok r' next →
        ∃ rd q, Done mem rd (q+1) ∧ finishLine rd q = .ok r' next := by
  induction n generalizing state r p with
  | zero =>
    refine ⟨?_,fun r' next hok => by simp [parseLoop] at hok⟩
    rintro r' p' ⟨⟩
    exact inv_still h rfl rfl rfl rfl rfl
  | succ n ih =>
    have hkeeps := move_keeps h
    rw [parseLoop]
    cases hm : move mem state r p with
    | next state' r' =>
      rw [hm] at hkeeps
      exact ih hkeeps
    | done r' =>
      rw [hm] at hkeeps
      refine ⟨fun r'' p' hagain => ?_,fun r'' next hok => ⟨r',p,hkeeps,hok⟩⟩
      simp only [finishLine] at hagain
      split_ifs at hagain
    | fail error =>
      refine ⟨?_,?_⟩
      · rintro r' p' ⟨⟩
      · rintro r' next ⟨⟩

theorem reading_keeps {pos : ℤ} (h : Reading mem r pos) : Inv mem r.state r pos := by
  induction h with
  | start mem hpos => exact ⟨rfl,hpos⟩
  | again h hrefill hparse ih => exact (loop_keeps _ (refill_keeps hrefill ih)).1 _ _ hparse

/-! Accepted lines -/

/-- The protocol `HTTP/<major>.<minor>` of a line up to the position -/
structure VersionText (mem : Memory) (r : Request) (p : ℤ) (major minor : List UInt8) : Prop where
  majorDigits : Digits major
  minorDigits : Digits minor
  text : ∃ ending, NoDigit ending ∧
    bytes mem r.httpProtocol p = httpSlash++major++dot::(minor++ending)

theorem digits_first {s t : List UInt8} (hs : ∀ ch ∈ s, isDigit ch = true) (ht : NoDigit t) :
    (s++t).takeWhile isDigit = s := by
  rw [List.takeWhile_append_of_pos hs]
  cases t with
  | nil => exact List.append_nil s
  | cons ch t =>
    have hch := ht ch rfl
    rw [List.takeWhile_cons_of_neg (by rw [hch]; decide), List.append_nil]

theorem digits_end {s s' t t' : List UInt8} (hs : Digits s) (hs' : Digits s') (ht : NoDigit t)
    (ht' : NoDigit t') (h : s++t = s'++t') : s = s' ∧ t = t' := by
  have hfirst : s = s' := by
    rw [← digits_first hs.all ht, h, digits_first hs'.all ht']
  subst hfirst
  exact ⟨rfl,List.append_cancel_left h⟩

theorem version_text_unique {major minor major' minor' : List UInt8}
    (h : VersionText mem r p major minor) (h' : VersionText mem r p major' minor') :
    major = major' ∧ minor = minor' := by
  obtain ⟨ending,hending,htext⟩ := h.text
  obtain ⟨ending',hending',htext'⟩ := h'.text
  have hdot : ∀ t, NoDigit (dot::t) := by
    rintro t ch ⟨⟩
    rfl
  rw [htext, List.append_assoc, List.append_assoc] at htext'
  obtain ⟨hmajor,hrest⟩ := digits_end h.majorDigits h'.majorDigits (hdot _) (hdot _)
    (List.append_cancel_left htext')
  exact ⟨hmajor,(digits_end h.minorDigits h'.minorDigits hending hending' (List.cons.inj hrest).2).1⟩

theorem finish_ok {r r' : Request} {p next : ℤ} (h : finishLine r p = .ok r' next) :
    next = p+1 ∧ r'.httpProtocol = r.httpProtocol ∧
      r'.httpVersion = r.httpMajor.toNat*1000+r.httpMinor.toNat := by
  rw [finishLine] at h
  by_cases hfail : r.httpMajor.toNat*1000+r.httpMinor.toNat = 9 ∧ r.method ≠ .get
  · rw [if_pos hfail] at h
    cases h
  rw [if_neg hfail] at h
  obtain ⟨rfl,rfl⟩ := LineResult.ok.inj h
  exact ⟨rfl,rfl,rfl⟩

theorem accepted_text {next : ℤ} (h : Accepted mem r next) (hne : r.httpProtocol ≠ 0) :
    ∃ major minor, VersionText mem r next major minor ∧
      r.httpVersion = decimal major%65536*1000+decimal minor%65536 := by
  obtain ⟨mem0,r0,pos0,r1,pos1,last,hreading,hrefill,hparse⟩ := h
  obtain ⟨rd,q,hdone,hfinish⟩ :=
    (loop_keeps _ (refill_keeps hrefill (reading_keeps hreading))).2 _ _ hparse
  obtain ⟨rfl,hprotocol,hversion⟩ := finish_ok hfinish
  rcases hdone with hnone|⟨ending,hending,major,minor,hmajor,hminor,hp,hfmajor,hfminor⟩
  · exact absurd (hprotocol.trans hnone) hne
  refine ⟨major,minor,⟨hmajor,hminor,ending,hending,?_⟩,?_⟩
  · rw [hprotocol, hp.text]
  · rw [hversion, hfmajor, hfminor]

/-- The version of an accepted line is that of its protocol exactly if the major number fits 16 bits
and the minor one is below a thousand. -/
theorem http_version_exact {mem : Memory} {r : Request} {next : ℤ} (h : Accepted mem r next)
    (hne : r.httpProtocol ≠ 0) : (∃ major minor, VersionText mem r next major minor) ∧
      ∀ major minor, VersionText mem r next major minor →
        (r.httpVersion = 1000*decimal major+decimal minor ∧ decimal minor < 1000 ↔
          decimal major < 65536 ∧ decimal minor < 1000) := by
  obtain ⟨major,minor,htext,hversion⟩ := accepted_text h hne
  refine ⟨⟨major,minor,htext⟩,fun major' minor' htext' => ?_⟩
  obtain ⟨rfl,rfl⟩ := version_text_unique htext htext'
  rw [hversion]
  omega

def lineMemory (line : List UInt8) : Memory := fun a => line.getD (a-1).toNat 0

def readLine (line : List UInt8) : LineResult :=
  ngxHttpParseRequestLine (lineMemory line) newRequest 1 (1+line.length)

theorem line_accepted {line : List UInt8} {next : ℤ} (h : readLine line = .ok r next) :
    Accepted (lineMemory line) r next :=
  ⟨lineMemory line,newRequest,1,newRequest,1,_,.start _ one_pos,.more rfl,h⟩

def plainLine : List UInt8 :=
  [71,69,84,32,47,32,72,84,84,80,47,49,46,49]++[lf]

def plainRequest : Request :=
  { newRequest with
    method := .get, httpMajor := 1, httpMinor := 1, httpVersion := 1001
    requestStart := 1, methodEnd := 3, uriStart := 5, uriEnd := 6, httpProtocol := 7
    requestEnd := 15 }

def wrappedLine : List UInt8 :=
  [71,69,84,32,47,32,72,84,84,80,47]++[54,53,53,51,55]++[dot, 49, lf]

def wrappedRequest : Request := { plainRequest with requestEnd := 19 }

theorem lines_read : readLine plainLine = .ok plainRequest 16 ∧
    bytes (lineMemory plainLine) plainRequest.httpProtocol 16 = httpSlash++[49]++dot::([49]++[lf]) ∧
    readLine wrappedLine = .ok wrappedRequest 20 ∧
    bytes (lineMemory wrappedLine) wrappedRequest.httpProtocol 20 =
      httpSlash++[54,53,53,51,55]++dot::([49]++[lf]) ∧
    ([49].all isDigit = true ∧ [54,53,53,51,55].all isDigit = true) := by
  decide +kernel

theorem http_version_exact_plain : readLine plainLine = .ok plainRequest 16 ∧
    plainRequest.httpVersion = 1000*decimal [49]+decimal [49] := by
  obtain ⟨hread,hbytes,-,-,hone,-⟩ := lines_read
  have hdigits : Digits [49] := ⟨by decide,List.all_eq_true.mp hone⟩
  have htext : VersionText (lineMemory plainLine) plainRequest 16 [49] [49] :=
    ⟨hdigits,hdigits,[lf],no_digit_first (by decide),hbytes⟩
  exact ⟨hread,
    (((http_version_exact (line_accepted hread) (by decide)).2 _ _ htext).mpr (by decide)).1⟩

/-- A line of the version 65537.1 is accepted as one of the version 1.1. -/
theorem wrapped_version : Accepted (lineMemory wrappedLine) wrappedRequest 20 ∧
    wrappedRequest.httpProtocol ≠ 0 ∧
    VersionText (lineMemory wrappedLine) wrappedRequest 20 [54,53,53,51,55] [49] ∧
    wrappedRequest.httpVersion = 1001 ∧
    wrappedRequest.httpVersion ≠ 1000*decimal [54,53,53,51,55]+decimal [49] := by
  obtain ⟨-,-,hread,hbytes,hone,hfive⟩ := lines_read
  refine ⟨line_accepted hread,by decide,?_,rfl,by decide⟩
  exact ⟨⟨by decide,List.all_eq_true.mp hfive⟩,⟨by decide,List.all_eq_true.mp hone⟩,[lf],
    no_digit_first (by decide),hbytes⟩

end Nginx.HttpVersion
