import Nginx.ResolverAnswersLaw
import Nginx.ResolverCopyLaw

/-!
# Well-formed answers

Resource records with their owner names, as a memory holds them. When the first
pass reads every record where it stands, the addresses are those of the records;
a record it does not get over ends it with none.
-/

set_option autoImplicit false

namespace Nginx.ResolverRecords
open Nginx.ResolverCopy Nginx.ResolverCopyLaw Nginx.ResolverAnswers Nginx.ResolverAnswersLaw

structure Label where
  text : List UInt8
  nonempty : text ≠ []
  short : text.length < 64

def Label.bytes (l : Label) : List UInt8 := UInt8.ofNat l.text.length::l.text

/-- How a name ends: with the root or with a compression pointer -/
inductive Ending where
  | root
  | pointer (hi lo : UInt8) (h : 192 ≤ hi)

def Ending.bytes : Ending → List UInt8
  | .root => [0]
  | .pointer hi lo _ => [hi, lo]

structure Owner where
  labels : List Label
  ending : Ending

def Owner.bytes (o : Owner) : List UInt8 := o.labels.flatMap Label.bytes++o.ending.bytes

def Owner.Root (o : Owner) : Prop := o.labels = [] ∧ o.ending = .root

def bigEndian (v : ℕ) : List UInt8 := [UInt8.ofNat (v/2^8), UInt8.ofNat (v%2^8)]

structure Record where
  owner : Owner
  qtype : ℕ
  qclass : ℕ
  ttl : ℕ
  data : List UInt8
  qtype_lt : qtype < 2^16
  data_lt : data.length < 2^16
  /-- the data of an A record is an address -/
  address : qtype = 1 → data.length = 4

@[grind =] def Record.header (r : Record) : List UInt8 :=
  bigEndian r.qtype++bigEndian r.qclass++bigEndian (r.ttl/2^16)++bigEndian r.ttl++
    bigEndian r.data.length

def Record.bytes (r : Record) : List UInt8 := r.owner.bytes++r.header++r.data

def Record.Known (r : Record) : Prop := r.qtype = 1 ∨ r.qtype = 5 ∨ r.qtype = 39

def Record.inAddr (r : Record) : ℕ := ResolverAnswers.inAddr (fun k => r.data.getD k 0) 0

def size (rs : List Record) : ℕ := (rs.map fun r => r.bytes.length).sum

def aRecords (rs : List Record) : List ℕ :=
  (rs.filter fun r => r.qtype = 1).map Record.inAddr

@[grind =] def Holds (buf : ℕ → UInt8) : ℕ → List UInt8 → Prop
  | _, [] => True
  | i, c::cs => buf i = c ∧ Holds buf (i+1) cs

/-- Every record can be read where it stands: only the last has an unknown type, no owner is the
root, and the response goes on behind the last header. -/
structure Plain (rs : List Record) (i last : ℕ) : Prop where
  known : ∀ front r rest, rs = front++r::rest → rest ≠ [] → r.Known
  owner : ∀ r ∈ rs, ¬r.owner.Root
  room : ∀ front r, rs = front++[r] → r.data = [] → i+size rs < last

def Low (rs : List Record) : Prop := ∀ r ∈ rs, r.qtype < 2^8

section Memory
variable (buf : ℕ → UInt8) (last : ℕ)

variable (i : ℕ)

theorem holds_append (a b : List UInt8) :
    Holds buf i (a++b) ↔ Holds buf i a ∧ Holds buf (i+a.length) b := by
  induction a generalizing i with
  | nil => simp [Holds]
  | cons c a ih =>
    rw [List.cons_append, Holds, Holds, ih, List.length_cons, and_assoc,
      show i+1+a.length = i+(a.length+1) by omega]

theorem holds_get (k : ℕ) (a : List UInt8) (h : Holds buf i a) (hk : k < a.length) :
    buf (i+k) = a.getD k 0 := by
  induction a generalizing i k with
  | nil => cases hk
  | cons c a ih =>
    rcases k with _ | k
    · exact h.1
    have := ih (i+1) k h.2 (Nat.lt_of_succ_lt_succ hk)
    rw [show i+(k+1) = i+1+k by omega, this]
    rfl

theorem two_bytes_holds (v : ℕ) (hv : v < 2^16) (h : Holds buf i (bigEndian v)) :
    twoBytes buf i = v := by
  obtain ⟨h1,h2,-⟩ := h
  rw [twoBytes, h1, h2, UInt8.toNat_ofNat', UInt8.toNat_ofNat']
  omega

omit buf last in
theorem pointer_high (c : UInt8) (h : 192 ≤ c) : IsPointer c.toNat := by
  have hall : ∀ n < 256, 192 ≤ n → IsPointer n := by decide +kernel
  exact hall c.toNat c.toNat_lt (UInt8.le_iff_toNat_le.mp h)

omit buf last in
theorem pointer_low (n : ℕ) (h : n < 64) : ¬IsPointer n := by
  have hall : ∀ n < 64, ¬IsPointer n := by decide
  exact hall n h

theorem skip_root (start k : ℕ) (h : Holds buf start [0]) (hin : start < last) :
    skipName buf last start (k+1) start = .error .invalidName := by
  rw [skipName, if_pos hin, h.1, if_neg pointer_zero, if_pos rfl, if_pos (by omega)]

theorem skip_owner (o : Owner) (start k i : ℕ) (h : Holds buf i o.bytes)
    (hin : i+o.bytes.length ≤ last) (hk : last-i ≤ k) (hs : start ≤ i)
    (hroot : ¬(i = start ∧ o.Root)) :
    skipName buf last start k i = .ok (i+o.bytes.length) := by
  obtain ⟨labels,ending⟩ := o
  induction labels generalizing k i with
  | nil =>
    rcases ending with _ | ⟨hi,lo,hge⟩
    · have hlen : (Owner.bytes ⟨[],.root⟩).length = 1 := rfl
      have h0 : buf i = 0 := h.1
      have hne : i ≠ start := fun he => hroot ⟨he,rfl,rfl⟩
      rw [hlen] at hin ⊢
      obtain ⟨k,rfl⟩ : ∃ n, k = n+1 := ⟨k-1,by omega⟩
      rw [skipName, if_pos (by omega), h0, if_neg pointer_zero, if_pos rfl, if_neg (by omega)]
    have hlen : (Owner.bytes ⟨[],.pointer hi lo hge⟩).length = 2 := rfl
    have hb : buf i = hi := h.1
    rw [hlen] at hin ⊢
    obtain ⟨k,rfl⟩ : ∃ n, k = n+1 := ⟨k-1,by omega⟩
    rw [skipName, if_pos (by omega), hb, if_pos (pointer_high hi hge)]
  | cons l labels ih =>
    have hbytes : Owner.bytes ⟨l::labels,ending⟩ = l.bytes++Owner.bytes ⟨labels,ending⟩ := by
      simp [Owner.bytes]
    have hlen : l.bytes.length = l.text.length+1 := rfl
    have hpos := List.length_pos_iff.mpr l.nonempty
    have hshort := l.short
    rw [hbytes, holds_append] at h
    rw [hbytes, List.length_append, hlen] at hin ⊢
    have hn : (UInt8.ofNat l.text.length).toNat = l.text.length := by
      rw [UInt8.toNat_ofNat']
      omega
    have hb : buf i = UInt8.ofNat l.text.length := h.1.1
    have hz : UInt8.ofNat l.text.length ≠ 0 := by
      intro h0
      rw [h0] at hn
      have : (0 : UInt8).toNat = 0 := rfl
      omega
    obtain ⟨k,rfl⟩ : ∃ n, k = n+1 := ⟨k-1,by omega⟩
    rw [skipName, if_pos (by omega), hb, hn, if_neg (pointer_low _ hshort), if_neg hz]
    rw [hlen] at h
    have hnext : i+(l.text.length+1) = i+1+l.text.length := by omega
    rw [hnext] at h
    rw [ih k (i+1+l.text.length) (by omega) (by omega) h.2 (by omega) (by omega)]
    congr 1
    omega

section Read
variable (r : Record) (i : ℕ) (h : Holds buf i r.bytes)
include h

theorem record_fields : twoBytes buf (i+r.owner.bytes.length) = r.qtype ∧
    twoBytes buf (i+r.owner.bytes.length+8) = r.data.length ∧
    (r.qtype = 1 → inAddr buf (i+r.owner.bytes.length+10) = r.inAddr) := by
  rw [Record.bytes, holds_append, holds_append, List.length_append] at h
  obtain ⟨⟨-,hh⟩,hd⟩ := h
  simp only [Record.header, holds_append] at hh
  refine ⟨two_bytes_holds buf _ _ r.qtype_lt hh.1.1.1.1,two_bytes_holds buf _ _ r.data_lt hh.2,
    fun h1 => ?_⟩
  have hlen := r.address h1
  have hoff : i+(r.owner.bytes.length+r.header.length) = i+r.owner.bytes.length+10 := by
    have : r.header.length = 10 := rfl
    omega
  rw [hoff] at hd
  have hget (k : ℕ) (hk : k < 4) : buf (i+r.owner.bytes.length+10+k) = r.data.getD k 0 :=
    holds_get buf _ k r.data hd (by omega)
  rw [Record.inAddr, ResolverAnswers.inAddr, ResolverAnswers.inAddr, ← hget 1 (by omega),
    ← hget 2 (by omega), ← hget 3 (by omega), ← hget 0 (by omega)]

end Read

variable (r : Record)

theorem record_length : r.bytes.length = r.owner.bytes.length+10+r.data.length := by
  have : r.header.length = 10 := rfl
  rw [Record.bytes, List.length_append, List.length_append, this]

/-! ## The first pass -/

theorem first_turn_of (s : First) (j : ℕ) (hj : skipName buf last s.i (last-s.i) s.i = .ok j)
    (hin : j+10 < last) (hA : twoBytes buf j = 1 → j+10+twoBytes buf (j+8) ≤ last) :
    ∃ t, firstTurn buf last s = .ok t := by
  rw [firstTurn, hj]
  simp only
  rw [if_neg (by omega)]
  by_cases h1 : twoBytes buf j = 1
  · rw [if_pos h1, if_neg (by have := hA h1; omega)]
    exact ⟨_,rfl⟩
  rw [if_neg h1]
  split_ifs
  · exact ⟨_,rfl⟩
  · exact ⟨_,rfl⟩
  · exact ⟨_,rfl⟩

instance (r : Record) : Decidable r.Known := inferInstanceAs (Decidable (_ ∨ _))

section Turn
variable (r : Record) (s : First) (h : Holds buf s.i r.bytes) (hin : s.i+r.bytes.length ≤ last)
include h

theorem visit_known : Visit.Known buf ⟨s.i,s.i+r.owner.bytes.length⟩ ↔ r.Known := by
  rw [Visit.Known, Record.Known]
  have : Visit.qtype buf ⟨s.i,s.i+r.owner.bytes.length⟩ = r.qtype :=
    (record_fields buf r s.i h).1
  rw [this]

include hin

theorem record_skip (hroot : ¬r.owner.Root) :
    skipName buf last s.i (last-s.i) s.i = .ok (s.i+r.owner.bytes.length) := by
  have hlen := record_length r
  rw [Record.bytes, List.append_assoc, holds_append] at h
  exact skip_owner buf last r.owner s.i _ s.i h.1 (by omega) le_rfl le_rfl fun h => hroot h.2

theorem record_turn (hroot : ¬r.owner.Root) (hroom : s.i+r.owner.bytes.length+10 < last) :
    ∃ t, firstTurn buf last s = .ok t ∧
      t.i = if r.Known then s.i+r.bytes.length else s.i+r.owner.bytes.length := by
  have hlen := record_length r
  obtain ⟨-,hdata,-⟩ := record_fields buf r s.i h
  have hj := record_skip buf last r s h hin hroot
  obtain ⟨t,ht⟩ := first_turn_of buf last s _ hj hroom fun _ => by rw [hdata]; omega
  obtain ⟨j,hj',-,hi,-⟩ := first_turn_ok buf last s t ht
  rw [hj] at hj'
  cases hj'
  refine ⟨t,ht,?_⟩
  rw [hi, Visit.next]
  by_cases hk : r.Known
  · rw [if_pos ((visit_known buf r s h).mpr hk), if_pos hk]
    change s.i+r.owner.bytes.length+10+twoBytes buf (s.i+r.owner.bytes.length+8) = _
    rw [hdata]
    omega
  · rw [if_neg fun h' => hk ((visit_known buf r s h).mp h'), if_neg hk]

end Turn

variable (rs : List Record)

theorem plain_cons (i : ℕ) :
    Plain (r::rs) i last ↔
    (rs ≠ [] → r.Known) ∧ ¬r.owner.Root ∧
      (rs = [] → r.data = [] → i+r.bytes.length < last) ∧ Plain rs (i+r.bytes.length) last := by
  have hsize : size (r::rs) = r.bytes.length+size rs := rfl
  constructor
  · intro h
    refine ⟨fun hne => h.known [] r rs rfl hne,h.owner r (by simp),fun he hd => ?_,
      fun front x rest he hne => h.known (r::front) x rest (by rw [he]; rfl) hne,
      fun x hx => h.owner x (by simp [hx]),fun front x he hd => ?_⟩
    · subst he
      exact h.room [] r rfl hd
    · have := h.room (r::front) x (by rw [he]; rfl) hd
      rw [hsize] at this
      omega
  · rintro ⟨hk,ho,hr,h⟩
    refine ⟨fun front x rest he hne => ?_,List.forall_mem_cons.mpr ⟨ho,h.owner⟩,
      fun front x he hd => ?_⟩
    · rcases front with _ | ⟨y,front⟩
      · obtain ⟨rfl,rfl⟩ := List.cons.inj he
        exact hk hne
      · exact h.known front x rest (List.cons.inj he).2 hne
    · rcases front with _ | ⟨y,front⟩
      · obtain ⟨rfl,rfl⟩ := List.cons.inj he
        exact hr rfl hd
      obtain ⟨-,rfl⟩ := List.cons.inj he
      have := h.room front x rfl hd
      rw [hsize]
      omega

theorem room_behind (i : ℕ) (hin : i+size (r::rs) ≤ last) (hne : rs ≠ []) :
    i+r.owner.bytes.length+10 < last := by
  rcases rs with _ | ⟨x,rs⟩
  · exact absurd rfl hne
  have hsize : size (r::x::rs) = r.bytes.length+(x.bytes.length+size rs) := rfl
  have h1 := record_length r
  have h2 := record_length x
  omega

theorem a_records_cons :
    aRecords (r::rs) = (if r.qtype = 1 then [r.inAddr] else [])++aRecords rs := by
  by_cases h : r.qtype = 1
  · simp [aRecords, h]
  · simp [aRecords, h]

theorem plain_pass (s : First) (hp : Plain rs s.i last)
    (hh : Holds buf s.i (rs.flatMap Record.bytes)) (hin : s.i+size rs ≤ last) :
    ∃ s', firstPass buf last rs.length s = .ok s' ∧
      seenOf buf (visits buf last rs.length s.i) = aRecords rs ∧
      InStep buf last (visits buf last rs.length s.i) := by
  induction rs generalizing s with
  | nil => exact ⟨s,rfl,rfl,⟨fun front v rest he => (by simp [visits] at he),
      fun v hv => (by simp [visits] at hv)⟩⟩
  | cons r rs ih =>
    obtain ⟨hknown,hroot,hroom,hrest⟩ := (plain_cons last r rs s.i).mp hp
    rw [List.flatMap_cons, holds_append] at hh
    have hlen := record_length r
    have hsize : size (r::rs) = r.bytes.length+size rs := rfl
    have hhead : s.i+r.owner.bytes.length+10 < last := by
      by_cases hne : rs = []
      · by_cases hd : r.data = []
        · have := hroom hne hd
          rw [hd] at hlen
          simp only [List.length_nil] at hlen
          omega
        · have := List.length_pos_iff.mpr hd
          omega
      · exact room_behind last r rs s.i hin hne
    obtain ⟨t,ht,hti⟩ := record_turn buf last r s hh.1 (by omega) hroot hhead
    obtain ⟨hq,hdata,haddr⟩ := record_fields buf r s.i hh.1
    have hv : visits buf last (rs.length+1) s.i =
        ⟨s.i,s.i+r.owner.bytes.length⟩::visits buf last rs.length t.i := by
      obtain ⟨j,hj,-,hi,-⟩ := first_turn_ok buf last s t ht
      have hj' := record_skip buf last r s hh.1 (by omega) hroot
      rw [hj] at hj'
      cases hj'
      rw [visits, hj, hi]
    have hqt : Visit.qtype buf ⟨s.i,s.i+r.owner.bytes.length⟩ = r.qtype := hq
    have hseen : (if Visit.qtype buf ⟨s.i,s.i+r.owner.bytes.length⟩ = 1 then
        [inAddr buf (s.i+r.owner.bytes.length+10)] else []) =
        if r.qtype = 1 then [r.inAddr] else [] := by
      rw [hqt]
      split_ifs with h1
      · rw [haddr h1]
      · rfl
    have hwhole : r.qtype = 1 → s.i+r.owner.bytes.length+14 ≤ last := by
      intro h1
      have := r.address h1
      omega
    rw [List.length_cons, hv, seen_of_cons, hseen, a_records_cons, in_step_cons, hqt, firstPass, ht]
    by_cases hk : r.Known
    · rw [if_pos hk] at hti
      obtain ⟨s',hrun,h1,h2⟩ := ih t (hti ▸ hrest) (hti ▸ hh.2) (by omega)
      exact ⟨s',hrun,by rw [h1],fun h => absurd ((visit_known buf r s hh.1).mpr hk) h,
        hwhole,h2⟩
    have hnil : rs = [] := by
      by_contra hne
      exact hk (hknown hne)
    subst hnil
    exact ⟨t,rfl,rfl,fun _ => rfl,hwhole,⟨fun front v rest he => (by simp [visits] at he),
      fun v hv => (by simp [visits] at hv)⟩⟩

theorem not_plain_pass (s : First) (hlow : Low rs) (hp : ¬Plain rs s.i last)
    (hh : Holds buf s.i (rs.flatMap Record.bytes)) (hin : s.i+size rs ≤ last) :
    ∃ e, firstPass buf last rs.length s = .error e := by
  induction rs generalizing s with
  | nil =>
    exact absurd ⟨fun front r rest he => (by simp at he),fun r hr => (by cases hr),
      fun front r he => (by simp at he)⟩ hp
  | cons r rs ih =>
    rw [plain_cons] at hp
    rw [List.flatMap_cons, holds_append] at hh
    have hlen := record_length r
    have hsize : size (r::rs) = r.bytes.length+size rs := rfl
    rw [List.length_cons, firstPass]
    by_cases hroot : r.owner.Root
    · have hbytes : r.owner.bytes = [0] := by
        rw [Owner.bytes, hroot.1, hroot.2]
        rfl
      have h0 : Holds buf s.i [0] := by
        have := hh.1
        rw [Record.bytes, List.append_assoc, holds_append, hbytes] at this
        exact this.1
      have hs : last-s.i = (last-s.i-1)+1 := by omega
      refine ⟨.invalidName,?_⟩
      rw [firstTurn, hs, skip_root buf last s.i _ h0 (by omega)]
    by_cases hroom : s.i+r.owner.bytes.length+10 < last
    · obtain ⟨t,ht,hti⟩ := record_turn buf last r s hh.1 (by omega) hroot hroom
      rw [ht]
      simp only
      have hlast : rs ≠ [] := by
        rintro rfl
        refine hp ⟨fun h => absurd rfl h,hroot,fun _ hd => ?_,
          ⟨fun front x rest he => (by simp at he),fun x hx => (by cases hx),
            fun front x he => (by simp at he)⟩⟩
        rw [hd, List.length_nil] at hlen
        omega
      by_cases hk : r.Known
      · rw [if_pos hk] at hti
        refine ih t (fun x hx => hlow x (by simp [hx])) (fun hrest => ?_) (hti ▸ hh.2) (by omega)
        exact hp ⟨fun _ => hk,hroot,fun h => absurd h hlast,hti ▸ hrest⟩
      rw [if_neg hk] at hti
      -- the next name is looked for at the type, which begins with a zero byte
      obtain ⟨n,hn⟩ : ∃ n, rs.length = n+1 := ⟨rs.length-1,by
        have := List.length_pos_iff.mpr hlast
        omega⟩
      have h0 : Holds buf t.i [0] := by
        have hq := (record_fields buf r s.i hh.1).1
        have hl := hlow r (by simp)
        rw [hti]
        refine ⟨?_,trivial⟩
        rw [← zero_iff]
        rw [twoBytes] at hq
        omega
      have hs : last-t.i = (last-t.i-1)+1 := by omega
      refine ⟨.invalidName,?_⟩
      rw [hn, firstPass, firstTurn, hs, skip_root buf last t.i _ h0 (by omega)]
    refine ⟨.short,?_⟩
    rw [firstTurn, record_skip buf last r s hh.1 (by omega) hroot]
    simp only
    rw [if_pos (by omega)]

/-! ## The addresses -/

theorem plain_addresses (ans fuel : ℕ) (hp : Plain rs ans last)
    (hh : Holds buf ans (rs.flatMap Record.bytes)) (hin : ans+size rs ≤ last) (hf : last ≤ fuel) :
    addresses buf last fuel rs.length ans = some (aRecords rs) := by
  obtain ⟨s,hrun,hseen,hstep⟩ := plain_pass buf last rs ⟨ans,0,0,none,0,[],[]⟩ hp hh hin
  obtain ⟨-,-,hcount,haddr⟩ := first_pass_visits buf last rs.length _ s hrun
  simp only [Nat.zero_add] at hcount haddr hseen
  rw [hseen] at hcount haddr
  rw [addresses, counted, hrun]
  simp only
  by_cases h0 : s.naddrs = 0
  · rw [if_pos h0]
    rw [h0] at hcount
    rw [List.length_eq_zero_iff.mp hcount.symm]
  by_cases h1 : s.naddrs = 1
  · rw [if_neg h0, if_pos h1]
    rw [h1] at hcount
    obtain ⟨x,hx⟩ := List.length_eq_one_iff.mp hcount.symm
    rw [haddr, hx]
    rfl
  rw [if_neg h0, if_neg h1]
  have hnum : s.naddrs = ([] : List ℕ).length+
      (seenOf buf (visits buf last rs.length ans)).length := by
    rw [hseen, List.length_nil, Nat.zero_add]
    exact hcount
  have hpos : seenOf buf (visits buf last rs.length ans) ≠ [] := by
    rw [hseen]
    intro hnil
    rw [hnil] at hcount
    exact h0 hcount
  obtain ⟨o,ho,-,hstored,-⟩ := second_in_step buf last fuel s.naddrs rs.length _ s
    ⟨ans,[],[],[]⟩ hrun rfl hnum hpos hf hstep
  rw [storing, ho, Option.map_some, hstored, List.nil_append, hseen]

theorem not_plain_addresses (ans fuel : ℕ) (hlow : Low rs) (hp : ¬Plain rs ans last)
    (hh : Holds buf ans (rs.flatMap Record.bytes)) (hin : ans+size rs ≤ last) :
    addresses buf last fuel rs.length ans = some [] := by
  obtain ⟨e,hrun⟩ := not_plain_pass buf last rs ⟨ans,0,0,none,0,[],[]⟩ hlow hp hh hin
  rw [addresses, counted, hrun]

/-- The passes agree if and only if no record of an unknown type stands before an address and
each address is whole. The addresses of well-formed answers are those of their A records when
the answers are plain; when all record types have one byte, also when there is no A record, and
otherwise not. -/
theorem process_a_passes :
    (∀ nan ans s, counted buf last nan ans = .ok s → 2 ≤ s.naddrs →
      ((∃ fuel o, storing buf fuel s.naddrs nan ans = some o ∧ Agrees last s o) ↔
        InStep buf last (visits buf last nan ans))) ∧
    ∀ rs ans, Holds buf ans (rs.flatMap Record.bytes) → ans+size rs ≤ last →
      (Plain rs ans last →
        ∀ fuel, last ≤ fuel → addresses buf last fuel rs.length ans = some (aRecords rs)) ∧
      (Low rs → ((∀ fuel, last ≤ fuel → addresses buf last fuel rs.length ans =
        some (aRecords rs)) ↔ Plain rs ans last ∨ aRecords rs = [])) := by
  refine ⟨fun nan ans s => passes_agree_iff buf last nan ans s,fun rs ans hh hin =>
    ⟨fun hp fuel hf => plain_addresses buf last rs ans fuel hp hh hin hf,fun hlow => ?_⟩⟩
  constructor
  · intro hall
    by_cases hp : Plain rs ans last
    · exact .inl hp
    have := hall last le_rfl
    rw [not_plain_addresses buf last rs ans last hlow hp hh hin] at this
    exact .inr (Option.some.inj this).symm
  · intro h fuel hf
    by_cases hp : Plain rs ans last
    · exact plain_addresses buf last rs ans fuel hp hh hin hf
    · rw [h.resolve_left hp]
      exact not_plain_addresses buf last rs ans fuel hlow hp hh hin

end Memory

/-! ## Two responses -/

def answer (qtype : ℕ) (data : List UInt8) (hq : qtype < 2^16) (hd : data.length < 2^16)
    (ha : qtype = 1 → data.length = 4) : Record :=
  ⟨⟨[],.pointer 192 12 (by decide)⟩,qtype,1,60,data,hq,hd,ha⟩

def address (a b c d : UInt8) : Record :=
  answer 1 [a, b, c, d] (by decide) (show 4 < 2^16 by decide) fun _ => rfl

/-- A response to a query for the addresses of `a` -/
def response (rs : List Record) (p : ℕ) : UInt8 :=
  ([0,1,129,128,0,1,0, UInt8.ofNat rs.length, 0,0,0,0,1,97,0,0,1,0,1]++
    rs.flatMap Record.bytes).getD p 0

theorem holds_drop (front cs : List UInt8) :
    Holds (fun p => (front++cs).getD p 0) front.length cs := by
  induction cs generalizing front with
  | nil => trivial
  | cons c cs ih =>
    have hnext := ih (front++[c])
    rw [List.append_assoc, List.singleton_append, List.length_append] at hnext
    exact ⟨by simp,hnext⟩

variable (rs : List Record)

theorem response_holds : Holds (response rs) 19 (rs.flatMap Record.bytes) :=
  holds_drop _ _

def aliased : List Record :=
  [answer 5 [1,98,0] (by decide) (by decide) (fun h => by cases h), address 1 2 3 4,
    address 5 6 7 8]

theorem process_a_passes_aliased : addresses (response aliased) 66 66 3 19 =
    some [16909060,84281096] := by
  have hplain : Plain aliased 19 66 := by
    refine ⟨fun front r rest he _ => ?_,fun r hr => ?_,fun front r he hd => ?_⟩
    · have hr : r ∈ aliased := by
        rw [he]
        simp
      simp only [aliased, List.mem_cons, List.not_mem_nil, or_false] at hr
      rcases hr with rfl | rfl | rfl
      · exact .inr (.inl rfl)
      · exact .inl rfl
      · exact .inl rfl
    · simp only [aliased, List.mem_cons, List.not_mem_nil, or_false] at hr
      rcases hr with rfl | rfl | rfl <;> exact fun h => by cases h.2
    · have hr : r ∈ aliased := by
        rw [he]
        simp
      simp only [aliased, List.mem_cons, List.not_mem_nil, or_false] at hr
      rcases hr with rfl | rfl | rfl <;> cases hd
  exact ((process_a_passes (response aliased) 66).2 aliased 19 (response_holds aliased)
    (by decide)).1 hplain 66 le_rfl

def interleaved : List Record :=
  [address 1 2 3 4, answer 28 (List.replicate 16 0) (by decide) (by decide) (fun h => by cases h),
    address 5 6 7 8]

/-- A well-formed response to the query whose addresses are not collected -/
theorem interleaved_lost : responseHeader (response interleaved) 79 = some (3, 19) ∧
    Holds (response interleaved) 19 (interleaved.flatMap Record.bytes) ∧
    19+size interleaved = 79 ∧ aRecords interleaved = [16909060,84281096] ∧
    ∀ fuel, addresses (response interleaved) 79 fuel 3 19 = some [] := by
  refine ⟨by decide,response_holds interleaved,by decide,by decide,
    fun fuel => ?_⟩
  have hrun : counted (response interleaved) 79 3 19 = .error .invalidName := by decide
  rw [addresses, hrun]

end Nginx.ResolverRecords
