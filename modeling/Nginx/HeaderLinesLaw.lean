import Nginx.HeaderLines
import Nginx.ProxyHeaderLaw

/-!
# What is recorded of a header line

The invariant says for each state of the parser what has been read of the line:
its name with the hash and the lower-case copy of the bytes taken from it, and
its value up to the last byte that is no space. It holds wherever the reads cut
the line.
-/

set_option autoImplicit false

namespace Nginx.HeaderLinesLaw
open Nginx.HeaderHash Nginx.Resumable Nginx.ProxyHeader Nginx.ProxyHeaderLaw Nginx.HeaderLines

/-! ## The name -/

def taken (allowUnderscores : Bool) (ch : UInt8) : Bool :=
  lowcase ch ≠ 0 || (ch = 95 && allowUnderscores)

def spelled (allowUnderscores : Bool) (name : List UInt8) : List UInt8 :=
  ngxStrlow (name.filter (taken allowUnderscores))

structure Describes (allowUnderscores : Bool) (name : List UInt8) (hash index : ℕ)
    (copy : ℕ → UInt8) (invalid : Bool) : Prop where
  hash : hash = ngxHashKey (spelled allowUnderscores name)
  index : index = (spelled allowUnderscores name).length%32
  copy : (spelled allowUnderscores name).length ≤ 32 →
    ∀ k c, (spelled allowUnderscores name)[k]? = some c → copy k = c
  invalid : invalid = true ↔ ∃ ch ∈ name, taken allowUnderscores ch = false

variable {allow upstream : Bool} {name : List UInt8} {hash index : ℕ} {copy : ℕ → UInt8}
  {invalid : Bool}

theorem lowcase_tolower : ∀ ch : UInt8, lowcase ch ≠ 0 → lowcase ch = ngxTolower ch := by
  decide +kernel

theorem spelled_taken {ch : UInt8} (h : taken allow ch = true) :
    spelled allow (name++[ch]) = spelled allow name++[ngxTolower ch] := by
  rw [spelled, spelled, List.filter_append, List.filter_cons_of_pos h, List.filter_nil, ngxStrlow,
    ngxStrlow, List.map_append]
  rfl

theorem spelled_left {ch : UInt8} (h : taken allow ch = false) :
    spelled allow (name++[ch]) = spelled allow name := by
  rw [spelled, spelled, List.filter_append, List.filter_cons_of_neg (by rw [h]; decide),
    List.filter_nil, List.append_nil]

theorem describes_taken (h : Describes allow name hash index copy invalid) {ch : UInt8}
    (ht : taken allow ch = true) : Describes allow (name++[ch]) (ngxHash hash (ngxTolower ch))
      ((index+1)%32) (Function.update copy index (ngxTolower ch)) invalid where
  hash := by
    rw [spelled_taken ht, h.hash, ngxHashKey, ngxHashKey, List.foldl_append]
    rfl
  index := by
    rw [spelled_taken ht, List.length_append, List.length_singleton, h.index]
    omega
  copy := by
    rw [spelled_taken ht, List.length_append, List.length_singleton]
    intro hlen k c hk
    have hindex : index = (spelled allow name).length := by
      rw [h.index]
      omega
    by_cases hlast : k < (spelled allow name).length
    · rw [List.getElem?_append_left hlast] at hk
      rw [Function.update_of_ne (by omega)]
      exact h.copy (by omega) k c hk
    rw [List.getElem?_append_right (by omega)] at hk
    have hk0 : k-(spelled allow name).length = 0 := by
      have hlt := (List.getElem?_eq_some_iff.mp hk).1
      rw [List.length_singleton] at hlt
      omega
    rw [hk0] at hk
    obtain rfl : k = index := by omega
    rw [Function.update_self]
    exact Option.some.inj hk
  invalid := by
    rw [h.invalid]
    constructor
    · rintro ⟨c,hc,hn⟩
      exact ⟨c,List.mem_append_left _ hc,hn⟩
    · rintro ⟨c,hc,hn⟩
      rcases List.mem_append.mp hc with hc | hc
      · exact ⟨c,hc,hn⟩
      · rw [List.mem_singleton.mp hc, ht] at hn
        cases hn

theorem describes_left (h : Describes allow name hash index copy invalid) {ch : UInt8}
    (ht : taken allow ch = false) : Describes allow (name++[ch]) hash index copy true where
  hash := by rw [spelled_left ht]; exact h.hash
  index := by rw [spelled_left ht]; exact h.index
  copy := by rw [spelled_left ht]; exact h.copy
  invalid := ⟨fun _ => ⟨ch,List.mem_append_right _ (List.mem_singleton_self ch),ht⟩,
    fun _ => rfl⟩

theorem taken_lowcase {ch : UInt8} (h : lowcase ch ≠ 0) : taken allow ch = true := by
  rw [taken, decide_eq_true h, Bool.true_or]

theorem describes_first {ch : UInt8} (h : lowcase ch ≠ 0) (copy : ℕ → UInt8) :
    Describes allow [ch] (ngxHash 0 (lowcase ch)) 1 (Function.update copy 0 (lowcase ch)) false := by
  have hnil : Describes allow [] 0 0 copy false :=
    ⟨rfl,rfl,fun _ k c hk => (by cases hk),by simp⟩
  have htaken : taken allow ch = true := taken_lowcase h
  have hone := describes_taken hnil htaken
  rw [← lowcase_tolower ch h] at hone
  exact hone

/-! ## The invariant -/

def Clean (xs : List UInt8) : Prop := ∀ ch ∈ xs, ch ≠ 13 ∧ ch ≠ 10 ∧ ch ≠ 0

variable (allow) (stream : List UInt8) (pos : ℕ)

def LineBegin (p : ℕ) : Prop := p = pos ∨ pos < p ∧ stream[p-1]? = some 10

/-- The line from its first byte up to `p` -/
structure Begun (start p : ℕ) : Prop where
  begins : LineBegin stream pos start
  line : 10 ∉ slice stream start p

/-- The name from its first byte up to `e`; its description begins with a byte that is a letter,
a digit or a dash. -/
structure NameAt (start e hash index : ℕ) (copy : ℕ → UInt8) (invalid : Bool) : Prop where
  some_byte : start < e
  clean : Clean (slice stream start e)
  no_colon : 58 ∉ (slice stream start e).tail
  described : ∀ first, stream[start]? = some first → lowcase first ≠ 0 →
    Describes allow (slice stream start e) hash index copy invalid

/-- The value from its first byte up to `e`, behind the name -/
structure ValueAt (nameEnd start e : ℕ) : Prop where
  behind : nameEnd ≤ start
  start_le : start ≤ e
  clean : Clean (slice stream start e)
  no_space : (slice stream start e).getLast? ≠ some 32

/-- What is recorded when a line is accepted at `p` -/
structure Recorded (p : ℕ) (l : HeaderLine) : Prop where
  begun : Begun stream pos l.headerNameStart p
  name : NameAt allow stream l.headerNameStart l.headerNameEnd l.headerHash l.lowcaseIndex
    l.lowcaseHeader l.invalidHeader
  value : ValueAt stream l.headerNameEnd l.headerStart l.headerEnd
  value_le : l.headerEnd ≤ p

def Inv (p : ℕ) (l : HeaderLine) : Prop :=
  pos ≤ p ∧ match l.state with
  | .start => LineBegin stream pos p
  | .name => Begun stream pos l.headerNameStart p ∧
      NameAt allow stream l.headerNameStart p l.headerHash l.lowcaseIndex l.lowcaseHeader
        l.invalidHeader
  | .spaceBeforeValue => Begun stream pos l.headerNameStart p ∧
      NameAt allow stream l.headerNameStart l.headerNameEnd l.headerHash l.lowcaseIndex
        l.lowcaseHeader l.invalidHeader ∧ l.headerNameEnd ≤ p
  | .value => Begun stream pos l.headerNameStart p ∧
      NameAt allow stream l.headerNameStart l.headerNameEnd l.headerHash l.lowcaseIndex
        l.lowcaseHeader l.invalidHeader ∧ ValueAt stream l.headerNameEnd l.headerStart p
  | .spaceAfterValue => Recorded allow stream pos p l ∧ Clean (slice stream l.headerEnd p)
  | .almostDone => Recorded allow stream pos p l
  | .ignoreLine => True
  | .headerAlmostDone => True

def Post (p : ℕ) : HeaderEnd → Prop
  | .done l => Recorded allow stream pos p l ∧ stream[p]? = some 10
  | .headerDone _ => True
  | .invalid _ => True

variable {allow stream pos} {p start : ℕ} {ch : UInt8} {l : HeaderLine}

theorem slice_succ {a : ℕ} (h : a ≤ p) (hch : stream[p]? = some ch) :
    slice stream a (p+1) = slice stream a p++[ch] := by
  obtain ⟨hlt,hget⟩ := List.getElem?_eq_some_iff.mp hch
  have hone : slice stream p (p+1) = [ch] := by
    rw [slice, List.drop_eq_getElem_cons hlt, hget, Nat.add_sub_cancel_left, List.take_succ_cons,
      List.take_zero]
  rw [← hone]
  exact (slice_append stream h (Nat.le_succ p)).symm

theorem slice_empty (a : ℕ) : slice stream a a = [] := by
  rw [slice, Nat.sub_self, List.take_zero]

theorem begun_next (h : Begun stream pos start p) (hs : start ≤ p) (hch : stream[p]? = some ch)
    (hne : ch ≠ 10) : Begun stream pos start (p+1) := by
  refine ⟨h.begins,?_⟩
  rw [slice_succ hs hch]
  intro hm
  rcases List.mem_append.mp hm with hm | hm
  · exact h.line hm
  · exact hne (List.mem_singleton.mp hm).symm

theorem clean_next {a : ℕ} (h : Clean (slice stream a p)) (ha : a ≤ p)
    (hch : stream[p]? = some ch) (hc : ch ≠ 13 ∧ ch ≠ 10 ∧ ch ≠ 0) :
    Clean (slice stream a (p+1)) := by
  rw [slice_succ ha hch]
  intro c hm
  rcases List.mem_append.mp hm with hm | hm
  · exact h c hm
  · rw [List.mem_singleton.mp hm]
    exact hc

theorem clean_empty (a : ℕ) : Clean (slice stream a a) := by
  rw [slice_empty]
  exact fun c hc => absurd hc List.not_mem_nil

theorem name_next {hash' index' : ℕ} {copy' : ℕ → UInt8} {invalid' : Bool}
    (h : NameAt allow stream start p hash index copy invalid) (hch : stream[p]? = some ch)
    (hc : ch ≠ 13 ∧ ch ≠ 10 ∧ ch ≠ 0) (hcolon : ch ≠ 58)
    (hd : ∀ name, Describes allow name hash index copy invalid →
      Describes allow (name++[ch]) hash' index' copy' invalid') :
    NameAt allow stream start (p+1) hash' index' copy' invalid' where
  some_byte := Nat.lt_succ_of_lt h.some_byte
  clean := clean_next h.clean h.some_byte.le hch hc
  no_colon := by
    have hne : slice stream start p ≠ [] := by
      intro he
      have hlen := congrArg List.length he
      have hp := (List.getElem?_eq_some_iff.mp hch).1
      rw [slice_length stream hp.le, List.length_nil] at hlen
      have := h.some_byte
      omega
    rw [slice_succ h.some_byte.le hch, List.tail_append_of_ne_nil hne]
    intro hm
    rcases List.mem_append.mp hm with hm | hm
    · exact h.no_colon hm
    · exact hcolon (List.mem_singleton.mp hm).symm
  described := fun first hf hl => by
    rw [slice_succ h.some_byte.le hch]
    exact hd _ (h.described first hf hl)

theorem value_empty {nameEnd : ℕ} (h : nameEnd ≤ p) : ValueAt stream nameEnd p p :=
  ⟨h,le_rfl,clean_empty p,by rw [slice_empty]; simp⟩

theorem value_next {nameEnd e : ℕ} (h : ValueAt stream nameEnd start e) (he : e ≤ p)
    (hgap : Clean (slice stream e p)) (hch : stream[p]? = some ch)
    (hc : ch ≠ 13 ∧ ch ≠ 10 ∧ ch ≠ 0) (hspace : ch ≠ 32) :
    ValueAt stream nameEnd start (p+1) where
  behind := h.behind
  start_le := Nat.le_succ_of_le (h.start_le.trans he)
  clean := by
    have hclean : Clean (slice stream start p) := by
      rw [← slice_append stream h.start_le he]
      intro c hm
      rcases List.mem_append.mp hm with hm | hm
      · exact h.clean c hm
      · exact hgap c hm
    exact clean_next hclean (h.start_le.trans he) hch hc
  no_space := by
    rw [slice_succ (h.start_le.trans he) hch, List.getLast?_concat]
    exact fun hs => hspace (Option.some.inj hs)

/-! ## One byte -/

def Kept (allow : Bool) (stream : List UInt8) (pos p : ℕ) (r : HeaderLine ⊕ HeaderEnd) : Prop :=
  r.elim (Inv allow stream pos (p+1)) (Post allow stream pos p)

theorem start_kept (hp : pos ≤ p) (hbegin : LineBegin stream pos p) (hch : stream[p]? = some ch) :
    Kept allow stream pos p (startByte p ch l) := by
  have hp' : pos ≤ p+1 := Nat.le_succ_of_le hp
  rw [startByte]
  by_cases h13 : ch = 13
  · rw [if_pos h13]
    exact ⟨hp',trivial⟩
  by_cases h10 : ch = 10
  · rw [if_neg h13, if_pos h10]
    trivial
  have hbegun : Begun stream pos p (p+1) := by
    have h0 : Begun stream pos p p := ⟨hbegin,by rw [slice_empty]; exact List.not_mem_nil⟩
    exact begun_next h0 le_rfl hch h10
  have hone : slice stream p (p+1) = [ch] := by
    rw [slice_succ le_rfl hch, slice_empty, List.nil_append]
  have hname (h0 : ch ≠ 0) (hash index : ℕ) (copy : ℕ → UInt8) (invalid : Bool)
      (hd : lowcase ch ≠ 0 → Describes allow [ch] hash index copy invalid) :
      NameAt allow stream p (p+1) hash index copy invalid := by
    refine ⟨Nat.lt_succ_self p,?_,?_,?_⟩
    · rw [hone]
      intro c hc
      rw [List.mem_singleton.mp hc]
      exact ⟨h13,h10,h0⟩
    · rw [hone]
      exact List.not_mem_nil
    · intro first hf hl
      obtain rfl : ch = first := Option.some.inj (hch.symm.trans hf)
      rw [hone]
      exact hd hl
  rw [if_neg h13, if_neg h10]
  by_cases hl : lowcase ch ≠ 0
  · have h0 : ch ≠ 0 := by
      rintro rfl
      exact hl rfl
    rw [if_pos hl]
    exact ⟨hp',hbegun,hname h0 _ _ _ _ fun _ => describes_first hl _⟩
  rw [if_neg hl]
  by_cases h0 : ch = 0
  · rw [if_pos h0]
    trivial
  · rw [if_neg h0]
    exact ⟨hp',hbegun,hname h0 _ _ _ _ fun hc => absurd hc hl⟩

theorem not_taken {ch : UInt8} (hl : ¬lowcase ch ≠ 0) (h : ch ≠ 95 ∨ allow = false) :
    taken allow ch = false := by
  rw [taken, decide_eq_false hl, Bool.false_or]
  rcases h with h | h
  · rw [decide_eq_false h, Bool.false_and]
  · rw [h, Bool.and_false]

theorem name_kept (hp : pos ≤ p) (hbegun : Begun stream pos l.headerNameStart p)
    (hname : NameAt allow stream l.headerNameStart p l.headerHash l.lowcaseIndex l.lowcaseHeader
      l.invalidHeader) (hs : l.state = .name) (hch : stream[p]? = some ch) :
    Kept allow stream pos p (nameByte allow upstream stream p ch l) := by
  have hp' : pos ≤ p+1 := Nat.le_succ_of_le hp
  have hle := hname.some_byte.le
  have hinv (hash index : ℕ) (copy : ℕ → UInt8) (invalid : Bool) (h10 : ch ≠ 10)
      (h : NameAt allow stream l.headerNameStart (p+1) hash index copy invalid) :
      Inv allow stream pos (p+1) { l with
        headerHash := hash, lowcaseIndex := index, lowcaseHeader := copy
        invalidHeader := invalid } := by
    refine ⟨hp',?_⟩
    simp only [hs]
    exact ⟨begun_next hbegun hle hch h10,h⟩
  have hleft (h13 : ch ≠ 13) (h10 : ch ≠ 10) (h0 : ch ≠ 0) (h58 : ch ≠ 58)
      (ht : taken allow ch = false) :
      Inv allow stream pos (p+1) { l with invalidHeader := true } :=
    hinv _ _ _ _ h10 (name_next hname hch ⟨h13,h10,h0⟩ h58 fun _ hd => describes_left hd ht)
  rw [nameByte]
  by_cases hl : lowcase ch ≠ 0
  · have hne : ch ≠ 13 ∧ ch ≠ 10 ∧ ch ≠ 0 ∧ ch ≠ 58 := by
      refine ⟨?_,?_,?_,?_⟩ <;>
      · rintro rfl
        exact hl rfl
    rw [if_pos hl, addName, lowcase_tolower ch hl]
    exact hinv _ _ _ _ hne.2.1 (name_next hname hch ⟨hne.1,hne.2.1,hne.2.2.1⟩ hne.2.2.2
      fun _ hd => describes_taken hd (taken_lowcase hl))
  rw [if_neg hl]
  by_cases h95 : ch = 95
  · subst h95
    rw [if_pos rfl]
    cases hallow : allow with
    | true =>
      rw [if_pos rfl]
      rw [hallow] at hinv hname
      exact hinv _ _ _ _ (by decide) (name_next hname hch (by decide) (by decide)
        fun _ hd => describes_taken hd rfl)
    | false =>
      rw [if_neg (by decide)]
      rw [hallow] at hleft
      exact hleft (by decide) (by decide) (by decide) (by decide) rfl
  rw [if_neg h95]
  by_cases h58 : ch = 58
  · rw [if_pos h58]
    refine ⟨hp',begun_next hbegun hle hch ?_,hname,Nat.le_succ p⟩
    rw [h58]
    decide
  rw [if_neg h58]
  by_cases h13 : ch = 13
  · rw [if_pos h13]
    refine ⟨hp',begun_next hbegun hle hch ?_,hname,value_empty le_rfl,Nat.le_succ p⟩
    rw [h13]
    decide
  rw [if_neg h13]
  by_cases h10 : ch = 10
  · rw [if_pos h10]
    rw [h10] at hch
    exact ⟨⟨hbegun,hname,value_empty le_rfl,le_rfl⟩,hch⟩
  rw [if_neg h10]
  split_ifs with hhttp h0
  · exact ⟨hp',trivial⟩
  · trivial
  · exact hleft h13 h10 h0 h58 (not_taken hl (.inl h95))

theorem space_before_value_kept (hp : pos ≤ p) (hbegun : Begun stream pos l.headerNameStart p)
    (hname : NameAt allow stream l.headerNameStart l.headerNameEnd l.headerHash l.lowcaseIndex
      l.lowcaseHeader l.invalidHeader) (hend : l.headerNameEnd ≤ p)
    (hs : l.state = .spaceBeforeValue) (hch : stream[p]? = some ch) :
    Kept allow stream pos p (spaceBeforeValueByte p ch l) := by
  have hp' : pos ≤ p+1 := Nat.le_succ_of_le hp
  have hle := hname.some_byte.le.trans hend
  rw [spaceBeforeValueByte]
  by_cases h32 : ch = 32
  · rw [if_pos h32]
    refine ⟨hp',?_⟩
    simp only [hs]
    refine ⟨begun_next hbegun hle hch ?_,hname,Nat.le_succ_of_le hend⟩
    rw [h32]
    decide
  rw [if_neg h32]
  by_cases h13 : ch = 13
  · rw [if_pos h13]
    refine ⟨hp',begun_next hbegun hle hch ?_,hname,value_empty hend,Nat.le_succ p⟩
    rw [h13]
    decide
  rw [if_neg h13]
  by_cases h10 : ch = 10
  · rw [if_pos h10]
    rw [h10] at hch
    exact ⟨⟨hbegun,hname,value_empty hend,le_rfl⟩,hch⟩
  rw [if_neg h10]
  by_cases h0 : ch = 0
  · rw [if_pos h0]
    trivial
  rw [if_neg h0]
  exact ⟨hp',begun_next hbegun hle hch h10,hname,
    value_next (value_empty hend) le_rfl (clean_empty p) hch ⟨h13,h10,h0⟩ h32⟩

theorem value_kept (hp : pos ≤ p) (hbegun : Begun stream pos l.headerNameStart p)
    (hname : NameAt allow stream l.headerNameStart l.headerNameEnd l.headerHash l.lowcaseIndex
      l.lowcaseHeader l.invalidHeader) (hvalue : ValueAt stream l.headerNameEnd l.headerStart p)
    (hs : l.state = .value) (hch : stream[p]? = some ch) :
    Kept allow stream pos p (valueByte p ch l) := by
  have hp' : pos ≤ p+1 := Nat.le_succ_of_le hp
  have hle := (hname.some_byte.le.trans hvalue.behind).trans hvalue.start_le
  rw [valueByte]
  by_cases h32 : ch = 32
  · have hne : ch ≠ 13 ∧ ch ≠ 10 ∧ ch ≠ 0 := by
      rw [h32]
      decide
    rw [if_pos h32]
    exact ⟨hp',⟨begun_next hbegun hle hch hne.2.1,hname,hvalue,Nat.le_succ p⟩,
      clean_next (clean_empty p) le_rfl hch hne⟩
  rw [if_neg h32]
  by_cases h13 : ch = 13
  · rw [if_pos h13]
    refine ⟨hp',begun_next hbegun hle hch ?_,hname,hvalue,Nat.le_succ p⟩
    rw [h13]
    decide
  rw [if_neg h13]
  by_cases h10 : ch = 10
  · rw [if_pos h10]
    rw [h10] at hch
    exact ⟨⟨hbegun,hname,hvalue,le_rfl⟩,hch⟩
  rw [if_neg h10]
  by_cases h0 : ch = 0
  · rw [if_pos h0]
    trivial
  rw [if_neg h0]
  refine ⟨hp',?_⟩
  simp only [hs]
  exact ⟨begun_next hbegun hle hch h10,hname,
    value_next hvalue le_rfl (clean_empty p) hch ⟨h13,h10,h0⟩ h32⟩

theorem recorded_next (h : Recorded allow stream pos p l) (hch : stream[p]? = some ch)
    (hne : ch ≠ 10) : Recorded allow stream pos (p+1) l := by
  have hle := ((h.name.some_byte.le.trans h.value.behind).trans h.value.start_le).trans h.value_le
  exact ⟨begun_next h.begun hle hch hne,h.name,h.value,Nat.le_succ_of_le h.value_le⟩

theorem space_after_value_kept (hp : pos ≤ p) (h : Recorded allow stream pos p l)
    (hgap : Clean (slice stream l.headerEnd p)) (hs : l.state = .spaceAfterValue)
    (hch : stream[p]? = some ch) : Kept allow stream pos p (spaceAfterValueByte ch l) := by
  have hp' : pos ≤ p+1 := Nat.le_succ_of_le hp
  rw [spaceAfterValueByte]
  by_cases h32 : ch = 32
  · have hne : ch ≠ 13 ∧ ch ≠ 10 ∧ ch ≠ 0 := by
      rw [h32]
      decide
    rw [if_pos h32]
    refine ⟨hp',?_⟩
    simp only [hs]
    exact ⟨recorded_next h hch hne.2.1,clean_next hgap h.value_le hch hne⟩
  rw [if_neg h32]
  by_cases h13 : ch = 13
  · have hnext := recorded_next h hch (by rw [h13]; decide)
    rw [if_pos h13]
    exact ⟨hp',hnext.begun,hnext.name,hnext.value,hnext.value_le⟩
  rw [if_neg h13]
  by_cases h10 : ch = 10
  · rw [if_pos h10]
    rw [h10] at hch
    exact ⟨h,hch⟩
  rw [if_neg h10]
  by_cases h0 : ch = 0
  · rw [if_pos h0]
    trivial
  rw [if_neg h0]
  exact ⟨hp',(recorded_next h hch h10).begun,h.name,
    value_next h.value h.value_le hgap hch ⟨h13,h10,h0⟩ h32⟩

theorem line_kept (h : Inv allow stream pos p l) (hch : stream[p]? = some ch) :
    Kept allow stream pos p (lineByte allow upstream stream p ch l) := by
  obtain ⟨hp,h⟩ := h
  have hp' : pos ≤ p+1 := Nat.le_succ_of_le hp
  rw [lineByte]
  cases hs : l.state with
  | start =>
    rw [hs] at h
    exact start_kept hp h hch
  | name =>
    rw [hs] at h
    exact name_kept hp h.1 h.2 hs hch
  | spaceBeforeValue =>
    rw [hs] at h
    exact space_before_value_kept hp h.1 h.2.1 h.2.2 hs hch
  | value =>
    rw [hs] at h
    exact value_kept hp h.1 h.2.1 h.2.2 hs hch
  | spaceAfterValue =>
    rw [hs] at h
    exact space_after_value_kept hp h.1 h.2 hs hch
  | ignoreLine =>
    by_cases h10 : ch = 10
    · simp only [if_pos h10]
      rw [h10] at hch
      exact ⟨hp',.inr ⟨Nat.lt_succ_of_le hp,hch⟩⟩
    simp only [if_neg h10]
    refine ⟨hp',?_⟩
    rw [hs]
    trivial
  | almostDone =>
    rw [hs] at h
    by_cases h10 : ch = 10
    · simp only [if_pos h10]
      rw [h10] at hch
      exact ⟨h,hch⟩
    simp only [if_neg h10]
    by_cases h13 : ch = 13
    · simp only [if_pos h13]
      refine ⟨hp',?_⟩
      rw [hs]
      exact recorded_next h hch h10
    · simp only [if_neg h13]
      trivial
  | headerAlmostDone =>
    by_cases h10 : ch = 10
    · simp only [if_pos h10]
      trivial
    · simp only [if_neg h10]
      trivial

/-! ## The calls -/

theorem slice_get {a z k : ℕ} {ch : UInt8} (h : (slice stream a z)[k]? = some ch) :
    stream[a+k]? = some ch := by
  rw [slice, List.getElem?_take] at h
  split_ifs at h
  rw [← List.getElem?_drop]
  exact h

theorem call_kept {b : Buf} (h : Inv allow stream pos b.pos l) (hb : b.pos ≤ b.last)
    (hlast : b.last ≤ stream.length) :
    (run (lineByte allow upstream stream) b.pos (slice stream b.pos b.last) l).Meets
      (Inv allow stream pos b.last) (Post allow stream pos) := by
  have hend : b.pos+(slice stream b.pos b.last).length = b.last := by
    rw [slice_length stream hlast, Nat.add_sub_cancel' hb]
  have hrun : (run (lineByte allow upstream stream) b.pos (slice stream b.pos b.last) l).Meets
      (Inv allow stream pos (b.pos+(slice stream b.pos b.last).length)) (Post allow stream pos) :=
    run_keeps (fun k ch s hk hs => line_kept hs (slice_get hk)) h
  rw [hend] at hrun
  exact hrun

theorem reads_recorded {reads : List ℕ} {b b' : Buf} {l' : HeaderLine}
    (h : Inv allow stream pos b.pos l) (hb : b.pos ≤ b.last)
    (hlast : b.last+reads.sum ≤ stream.length)
    (hok : parseReads allow upstream stream reads b l = (.ok, b', l')) :
    ∃ p, b'.pos = p+1 ∧ Recorded allow stream pos p l' ∧ stream[p]? = some 10 := by
  induction reads generalizing b l with
  | nil => cases hok
  | cons n reads ih =>
    rw [List.sum_cons] at hlast
    have hcall := @call_kept allow upstream stream pos l { b with last := b.last+n } h
      (Nat.le_add_right_of_le hb) (by simp only; omega)
    rw [parseReads, HeaderLines.ngxHttpParseHeaderLine] at hok
    simp only at hok hcall
    cases hrun : run (lineByte allow upstream stream) b.pos (slice stream b.pos (b.last+n)) l with
    | more l₁ =>
      rw [hrun] at hok hcall
      exact ih (b := ⟨b.last+n,b.last+n⟩) hcall le_rfl (by simp only; omega) hok
    | stop p e =>
      rw [hrun] at hok hcall
      cases e with
      | done l₁ =>
        cases hok
        obtain ⟨⟨hbegun,hname,hvalue,hle⟩,hlf⟩ := hcall
        exact ⟨p,rfl,⟨hbegun,hname,hvalue,hle⟩,hlf⟩
      | headerDone l₁ => cases hok
      | invalid l₁ => cases hok

/-! ## The law -/

def nameOf (stream : List UInt8) (l : HeaderLine) : List UInt8 :=
  slice stream l.headerNameStart l.headerNameEnd

def valueOf (stream : List UInt8) (l : HeaderLine) : List UInt8 :=
  slice stream l.headerStart l.headerEnd

/-- The hash, the copy and the flag describe a name; the header is never found under another. -/
structure KeyOf (allow : Bool) (stream : List UInt8) (l : HeaderLine) : Prop where
  no_colon : 58 ∉ nameOf stream l
  described : Describes allow (nameOf stream l) l.headerHash l.lowcaseIndex l.lowcaseHeader
    l.invalidHeader
  spelled : l.invalidHeader = false → spelled allow (nameOf stream l) = ngxStrlow (nameOf stream l)
  lowcase_key : (parsedHeader stream l).lowcaseKey = ngxStrlow (nameOf stream l)
  found : ∀ t : NgxHash, ngxHashFind t (parsedHeader stream l).hash
    (parsedHeader stream l).lowcaseKey = true → ngxStrlow (nameOf stream l) ∈ t.names.map ngxStrlow

/-- What is recorded of the line that ends with the line feed at `p` -/
structure LineLaw (allow : Bool) (stream : List UInt8) (pos p : ℕ) (l : HeaderLine) : Prop where
  begins : LineBegin stream pos l.headerNameStart
  line : 10 ∉ slice stream l.headerNameStart p
  line_feed : stream[p]? = some 10
  name_lt : l.headerNameStart < l.headerNameEnd
  apart : l.headerNameEnd ≤ l.headerStart
  value_le : l.headerStart ≤ l.headerEnd
  value_in : l.headerEnd ≤ p
  name : Clean (nameOf stream l)
  value : Clean (valueOf stream l)
  no_space : (valueOf stream l).getLast? ≠ some 32
  key : ∀ first, stream[l.headerNameStart]? = some first → lowcase first ≠ 0 →
    KeyOf allow stream l

theorem spelled_whole {name : List UInt8} (h : ∀ ch ∈ name, taken allow ch = true) :
    spelled allow name = ngxStrlow name := by
  rw [spelled, List.filter_eq_self.mpr h]

theorem spelled_length_le (name : List UInt8) : (spelled allow name).length ≤ name.length := by
  rw [spelled, ngxStrlow, List.length_map]
  exact List.length_filter_le _ _

theorem copy_name (h : Describes allow name hash index copy invalid)
    (hlen : name.length = index) : (List.range name.length).map copy = ngxStrlow name := by
  have hle := @spelled_length_le allow name
  have hindex := h.index
  have hwhole : (spelled allow name).length = name.length := by omega
  have hfilter : name.filter (taken allow) = name := by
    refine List.filter_sublist.eq_of_length ?_
    rw [spelled, ngxStrlow, List.length_map] at hwhole
    exact hwhole
  have hspelled : spelled allow name = ngxStrlow name := by rw [spelled, hfilter]
  refine List.ext_getElem? fun k => ?_
  by_cases hk : k < name.length
  · have hlower : k < (ngxStrlow name).length := by
      rw [ngxStrlow, List.length_map]
      exact hk
    obtain ⟨c,hget⟩ : ∃ c, (ngxStrlow name)[k]? = some c :=
      ⟨_,List.getElem?_eq_getElem hlower⟩
    have hcopy := h.copy (by omega) k c (by rw [hspelled]; exact hget)
    rw [hget, List.getElem?_map, List.getElem?_range hk, Option.map_some, hcopy]
  · rw [List.getElem?_eq_none (by rw [List.length_map, List.length_range]; omega),
      List.getElem?_eq_none (by rw [ngxStrlow, List.length_map]; omega)]

theorem key_of (hname : NameAt allow stream l.headerNameStart l.headerNameEnd l.headerHash
      l.lowcaseIndex l.lowcaseHeader l.invalidHeader) {first : UInt8}
    (hf : stream[l.headerNameStart]? = some first) (hl : lowcase first ≠ 0) :
    KeyOf allow stream l := by
  have hdescribed := hname.described first hf hl
  have hkey : (parsedHeader stream l).lowcaseKey = ngxStrlow (nameOf stream l) := by
    rw [parsedHeader]
    simp only
    by_cases hlen : (slice stream l.headerNameStart l.headerNameEnd).length = l.lowcaseIndex
    · rw [if_pos hlen]
      exact copy_name hdescribed hlen
    · rw [if_neg hlen]
      rfl
  refine ⟨?_,hdescribed,fun hvalid => ?_,hkey,fun t ht => ?_⟩
  · have hname_first : nameOf stream l = first::(nameOf stream l).tail := by
      have hcut := slice_append stream (Nat.le_succ l.headerNameStart) hname.some_byte
      rw [slice_succ le_rfl hf, slice_empty, List.nil_append, List.singleton_append] at hcut
      rw [nameOf, ← hcut]
      rfl
    rw [hname_first]
    intro hm
    rcases List.mem_cons.mp hm with rfl | hm
    · exact hl rfl
    · exact hname.no_colon hm
  · refine spelled_whole fun ch hch => ?_
    by_contra hn
    have hinvalid := hdescribed.invalid.mpr ⟨ch,hch,Bool.eq_false_of_not_eq_true hn⟩
    rw [hvalid] at hinvalid
    cases hinvalid
  · rw [hkey] at ht
    exact mem_of_find ht

/-- Of every accepted line, wherever the reads cut it and whatever the lines before it have
left, the name and the value are recorded as they stand; and the hash and the copy are those of
the name, where it begins with a letter, a digit or a dash. -/
theorem header_line_law (allow upstream : Bool) (stream : List UInt8) (reads : List ℕ)
    (b b' : Buf) (l l' : HeaderLine) (hs : l.state = .start) (hb : b.pos ≤ b.last)
    (hlast : b.last+reads.sum ≤ stream.length)
    (hok : parseReads allow upstream stream reads b l = (.ok, b', l')) :
    LineLaw allow stream b.pos (b'.pos-1) l' := by
  have hinv : Inv allow stream b.pos b.pos l := by
    refine ⟨le_rfl,?_⟩
    rw [hs]
    exact .inl rfl
  obtain ⟨p,hp,hrecorded,hlf⟩ := reads_recorded hinv hb hlast hok
  rw [hp, Nat.add_sub_cancel]
  exact {
    begins := hrecorded.begun.begins
    line := hrecorded.begun.line
    line_feed := hlf
    name_lt := hrecorded.name.some_byte
    apart := hrecorded.value.behind
    value_le := hrecorded.value.start_le
    value_in := hrecorded.value_le
    name := hrecorded.name.clean
    value := hrecorded.value.clean
    no_space := hrecorded.value.no_space
    key := fun first hf hl => key_of hrecorded.name hf hl }

def newLine : HeaderLine := ⟨.start,0,0,fun _ => 0,0,0,0,0,false⟩

def twoLines : List UInt8 := [72,58,10,33,111,115,116,58,10]

-- a first byte that is left out resets nothing, so the second line has the key `host`
example : (parsedHeader twoLines (parseReads false false twoLines [0] ⟨3,9⟩
    (parseReads false false twoLines [9] ⟨0,0⟩ newLine).2.2).2.2).lowcaseKey =
      [104,111,115,116] := by decide

def hostLine : List UInt8 := [72,111,115,116,58,32,97,32,98,32,10]

theorem header_line_law_host : ∃ b' l',
    parseReads false false hostLine [2,9] ⟨0,0⟩ newLine = (.ok, b', l') ∧
      LineLaw false hostLine 0 (b'.pos-1) l' ∧ nameOf hostLine l' = [72,111,115,116] ∧
      valueOf hostLine l' = [97,32,98] :=
  ⟨_,_,rfl,header_line_law false false hostLine [2,9] ⟨0,0⟩ _ newLine _ rfl (by decide)
    (by decide) rfl,by decide,by decide⟩

def markedLine : List UInt8 := [97,33,98,58,10]

theorem marked_not_hashed :
    ¬∀ (allow upstream : Bool) (stream : List UInt8) (reads : List ℕ) (b b' : Buf)
      (l l' : HeaderLine), l.state = .start → b.pos ≤ b.last →
      b.last+reads.sum ≤ stream.length →
      parseReads allow upstream stream reads b l = (.ok, b', l') →
      l'.headerHash = ngxHashKey (ngxStrlow (nameOf stream l')) := by
  intro h
  have hmarked := h false false markedLine [5] ⟨0,0⟩ _ newLine _ rfl (by decide) (by decide) rfl
  exact absurd hmarked (by decide)

end Nginx.HeaderLinesLaw
