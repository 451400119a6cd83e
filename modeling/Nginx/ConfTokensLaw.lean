import Nginx.ConfReadLaw

/-!
# Reading a file gives its tokens

Each lexeme is read from one place where a word may start to the next, and the flags of the
reader say just which place it is at. The words are stored decoded, and within the memory
allocated for them.
-/

set_option autoImplicit false

namespace Nginx.ConfTokensLaw
open ConfRead ConfTokens ConfReadLaw

/-! Words in memory -/

/-- No backslash is left without the byte that it takes with it. -/
inductive Paired : List UInt8 → Prop where
  | nil : Paired []
  | byte {c : UInt8} {s : List UInt8} : c ≠ backslash → Paired s → Paired (c::s)
  | escape (d : UInt8) {s : List UInt8} : Paired s → Paired (backslash::d::s)

variable {c : UInt8}

theorem storeLoop_byte (hc : c ≠ backslash) (src : List UInt8) (n : ℕ) :
    storeLoop (c::src) (n+1) = c::storeLoop src n := by
  cases src with
  | nil => rfl
  | cons d src => exact if_neg hc

theorem decode_byte (hc : c ≠ backslash) (s : List UInt8) : decode (c::s) = c::decode s := by
  cases s with
  | nil => rfl
  | cons d s => exact if_neg hc

theorem store_decode {text : List UInt8} (h : Paired text) (t : UInt8) :
    storeLoop (text++[t]) text.length = decode text := by
  induction h with
  | nil => rfl
  | byte hc _ ih =>
    rw [List.cons_append, List.length_cons, storeLoop_byte hc, decode_byte hc, ih]
  | @escape d s _ ih =>
    rw [List.cons_append, List.cons_append, List.length_cons, List.length_cons, storeLoop,
      decode, if_pos rfl, if_pos rfl]
    simp only [Nat.add_sub_cancel, ih]
    by_cases hd : d = doubleQuote ∨ d = singleQuote ∨ d = backslash
    · rw [if_pos hd, if_pos hd]
    · have hb : d ≠ backslash := fun he => hd (Or.inr (Or.inr he))
      rw [if_neg hd, if_neg hd, storeLoop_byte hb, decode_byte hb, ih]

theorem storeLoop_length (src : List UInt8) (n : ℕ) : (storeLoop src n).length ≤ n := by
  fun_induction storeLoop src n with
  | case1 => exact Nat.zero_le _
  | case2 => exact le_rfl
  | case3 => exact Nat.succ_le_succ (Nat.zero_le _)
  | case4 | case5 | case6 | case7 | case8 | case9 =>
    simp only [List.length_cons]
    omega

def Fits (w : Word) : Prop := w.data.length ≤ w.size

variable (held : List UInt8)

theorem storeWord_fits : Fits (storeWord held) := by
  have h := storeLoop_length held (held.length-1)
  simp only [Fits, storeWord, List.length_append, List.length_singleton]
  omega

theorem readPlain_fits (s : Scan) (held : List UInt8) (args : List Word)
    (rest : List UInt8) (ha : ∀ w ∈ args, Fits w) :
    ∀ c ∈ readPlain s held args rest, ∀ w ∈ c.args, Fits w := by
  induction rest generalizing s held args with
  | nil =>
    intro c hc
    obtain rfl := List.mem_singleton.mp hc
    exact ha
  | cons ch rest ih =>
    rw [readPlain]
    by_cases hl : held.length = ngxConfBuffer
    · rw [if_pos hl]
      intro c hc
      obtain rfl := List.mem_singleton.mp hc
      exact ha
    rw [if_neg hl]
    obtain ⟨t,ht⟩ : ∃ t, readByte s args.length ch = t := ⟨_,rfl⟩
    rw [ht]
    have ha' : ∀ w ∈ (if t.word = true then args++[storeWord (held++[ch])] else args),
        Fits w := by
      intro w hw
      split at hw
      · rcases List.mem_append.mp hw with hw | hw
        · exact ha w hw
        · obtain rfl := List.mem_singleton.mp hw
          exact storeWord_fits _
      · exact ha w hw
    cases hrc : t.rc with
    | none =>
      simp only [hrc]
      exact ih _ _ _ ha'
    | some rc =>
      simp only [hrc]
      split
      · intro c hc
        obtain rfl := List.mem_singleton.mp hc
        exact ha'
      · intro c hc
        rcases List.mem_cons.mp hc with rfl | hc
        · exact ha'
        · exact ih _ _ _ (by simp) c hc

/-! The places that a reader is at -/

def lineAfter (line : ℕ) (ch : UInt8) : ℕ := if ch = lf then line+1 else line

/-- Where a word may start, behind a quoted word if `closed`. -/
def wordScan (closed : Bool) (sl l : ℕ) : Scan :=
  ⟨closed,!closed,false,false,false,false,false,sl,l⟩

def commentScan (sl l : ℕ) : Scan := ⟨false,true,true,false,false,false,false,sl,l⟩

/-- Within a plain word, behind a backslash if `esc`, and behind a `$` if `v`. -/
def plainScan (esc v : Bool) (sl l : ℕ) : Scan :=
  ⟨false,false,false,v,esc,false,false,sl,l⟩

def quoteScan (quote : UInt8) (esc v : Bool) (sl l : ℕ) : Scan :=
  ⟨false,false,false,v,esc,quote = singleQuote,quote = doubleQuote,sl,l⟩

theorem line_scan (s : Scan) (ch : UInt8) (hs : s.sharpComment = false) :
    (if ch = lf then { s with line := s.line+1, sharpComment := false } else s) =
      { s with line := lineAfter s.line ch } := by
  cases s
  simp only at hs
  subst hs
  unfold lineAfter
  split <;> rfl

section Steps
variable {s s' : Scan} {held : List UInt8} {args : List Word} {ch : UInt8}

variable (rest : List UInt8)

theorem read_keep (hl : held.length < ngxConfBuffer)
    (h : readByte s args.length ch = ⟨s',.keep,false,none⟩) :
    readPlain s held args (ch::rest) = readPlain s' (held++[ch]) args rest := by
  rw [readPlain, if_neg (by omega), h]
  rfl

theorem read_here (hl : held.length < ngxConfBuffer)
    (h : readByte s args.length ch = ⟨s',.here,false,none⟩) :
    readPlain s held args (ch::rest) = readPlain s' [ch] args rest := by
  rw [readPlain, if_neg (by omega), h]
  rfl

theorem read_past (hl : held.length < ngxConfBuffer)
    (h : readByte s args.length ch = ⟨s',.past,false,none⟩) :
    readPlain s held args (ch::rest) = readPlain s' [] args rest := by
  rw [readPlain, if_neg (by omega), h]
  rfl

theorem read_word (hl : held.length < ngxConfBuffer)
    (h : readByte s args.length ch = ⟨s',.keep,true,none⟩) :
    readPlain s held args (ch::rest) =
      readPlain s' (held++[ch]) (args++[storeWord (held++[ch])]) rest := by
  rw [readPlain, if_neg (by omega), h]
  rfl

end Steps

variable (closed : Bool) (sl l n : ℕ) {ch : UInt8}

theorem byte_blank (hb : isBlank ch = true) :
    readByte (wordScan closed sl l) n ch =
      ⟨wordScan false sl (lineAfter l ch),.keep,false,none⟩ := by
  rw [readByte, line_scan _ _ rfl]
  cases closed <;> simp [wordScan, atWord, hb]

theorem byte_comment (hc : ch ≠ lf) :
    readByte (commentScan sl l) n ch = ⟨commentScan sl l,.keep,false,none⟩ := by
  rw [readByte, if_neg hc]
  rfl

theorem byte_comment_end :
    readByte (commentScan sl l) n lf = readByte (wordScan false sl l) n lf := by
  rw [readByte, readByte, if_pos rfl, if_pos rfl]
  rfl

theorem endsPlain_iff (ch : UInt8) :
    (isBlank ch = true ∨ ch = semicolon ∨ ch = openBrace) ↔ endsPlain ch = true := by
  simp [endsPlain, or_assoc]

theorem byte_plain (esc v : Bool) (sl l n : ℕ) (ch : UInt8) :
    readByte (plainScan esc v sl l) n ch =
      if esc then ⟨plainScan false v sl (lineAfter l ch),.keep,false,none⟩
      else if ch = openBrace ∧ v = true then
        ⟨plainScan false v sl (lineAfter l ch),.keep,false,none⟩
      else if ch = backslash then
        ⟨plainScan true false sl (lineAfter l ch),.keep,false,none⟩
      else if ch = dollar then
        ⟨plainScan false true sl (lineAfter l ch),.keep,false,none⟩
      else if endsPlain ch then
        ⟨wordScan false sl (lineAfter l ch),.keep,true,
          if ch = semicolon then some .ok
          else if ch = openBrace then some .blockStart else none⟩
      else ⟨plainScan false false sl (lineAfter l ch),.keep,false,none⟩ := by
  rw [readByte, line_scan _ _ rfl]
  cases esc
  · simp only [plainScan, inWord, wordScan, ← endsPlain_iff, Bool.false_eq_true, if_false,
      Bool.not_false]
  · simp only [plainScan, Bool.false_eq_true, if_false, if_true]

theorem byte_quoted {quote : UInt8} (hq : quote = doubleQuote ∨ quote = singleQuote)
    (esc v : Bool) (sl l n : ℕ) (ch : UInt8) :
    ∃ v', readByte (quoteScan quote esc v sl l) n ch =
      if esc then ⟨quoteScan quote false v' sl (lineAfter l ch),.keep,false,none⟩
      else if ch = backslash then
        ⟨quoteScan quote true v' sl (lineAfter l ch),.keep,false,none⟩
      else if ch = quote then
        ⟨wordScan true sl (lineAfter l ch),.keep,true,none⟩
      else ⟨quoteScan quote false v' sl (lineAfter l ch),.keep,false,none⟩ := by
  simp only [readByte, line_scan (quoteScan quote esc v sl l) ch rfl]
  cases esc
  · refine ⟨if ch = openBrace ∧ v = true then v else decide (ch = dollar),?_⟩
    by_cases h1 : ch = backslash
    · subst h1
      rcases hq with rfl | rfl <;> simp [quoteScan, inWord, backslash, openBrace, dollar,
          doubleQuote, singleQuote]
    by_cases h2 : ch = dollar
    · subst h2
      rcases hq with rfl | rfl <;> simp [quoteScan, inWord, backslash, openBrace, dollar,
        doubleQuote, singleQuote]
    by_cases h3 : ch = openBrace ∧ v = true
    · obtain ⟨rfl,rfl⟩ := h3
      rcases hq with rfl | rfl <;> simp [quoteScan, inWord, backslash, openBrace,
      doubleQuote, singleQuote]
    by_cases h4 : ch = quote
    · subst h4
      rcases hq with rfl | rfl <;> simp [quoteScan, inWord, wordScan, backslash, openBrace, dollar,
      doubleQuote, singleQuote]
    · have hne : singleQuote ≠ doubleQuote := by decide
      rcases hq with rfl | rfl <;> simp [quoteScan, inWord, hne, h1, h2, h3, h4]
  · exact ⟨v,by simp only [quoteScan, Bool.false_eq_true, if_false, if_true]⟩

/-! Reading a lexeme -/

theorem read_comment (text rest held : List UInt8) (sl l : ℕ) (args : List Word)
    (ht : ∀ c ∈ text, c ≠ lf) (hl : held.length+text.length ≤ ngxConfBuffer) :
    readPlain (commentScan sl l) held args (text++rest) =
      readPlain (commentScan sl l) (held++text) args rest := by
  induction text generalizing held with
  | nil => simp
  | cons c text ih =>
    simp only [List.length_cons] at hl
    rw [List.cons_append, read_keep _ (by omega) (byte_comment sl l _ (ht c List.mem_cons_self)),
      ih (held++[c]) (fun d hd => ht d (List.mem_cons_of_mem _ hd))
        (by simp only [List.length_append, List.length_singleton]; omega),
      List.append_assoc]
    rfl

variable (rest : List UInt8)

theorem comment_end (held : List UInt8) (sl l : ℕ) (args : List Word)
    (hr : ∀ c, rest.head? = some c → c = lf) :
    readPlain (commentScan sl l) held args rest =
      readPlain (wordScan false sl l) held args rest := by
  cases rest with
  | nil => rfl
  | cons c rest =>
    obtain rfl := hr c rfl
    rw [readPlain, readPlain, byte_comment_end]
    rfl

variable {s : List UInt8}

theorem plainText_head {r : List UInt8 × List UInt8} (h : plainText s = some r) :
    ∃ t rest, r.2 = t::rest ∧ endsPlain t = true := by
  fun_induction plainText s generalizing r with
  | case1 => cases h
  | case2 c hc =>
    obtain rfl := Option.some.inj h
    exact ⟨c,[],rfl,hc⟩
  | case3 => cases h
  | case4 c d s hc ih =>
    obtain ⟨r',hr,rfl⟩ := Option.map_eq_some_iff.mp h
    obtain ⟨t,rest,h1,h2⟩ := ih hr
    exact ⟨t,rest,h1,h2⟩
  | case5 c d s hc he =>
    obtain rfl := Option.some.inj h
    exact ⟨c,d::s,rfl,he⟩
  | case6 c d s hc he ih =>
    obtain ⟨r',hr,rfl⟩ := Option.map_eq_some_iff.mp h
    obtain ⟨t,rest,h1,h2⟩ := ih hr
    exact ⟨t,rest,h1,h2⟩

theorem quotedText_paired (quote : UInt8) (s : List UInt8) {r : List UInt8 × List UInt8}
    (h : quotedText quote s = some r) : Paired r.1 := by
  fun_induction quotedText quote s generalizing r with
  | case1 => cases h
  | case2 =>
    obtain rfl := Option.some.inj h
    exact .nil
  | case3 => cases h
  | case4 d s ih =>
    obtain ⟨r',hr,rfl⟩ := Option.map_eq_some_iff.mp h
    exact .escape d (ih hr)
  | case5 d s hc =>
    obtain rfl := Option.some.inj h
    exact .nil
  | case6 c d s hc hq ih =>
    obtain ⟨r',hr,rfl⟩ := Option.map_eq_some_iff.mp h
    exact .byte hc (ih hr)

theorem plainText_paired (s : List UInt8) {r : List UInt8 × List UInt8}
    (h : plainText s = some r) : Paired r.1 := by
  fun_induction plainText s generalizing r with
  | case1 => cases h
  | case2 =>
    obtain rfl := Option.some.inj h
    exact .nil
  | case3 => cases h
  | case4 c d s hc ih =>
    obtain ⟨r',hr,rfl⟩ := Option.map_eq_some_iff.mp h
    rcases hc with rfl | ⟨rfl,rfl⟩
    · exact .escape d (ih hr)
    · exact .byte (by decide) (.byte (by decide) (ih hr))
  | case5 c d s hc he =>
    obtain rfl := Option.some.inj h
    exact .nil
  | case6 c d s hc he ih =>
    obtain ⟨r',hr,rfl⟩ := Option.map_eq_some_iff.mp h
    exact .byte (fun hb => hc (Or.inl hb)) (ih hr)

def endOfFile (line : ℕ) (args : List Word) : List Call :=
  [⟨if args.length > 0 then .error .unexpectedEnd line else .fileDone,args⟩]

theorem read_quoted {quote : UInt8} (hq : quote = doubleQuote ∨ quote = singleQuote)
    (s held : List UInt8) (v : Bool) (sl l : ℕ) (args : List Word) :
    (∀ r, quotedText quote s = some r → held.length+r.1.length < ngxConfBuffer →
      ∃ l', readPlain (quoteScan quote false v sl l) held args s =
        readPlain (wordScan true sl l') (held++r.1++[quote])
          (args++[storeWord (held++r.1++[quote])]) r.2) ∧
    (quotedText quote s = none → held.length+s.length ≤ ngxConfBuffer →
      ∃ l', readPlain (quoteScan quote false v sl l) held args s = endOfFile l' args) := by
  have hqb : backslash ≠ quote := by rcases hq with rfl | rfl <;> decide
  fun_induction quotedText quote s generalizing held v l with
  | case1 => exact ⟨by rintro r ⟨⟩,fun _ _ => ⟨l,rfl⟩⟩
  | case2 =>
    refine ⟨fun r hr hl => ?_,by rintro ⟨⟩⟩
    obtain rfl := Option.some.inj hr
    obtain ⟨v',hb⟩ := byte_quoted hq false v sl l args.length quote
    rw [if_neg (by decide), if_neg hqb.symm, if_pos rfl] at hb
    simp only [List.length_nil] at hl
    rw [List.append_nil]
    exact ⟨_,read_word [] (by omega) hb⟩
  | case3 c hc =>
    refine ⟨by rintro r ⟨⟩,fun _ hl => ?_⟩
    obtain ⟨v',hb⟩ := byte_quoted hq false v sl l args.length c
    simp only [List.length_singleton] at hl
    rw [if_neg (by decide), if_neg hc] at hb
    by_cases hs : c = backslash
    · rw [if_pos hs] at hb
      exact ⟨_,read_keep [] (by omega) hb⟩
    · rw [if_neg hs] at hb
      exact ⟨_,read_keep [] (by omega) hb⟩
  | case4 d s ih =>
    obtain ⟨v1,hb1⟩ := byte_quoted hq false v sl l args.length backslash
    rw [if_neg (by decide), if_pos rfl] at hb1
    obtain ⟨v2,hb2⟩ := byte_quoted hq true v1 sl (lineAfter l backslash) args.length d
    rw [if_pos rfl] at hb2
    obtain ⟨ih1,ih2⟩ := ih (held++[backslash]++[d]) v2 (lineAfter (lineAfter l backslash) d)
    constructor
    · intro r hr hl
      obtain ⟨r',hr',rfl⟩ := Option.map_eq_some_iff.mp hr
      simp only [List.length_cons] at hl
      obtain ⟨l',h⟩ := ih1 r' hr' (by simp only [List.length_append, List.length_singleton]; omega)
      refine ⟨l',?_⟩
      rw [read_keep _ (by omega) hb1, read_keep _
        (by simp only [List.length_append, List.length_singleton]; omega) hb2, h]
      simp only [List.append_assoc, List.cons_append, List.nil_append]
    · intro hn hl
      simp only [List.length_cons] at hl
      obtain ⟨l',h⟩ := ih2 (Option.map_eq_none_iff.mp hn)
        (by simp only [List.length_append, List.length_singleton]; omega)
      refine ⟨l',?_⟩
      rw [read_keep _ (by omega) hb1, read_keep _
        (by simp only [List.length_append, List.length_singleton]; omega) hb2, h]
  | case5 d s hc =>
    refine ⟨fun r hr hl => ?_,by rintro ⟨⟩⟩
    obtain rfl := Option.some.inj hr
    obtain ⟨v',hb⟩ := byte_quoted hq false v sl l args.length quote
    rw [if_neg (by decide), if_neg hqb.symm, if_pos rfl] at hb
    simp only [List.length_nil] at hl
    rw [List.append_nil]
    exact ⟨_,read_word _ (by omega) hb⟩
  | case6 c d s hc hne ih =>
    obtain ⟨v1,hb⟩ := byte_quoted hq false v sl l args.length c
    rw [if_neg (by decide), if_neg hc, if_neg hne] at hb
    obtain ⟨ih1,ih2⟩ := ih (held++[c]) v1 (lineAfter l c)
    constructor
    · intro r hr hl
      obtain ⟨r',hr',rfl⟩ := Option.map_eq_some_iff.mp hr
      simp only [List.length_cons] at hl
      obtain ⟨l',h⟩ := ih1 r' hr' (by simp only [List.length_append, List.length_singleton]; omega)
      refine ⟨l',?_⟩
      rw [read_keep _ (by omega) hb, h]
      simp only [List.append_assoc, List.cons_append, List.nil_append]
    · intro hn hl
      simp only [List.length_cons] at hl
      obtain ⟨l',h⟩ := ih2 (Option.map_eq_none_iff.mp hn)
        (by simp only [List.length_append, List.length_cons, List.length_nil]; omega)
      exact ⟨l',by rw [read_keep _ (by omega) hb, h]⟩

theorem plainText_brace (s : List UInt8) :
    plainText (openBrace::s) = some ([], openBrace::s) := by
  cases s with
  | nil => rfl
  | cons a s =>
    rw [plainText, if_neg, if_pos (by decide)]
    rintro (h | ⟨h,_⟩)
    · exact absurd h (by decide)
    · exact absurd h (by decide)

/-- A plain word is read up to the byte that ends it, or to the end of the file; a `$` is
followed by no `{` that the word does not have. -/
theorem read_plain_text (s held : List UInt8) (v : Bool) (sl l : ℕ) (args : List Word)
    (hv : v = true → s.head? ≠ some openBrace) :
    (∀ r, plainText s = some r → held.length+r.1.length ≤ ngxConfBuffer →
      ¬ ([dollar, openBrace] <:+ r.1 ∧ r.2.head? = some openBrace) →
      ∃ v' l', (v' = true → r.2.head? ≠ some openBrace) ∧
        readPlain (plainScan false v sl l) held args s =
          readPlain (plainScan false v' sl l') (held++r.1) args r.2) ∧
    (plainText s = none → held.length+s.length ≤ ngxConfBuffer →
      ∃ l', readPlain (plainScan false v sl l) held args s = endOfFile l' args) := by
  fun_induction plainText s generalizing held v l with
  | case1 => exact ⟨by rintro r ⟨⟩,fun _ _ => ⟨l,rfl⟩⟩
  | case2 c hc =>
    refine ⟨fun r hr _ _ => ?_,by rintro ⟨⟩⟩
    obtain rfl := Option.some.inj hr
    exact ⟨v,l,hv,by rw [List.append_nil]⟩
  | case3 c hc =>
    refine ⟨by rintro r ⟨⟩,fun _ hl => ?_⟩
    simp only [List.length_singleton] at hl
    have hb := byte_plain false v sl l args.length c
    rw [if_neg (by decide)] at hb
    have hvc : ¬ (c = openBrace ∧ v = true) := fun h => hv h.2 (by rw [h.1]; rfl)
    rw [if_neg hvc] at hb
    by_cases h1 : c = backslash
    · rw [if_pos h1] at hb
      exact ⟨_,read_keep [] (by omega) hb⟩
    rw [if_neg h1] at hb
    by_cases h2 : c = dollar
    · rw [if_pos h2] at hb
      exact ⟨_,read_keep [] (by omega) hb⟩
    · rw [if_neg h2, if_neg (by simpa using hc)] at hb
      exact ⟨_,read_keep [] (by omega) hb⟩
  | case4 c d s hc ih =>
    have hvc : ¬ (c = openBrace ∧ v = true) := fun h => hv h.2 (by rw [h.1]; rfl)
    have hb1 := byte_plain false v sl l args.length c
    rw [if_neg (by decide), if_neg hvc] at hb1
    -- the flag behind the pair is set if it is "${"
    obtain ⟨v2,l2,hv2,hb⟩ : ∃ v2 l2, (v2 = true → c = dollar ∧ d = openBrace) ∧
        ∀ rest, held.length+1 < ngxConfBuffer →
          readPlain (plainScan false v sl l) held args (c::d::rest) =
            readPlain (plainScan false v2 sl l2) (held++[c]++[d]) args rest := by
      by_cases h1 : c = backslash
      · rw [if_pos h1] at hb1
        have hb2 := byte_plain true false sl (lineAfter l c) args.length d
        rw [if_pos rfl] at hb2
        refine ⟨false,lineAfter (lineAfter l c) d,by rintro ⟨⟩,fun rest hl => ?_⟩
        rw [read_keep _ (by omega) hb1, read_keep _
          (by simp only [List.length_append, List.length_singleton]; omega) hb2]
      obtain ⟨h2,h3⟩ := hc.resolve_left h1
      rw [if_neg h1, if_pos h2] at hb1
      have hb2 := byte_plain false true sl (lineAfter l c) args.length d
      rw [if_neg (by decide), if_pos ⟨h3,rfl⟩] at hb2
      refine ⟨true,lineAfter (lineAfter l c) d,fun _ => ⟨h2,h3⟩,fun rest hl => ?_⟩
      rw [read_keep _ (by omega) hb1, read_keep _
        (by simp only [List.length_append, List.length_singleton]; omega) hb2]
    constructor
    · intro r hr hl hno
      obtain ⟨r',hr',rfl⟩ := Option.map_eq_some_iff.mp hr
      simp only [List.length_cons] at hl hno
      have hvs : v2 = true → s.head? ≠ some openBrace := by
        intro hv' hs
        obtain ⟨rfl,rfl⟩ := hv2 hv'
        obtain ⟨s2,rfl⟩ : ∃ s2, s = openBrace::s2 := by
          cases s with
          | nil => cases hs
          | cons a s => exact ⟨s,by rw [Option.some.inj hs]⟩
        rw [plainText_brace] at hr'
        obtain rfl := Option.some.inj hr'
        exact hno ⟨List.suffix_rfl,rfl⟩
      obtain ⟨ih1,_⟩ := ih (held++[c]++[d]) v2 l2 hvs
      obtain ⟨v',l',h1,h2⟩ := ih1 r' hr'
        (by simp only [List.length_append, List.length_singleton]; omega)
        fun h => hno ⟨h.1.trans (List.suffix_append [c, d] r'.1),h.2⟩
      refine ⟨v',l',h1,?_⟩
      rw [hb s (by omega), h2]
      simp only [List.append_assoc, List.cons_append, List.nil_append]
    · intro hn hl
      simp only [List.length_cons] at hl
      have hn' : plainText s = none := Option.map_eq_none_iff.mp hn
      have hvs : v2 = true → s.head? ≠ some openBrace := by
        intro _ hs
        cases s with
        | nil => cases hs
        | cons a s2 =>
          obtain rfl := Option.some.inj hs
          rw [plainText_brace] at hn'
          cases hn'
      obtain ⟨_,ih2⟩ := ih (held++[c]++[d]) v2 l2 hvs
      obtain ⟨l',h⟩ := ih2 hn' (by simp only [List.length_append, List.length_singleton]; omega)
      exact ⟨l',by rw [hb s (by omega), h]⟩
  | case5 c d s hc he =>
    refine ⟨fun r hr _ _ => ?_,by rintro ⟨⟩⟩
    obtain rfl := Option.some.inj hr
    exact ⟨v,l,hv,by rw [List.append_nil]⟩
  | case6 c d s hc he ih =>
    have hvc : ¬ (c = openBrace ∧ v = true) := fun h => hv h.2 (by rw [h.1]; rfl)
    have hb1 := byte_plain false v sl l args.length c
    rw [if_neg (by decide), if_neg hvc, if_neg fun h => hc (Or.inl h)] at hb1
    obtain ⟨v2,l2,hv2,hb⟩ : ∃ v2 l2, (v2 = true → (d::s).head? ≠ some openBrace) ∧
        readByte (plainScan false v sl l) args.length c =
          ⟨plainScan false v2 sl l2,.keep,false,none⟩ := by
      by_cases h2 : c = dollar
      · rw [if_pos h2] at hb1
        exact ⟨true,_,fun _ hd => hc (Or.inr ⟨h2,Option.some.inj hd⟩),hb1⟩
      · rw [if_neg h2, if_neg (by simpa using he)] at hb1
        exact ⟨false,_,by rintro ⟨⟩,hb1⟩
    obtain ⟨ih1,ih2⟩ := ih (held++[c]) v2 l2 hv2
    constructor
    · intro r hr hl hno
      obtain ⟨r',hr',rfl⟩ := Option.map_eq_some_iff.mp hr
      simp only [List.length_cons] at hl hno
      obtain ⟨v',l',h1,h2⟩ := ih1 r' hr'
        (by simp only [List.length_append, List.length_singleton]; omega)
        fun h => hno ⟨h.1.trans (List.suffix_cons c r'.1),h.2⟩
      refine ⟨v',l',h1,?_⟩
      rw [read_keep _ (by omega) hb, h2]
      simp only [List.append_assoc, List.cons_append, List.nil_append]
    · intro hn hl
      simp only [List.length_cons] at hl
      obtain ⟨l',h⟩ := ih2 (Option.map_eq_none_iff.mp hn)
        (by simp only [List.length_append, List.length_cons, List.length_nil]; omega)
      exact ⟨l',by rw [read_keep _ (by omega) hb, h]⟩

structure StartsPlain (c : UInt8) : Prop where
  blank : isBlank c = false
  sharp : c ≠ sharp
  punct : ¬ (c = semicolon ∨ c = openBrace ∨ c = closeBrace)
  quote : ¬ (c = doubleQuote ∨ c = singleQuote)

theorem byte_first (h : StartsPlain c) (closed : Bool) (sl l n : ℕ)
    (hc : closed = true → c = closeParen) :
    readByte (wordScan closed sl l) n c =
      ⟨plainScan (c = backslash) false l l,.here,false,none⟩ := by
  obtain ⟨h1,h2,h3,h4⟩ := h
  simp only [not_or] at h3 h4
  have hlf : c ≠ lf := by
    rintro rfl
    exact absurd h1 (by decide)
  have hat : atWord (wordScan false sl l) n c =
      ⟨plainScan (c = backslash) false l l,.here,false,none⟩ := by
    by_cases hb : c = backslash
    · subst hb
      rfl
    · simp [atWord, wordScan, plainScan, h1, h2, h3.1, h3.2.1, h3.2.2, h4.1, h4.2, hb]
  rw [readByte, line_scan _ _ rfl, lineAfter, if_neg hlf]
  cases closed
  · simpa [wordScan] using hat
  · obtain rfl := hc rfl
    rfl

theorem read_first (h : StartsPlain c) (s : List UInt8) (l : ℕ) (args : List Word) :
    (∀ r, plainText (c::s) = some r → r.1.length ≤ ngxConfBuffer →
      ¬ [dollar, openBrace] <+: r.1 →
      ¬ ([dollar, openBrace] <:+ r.1 ∧ r.2.head? = some openBrace) →
      ∃ v' l', (v' = true → r.2.head? ≠ some openBrace) ∧
        readPlain (plainScan (c = backslash) false l l) [c] args s =
          readPlain (plainScan false v' l l') r.1 args r.2) ∧
    (plainText (c::s) = none → s.length+1 ≤ ngxConfBuffer →
      ¬ [dollar, openBrace] <+: c::s →
      ∃ l', readPlain (plainScan (c = backslash) false l l) [c] args s = endOfFile l' args) := by
  have he : endsPlain c = false := by
    have := h.punct
    simp only [not_or] at this
    simp [endsPlain, h.blank, this.1, this.2.1]
  cases s with
  | nil =>
    constructor
    · intro r hr
      simp [plainText, he] at hr
    · exact fun _ _ _ => ⟨l,rfl⟩
  | cons d s =>
    by_cases hb : c = backslash
    · subst hb
      have hbyte := byte_plain true false l l args.length d
      rw [if_pos rfl] at hbyte
      have hstep : (1 : ℕ) < ngxConfBuffer := by decide
      have hfirst : readPlain (plainScan true false l l) [backslash] args (d::s) =
          readPlain (plainScan false false l (lineAfter l d)) ([backslash]++[d]) args s :=
        read_keep s hstep hbyte
      obtain ⟨h1,h2⟩ := read_plain_text s ([backslash]++[d]) false l (lineAfter l d) args
        (by rintro ⟨⟩)
      rw [plainText, if_pos (Or.inl rfl)]
      simp only [decide_true]
      rw [hfirst]
      constructor
      · intro r hr hl hno hns
        obtain ⟨r',hr',rfl⟩ := Option.map_eq_some_iff.mp hr
        simp only [List.length_cons] at hl hns
        exact h1 r' hr' (by simp only [List.length_append, List.length_singleton]; omega)
          fun h => hns ⟨h.1.trans (List.suffix_append [backslash, d] r'.1),h.2⟩
      · intro hn hl _
        simp only [List.length_cons] at hl
        exact h2 (Option.map_eq_none_iff.mp hn)
          (by simp only [List.length_append, List.length_singleton]; omega)
    have hdec : decide (c = backslash) = false := by simpa using hb
    rw [hdec, plainText]
    by_cases hv : c = dollar ∧ d = openBrace
    · obtain ⟨rfl,rfl⟩ := hv
      rw [if_pos (Or.inr ⟨rfl,rfl⟩)]
      constructor
      · intro r hr _ hno _
        obtain ⟨r',hr',rfl⟩ := Option.map_eq_some_iff.mp hr
        exact absurd (List.prefix_append [dollar, openBrace] r'.1) hno
      · intro _ _ hno
        exact absurd (List.prefix_append [dollar, openBrace] s) hno
    rw [if_neg (fun h => h.elim hb hv), if_neg (by simp [he])]
    obtain ⟨h1,h2⟩ := read_plain_text (d::s) [c] false l l args (by rintro ⟨⟩)
    constructor
    · intro r hr hl hno hns
      obtain ⟨r',hr',rfl⟩ := Option.map_eq_some_iff.mp hr
      simp only [List.length_cons] at hl hns
      exact h1 r' hr' (by simp only [List.length_singleton]; omega)
        fun h => hns ⟨h.1.trans (List.suffix_cons c r'.1),h.2⟩
    · intro hn hl _
      simp only [List.length_cons] at hl
      exact h2 (Option.map_eq_none_iff.mp hn)
        (by simp only [List.length_cons, List.length_nil]; omega)

/-! The lexemes of a content by its first byte -/

theorem lex_cons (c : UInt8) (s : List UInt8) : lex (c::s) =
    if isBlank c then .blank c::lex s
    else if c = sharp then
      .comment (c::s.takeWhile (· ≠ lf))::lex (s.dropWhile (· ≠ lf))
    else if c = semicolon ∨ c = openBrace ∨ c = closeBrace then .punct c::lex s
    else if c = doubleQuote ∨ c = singleQuote then
      (quotedText c s).elim [.unfinished true s] fun r => .quoted c r.1::lex r.2
    else (plainText (c::s)).elim [.unfinished false (c::s)] fun r => .plain r.1::lex r.2 := by
  rw [lex]
  split_ifs
  · rfl
  · rfl
  · rfl
  · split <;> rename_i h <;> rw [h] <;> rfl
  · split <;> rename_i h <;> rw [h] <;> rfl

theorem lex_blank (h : isBlank c = true) (s : List UInt8) : lex (c::s) = .blank c::lex s := by
  rw [lex_cons, if_pos h]

theorem lex_comment (s : List UInt8) : lex (sharp::s) =
    .comment (sharp::s.takeWhile (· ≠ lf))::lex (s.dropWhile (· ≠ lf)) := by
  rw [lex_cons, if_neg (by decide), if_pos rfl]

theorem lex_punct (h : c = semicolon ∨ c = openBrace ∨ c = closeBrace) (s : List UInt8) :
    lex (c::s) = .punct c::lex s := by
  rcases h with rfl | rfl | rfl <;>
    rw [lex_cons, if_neg (by decide), if_neg (by decide), if_pos (by decide)]

theorem lex_quoted (h : c = doubleQuote ∨ c = singleQuote) (s : List UInt8) :
    (∀ r, quotedText c s = some r → lex (c::s) = .quoted c r.1::lex r.2) ∧
      (quotedText c s = none → lex (c::s) = [.unfinished true s]) := by
  have hc : isBlank c = false ∧ c ≠ sharp ∧
      ¬ (c = semicolon ∨ c = openBrace ∨ c = closeBrace) := by
    rcases h with rfl | rfl <;> decide
  rw [lex_cons, if_neg (by simp [hc.1]), if_neg hc.2.1, if_neg hc.2.2, if_pos h]
  constructor
  · intro r hr
    rw [hr]
    rfl
  · intro hn
    rw [hn]
    rfl

theorem lex_plain (h : StartsPlain c) (s : List UInt8) :
    (∀ r, plainText (c::s) = some r → lex (c::s) = .plain r.1::lex r.2) ∧
      (plainText (c::s) = none → lex (c::s) = [.unfinished false (c::s)]) := by
  rw [lex_cons, if_neg (by simp [h.blank]), if_neg h.sharp, if_neg h.punct, if_neg h.quote]
  constructor
  · intro r hr
    rw [hr]
    rfl
  · intro hn
    rw [hn]
    rfl

/-! Reading a content -/

def texts (args : List Word) : List (List UInt8) := args.map fun w => w.data.take w.len

variable (args : List Word)

theorem texts_word {text : List UInt8} (h : Paired text) (t : UInt8) :
    texts (args++[storeWord (text++[t])]) = texts args++[decode text] := by
  simp [texts, storeWord, store_decode h t]

theorem texts_eq_nil : texts args = [] ↔ args = [] := by simp [texts]

theorem read_stop {s : Scan} {held : List UInt8} {args : List Word} {t : Turn} {rc : Rc}
    (hl : held.length < ngxConfBuffer) (h : readByte s args.length ch = t) (hw : t.word = false)
    (hrc : t.rc = some rc) :
    readPlain s held args (ch::rest) = if rc.stops then [⟨rc,args⟩]
      else ⟨rc,args⟩::readPlain (wordScan false t.scan.line t.scan.line) [] [] rest := by
  rw [readPlain, if_neg (by omega), h]
  simp only [hw, hrc, Bool.false_eq_true, if_false]
  rfl

def Reads (closed : Bool) (s : List UInt8) : Prop :=
  ∀ (sl l : ℕ) (held : List UInt8) (args : List Word),
    regular held.length (!args.isEmpty) (lex s) = true → (closed = true → args ≠ []) →
    (readPlain (wordScan closed sl l) held args s).map tokenOf =
      tokensFrom (texts args) closed (lex s)

theorem tokens_punct (args : List (List UInt8)) (closed : Bool) (ch : UInt8) (r : List Lexeme) :
    tokensFrom args closed (.punct ch::r) =
      if ch = closeBrace then
        if args = [] then .blockDone::tokensFrom [] false r else [.error]
      else if args = [] then [.error]
      else if ch = openBrace then .blockStart args::tokensFrom [] false r
      else .ok args::tokensFrom [] false r := rfl

theorem tokens_semicolon {args : List (List UInt8)} (h : args ≠ []) (closed : Bool)
    (r : List Lexeme) : tokensFrom args closed (.punct semicolon::r) =
      .ok args::tokensFrom [] false r := by
  rw [tokens_punct, if_neg (by decide), if_neg h, if_neg (by decide)]

theorem tokens_open {args : List (List UInt8)} (h : args ≠ []) (closed : Bool)
    (r : List Lexeme) : tokensFrom args closed (.punct openBrace::r) =
      .blockStart args::tokensFrom [] false r := by
  rw [tokens_punct, if_neg (by decide), if_neg h, if_pos rfl]

theorem tokens_close {args : List (List UInt8)} (h : args ≠ []) (closed : Bool)
    (r : List Lexeme) : tokensFrom args closed (.punct closeBrace::r) = [.error] := by
  rw [tokens_punct, if_pos rfl, if_neg h]

theorem regular_punct {n : ℕ} {any : Bool} {r : List Lexeme}
    (h : regular n any (.punct ch::r) = true) : n < ngxConfBuffer ∧ regular 0 false r = true := by
  have hand : (decide (n < ngxConfBuffer) && regular 0 false r) = true := h
  simpa using hand

theorem regular_blank {n : ℕ} {any : Bool} {r : List Lexeme}
    (h : regular n any (.blank ch::r) = true) : n < ngxConfBuffer ∧ regular (n+1) any r = true := by
  have hand : (decide (n < ngxConfBuffer) && regular (n+1) any r) = true := h
  simpa using hand

theorem byte_punct {n : ℕ} (hn : n ≠ 0) (hc : c = semicolon ∨ c = openBrace ∨ c = closeBrace) :
    ∃ t, readByte (wordScan closed sl l) n c = t ∧ t.word = false ∧
      t.rc = some (if c = semicolon then .ok else if c = openBrace then .blockStart
        else .error (.unexpected c) l) := by
  cases closed with
  | true => rcases hc with rfl | rfl | rfl <;> exact ⟨_,rfl,rfl,rfl⟩
  | false =>
    obtain ⟨m,rfl⟩ := Nat.exists_eq_succ_of_ne_zero hn
    rcases hc with rfl | rfl | rfl <;> exact ⟨_,rfl,rfl,rfl⟩

theorem reads_punct (hc : c = semicolon ∨ c = openBrace ∨ c = closeBrace) (ih : Reads false s) :
    Reads closed (c::s) := by
  intro sl l held args hreg hcl
  rw [lex_punct hc] at hreg ⊢
  obtain ⟨hl,hreg⟩ := regular_punct hreg
  have hnext := fun line => ih line line [] [] hreg (by rintro ⟨⟩)
  by_cases hargs : args = []
  · subst hargs
    cases closed with
    | true => exact absurd rfl (hcl rfl)
    | false =>
      rcases hc with rfl | rfl | rfl
      · rw [read_stop s hl rfl rfl rfl]
        rfl
      · rw [read_stop s hl rfl rfl rfl]
        rfl
      · rw [read_stop s hl rfl rfl rfl, if_neg (by decide), List.map_cons, hnext]
        rfl
  have hn : args.length ≠ 0 := fun h => hargs (List.eq_nil_of_length_eq_zero h)
  have hta : texts args ≠ [] := fun h => hargs ((texts_eq_nil args).mp h)
  obtain ⟨t,ht,hw,hrc⟩ := byte_punct closed sl l hn hc
  rw [read_stop s hl ht hw hrc]
  rcases hc with rfl | rfl | rfl
  · rw [tokens_semicolon hta, if_neg (by rw [if_pos rfl]; decide), List.map_cons, hnext]
    rfl
  · rw [tokens_open hta, if_neg (by rw [if_neg (by decide), if_pos rfl]; decide),
      List.map_cons, hnext]
    rfl
  · rw [tokens_close hta]
    rfl

theorem reads_blank (hc : isBlank c = true) (ih : Reads false s) : Reads closed (c::s) := by
  intro sl l held args hreg hcl
  rw [lex_blank hc] at hreg ⊢
  replace hreg := regular_blank hreg
  rw [read_keep s hreg.1 (byte_blank closed sl l args.length hc)]
  refine ih _ _ _ _ ?_ (by rintro ⟨⟩)
  rw [List.length_append, List.length_singleton]
  exact hreg.2

theorem reads_closed (hb : isBlank c = false)
    (hp : ¬ (c = semicolon ∨ c = openBrace ∨ c = closeBrace)) (hc : c ≠ closeParen) (sl l : ℕ)
    (held : List UInt8) (args : List Word) (hl : held.length < ngxConfBuffer) :
    (readPlain (wordScan true sl l) held args (c::s)).map tokenOf = [.error] := by
  have hbyte : ∃ line, readByte (wordScan true sl l) args.length c =
      ⟨wordScan true sl line,.keep,false,some (.error (.unexpected c) line)⟩ := by
    refine ⟨lineAfter l c,?_⟩
    simp only [not_or] at hp
    rw [readByte, line_scan _ _ rfl]
    simp [wordScan, hb, hp.1, hp.2.1, hc]
  obtain ⟨line,hbyte⟩ := hbyte
  rw [read_stop s hl hbyte rfl rfl]
  rfl

theorem reads_comment (ih : Reads false (s.dropWhile (· ≠ lf))) : Reads closed (sharp::s) := by
  intro sl l held args hreg hcl
  rw [lex_comment] at hreg ⊢
  simp only [regular, Bool.and_eq_true, decide_eq_true_eq, List.length_cons] at hreg
  obtain ⟨⟨hl,ht⟩,hreg⟩ := hreg
  cases closed with
  | true =>
    rw [reads_closed (by decide) (by decide) (by decide) sl l held args hl]
    rfl
  | false =>
    have hbyte : readByte (wordScan false sl l) args.length sharp =
        ⟨commentScan l l,.here,false,none⟩ := rfl
    rw [read_here s hl hbyte]
    have hall : ∀ c ∈ s.takeWhile (· ≠ lf), c ≠ lf := by
      intro c hc
      simpa using List.mem_takeWhile_imp hc
    have hs : s = s.takeWhile (· ≠ lf)++s.dropWhile (· ≠ lf) :=
      List.takeWhile_append_dropWhile.symm
    have hread := read_comment (s.takeWhile (· ≠ lf)) (s.dropWhile (· ≠ lf)) [sharp] l l args
      hall (by simp only [List.length_singleton]; omega)
    have hend := comment_end (s.dropWhile (· ≠ lf)) ([sharp]++s.takeWhile (· ≠ lf)) l l args
      (by
        intro c hc
        have := List.head?_dropWhile_not (fun c : UInt8 => decide (c ≠ lf)) s
        rw [hc] at this
        simpa using this)
    rw [← hs, hend] at hread
    rw [hread]
    exact ih _ _ _ _ (by simpa using hreg) (by rintro ⟨⟩)

theorem reads_quoted (hc : c = doubleQuote ∨ c = singleQuote)
    (ih : ∀ r, quotedText c s = some r → Reads true r.2) : Reads closed (c::s) := by
  intro sl l held args hreg hcl
  obtain ⟨hsome,hnone⟩ := lex_quoted hc s
  have hb : isBlank c = false ∧ ¬ (c = semicolon ∨ c = openBrace ∨ c = closeBrace) ∧
      c ≠ closeParen := by
    rcases hc with rfl | rfl <;> decide
  have hbyte : readByte (wordScan false sl l) args.length c =
      ⟨quoteScan c false false l l,.past,false,none⟩ := by
    rcases hc with rfl | rfl <;> rfl
  cases hq : quotedText c s with
  | none =>
    rw [hnone hq] at hreg ⊢
    simp only [regular, Bool.and_eq_true, decide_eq_true_eq] at hreg
    obtain ⟨hany,hl,ht,_⟩ := hreg
    cases closed with
    | true => rw [reads_closed hb.1 hb.2.1 hb.2.2 sl l held args hl, tokensFrom]
    | false =>
      obtain ⟨l',h⟩ := (read_quoted hc s [] false l l args).2 hq (by simpa using ht)
      have hlen : args.length > 0 := by
        cases args with
        | nil => cases hany
        | cons a args => exact Nat.succ_pos _
      rw [read_past s hl hbyte, h, endOfFile, if_pos hlen, tokensFrom]
      rfl
  | some r =>
    rw [hsome r hq] at hreg ⊢
    simp only [regular, Bool.and_eq_true, decide_eq_true_eq] at hreg
    obtain ⟨⟨hl,ht⟩,hreg⟩ := hreg
    cases closed with
    | true =>
      rw [reads_closed hb.1 hb.2.1 hb.2.2 sl l held args hl, tokensFrom, if_pos rfl]
    | false =>
      obtain ⟨l',h⟩ := (read_quoted hc s [] false l l args).1 r hq
        (by simp only [List.length_nil]; omega)
      rw [read_past s hl hbyte, h, List.nil_append, tokensFrom, if_neg (by decide),
        ← texts_word args (quotedText_paired c s hq) c]
      refine ih r hq _ _ _ _ ?_ (fun _ => by simp)
      have hany : (!(args++[storeWord (r.1++[c])]).isEmpty) = true := by simp
      rw [List.length_append, List.length_singleton, hany]
      exact hreg

theorem read_word_stop {s s' : Scan} {held : List UInt8} {args : List Word} {rc : Rc}
    (hl : held.length < ngxConfBuffer) (h : readByte s args.length ch = ⟨s',.keep,true,some rc⟩)
    (hrc : rc.stops = false) :
    readPlain s held args (ch::rest) = ⟨rc,args++[storeWord (held++[ch])]⟩::
      readPlain (wordScan false s'.line s'.line) [] [] rest := by
  rw [readPlain, if_neg (by omega), h]
  simp only [if_true, hrc, Bool.false_eq_true, if_false]
  rfl

theorem reads_plain_end {t : UInt8} (ht : endsPlain t = true) (ih : Reads false s) (v : Bool)
    (hv : v = true → t ≠ openBrace) (sl l : ℕ) {text : List UInt8} (hp : Paired text)
    (args : List Word) (hreg : regular text.length true (lex (t::s)) = true) :
    (readPlain (plainScan false v sl l) text args (t::s)).map tokenOf =
      tokensFrom (texts args++[decode text]) false (lex (t::s)) := by
  have hbyte := byte_plain false v sl l args.length t
  have hne : t ≠ backslash ∧ t ≠ dollar := by
    rw [← endsPlain_iff] at ht
    constructor
    · rintro rfl
      revert ht
      decide
    · rintro rfl
      revert ht
      decide
  have hvt : ¬ (t = openBrace ∧ v = true) := fun h => hv h.2 h.1
  rw [if_neg (by decide), if_neg hvt, if_neg hne.1, if_neg hne.2, if_pos ht] at hbyte
  have hargs : (!(args++[storeWord (text++[t])]).isEmpty) = true := by simp
  have hta : texts args++[decode text] ≠ [] := by simp
  have hstop : t = semicolon ∨ t = openBrace → regular text.length true (.punct t::lex s) = true →
      (readPlain (plainScan false v sl l) text args (t::s)).map tokenOf =
        tokensFrom (texts args++[decode text]) false (.punct t::lex s) := by
    intro hpt hr
    replace hr := regular_punct hr
    have hnext := fun line => ih line line [] [] hr.2 (by rintro ⟨⟩)
    rcases hpt with rfl | rfl
    · rw [if_pos rfl] at hbyte
      rw [read_word_stop s hr.1 hbyte rfl, tokens_semicolon hta, List.map_cons, hnext,
        ← texts_word args hp semicolon]
      rfl
    rw [if_neg (by decide), if_pos rfl] at hbyte
    rw [read_word_stop s hr.1 hbyte rfl, tokens_open hta, List.map_cons, hnext,
      ← texts_word args hp openBrace]
    rfl
  by_cases hb : isBlank t = true
  · have hns : t ≠ semicolon ∧ t ≠ openBrace := by
      constructor
      · rintro rfl
        exact absurd hb (by decide)
      · rintro rfl
        exact absurd hb (by decide)
    rw [if_neg hns.1, if_neg hns.2] at hbyte
    rw [lex_blank hb] at hreg ⊢
    replace hreg := regular_blank hreg
    rw [read_word s hreg.1 hbyte, tokensFrom, ← texts_word args hp t]
    refine ih _ _ _ _ ?_ (by rintro ⟨⟩)
    rw [List.length_append, List.length_singleton, hargs]
    exact hreg.2
  have hpt : t = semicolon ∨ t = openBrace :=
    ((endsPlain_iff t).mpr ht).resolve_left hb
  have hlex : lex (t::s) = .punct t::lex s := lex_punct (hpt.imp_right Or.inl) s
  rw [hlex] at hreg ⊢
  exact hstop hpt hreg

theorem reads_plain (hc : StartsPlain c)
    (ih : ∀ r t rest, plainText (c::s) = some r → r.2 = t::rest → Reads false rest) :
    Reads closed (c::s) := by
  intro sl l held args hreg hcl
  obtain ⟨hsome,hnone⟩ := lex_plain hc s
  obtain ⟨hread,hend⟩ := read_first hc s l args
  cases hq : plainText (c::s) with
  | none =>
    rw [hnone hq] at hreg ⊢
    simp only [regular, Bool.and_eq_true, decide_eq_true_eq] at hreg
    obtain ⟨hany,hl,ht,hno⟩ := hreg
    rw [tokensFrom]
    by_cases hcp : closed = true → c = closeParen
    · obtain ⟨l',h⟩ := hend hq (by simpa using ht) (hno trivial)
      have hlen : args.length > 0 := by
        cases args with
        | nil => cases hany
        | cons a args => exact Nat.succ_pos _
      rw [read_here s hl (byte_first hc closed sl l args.length hcp), h, endOfFile, if_pos hlen]
      rfl
    rw [Classical.not_imp] at hcp
    obtain ⟨rfl,hcp⟩ := hcp
    exact reads_closed hc.blank hc.punct hcp sl l held args hl
  | some r =>
    rw [hsome r hq] at hreg ⊢
    simp only [regular, Bool.and_eq_true, decide_eq_true_eq] at hreg
    obtain ⟨⟨hl,ht,hno,hns⟩,hreg⟩ := hreg
    obtain ⟨t,rest,hr,hte⟩ := plainText_head hq
    have hhead : r.1.head? = some c := by
      have hsplit := plainText_length (c::s) hq
      have he : endsPlain c = false := by
        have := hc.punct
        simp only [not_or] at this
        simp [endsPlain, hc.blank, this.1, this.2.1]
      have hpos := plainText_nonempty he hq
      cases h1 : r.1 with
      | nil => simp [h1] at hpos
      | cons a text =>
        rw [h1] at hsplit
        rw [(List.cons.inj hsplit).1]
        rfl
    rw [tokensFrom, hhead]
    by_cases hcp : closed = true → c = closeParen
    · have hcp' : ¬ (closed = true ∧ some c ≠ some closeParen) := by
        rintro ⟨h1,h2⟩
        exact h2 (by rw [hcp h1])
      have hns' : ¬ ([dollar, openBrace] <:+ r.1 ∧ r.2.head? = some openBrace) := by
        rintro ⟨h1,h2⟩
        rw [hr] at h2
        obtain rfl := Option.some.inj h2
        refine hns ⟨h1,?_⟩
        rw [hr, lex_punct (Or.inr (Or.inl rfl))]
        rfl
      obtain ⟨v',l',hv,h⟩ := hread r hq ht hno hns'
      rw [if_neg hcp', read_here s hl (byte_first hc closed sl l args.length hcp), h]
      rw [hr] at hv hreg ⊢
      exact reads_plain_end hte (ih r t rest hq hr) v' (fun h1 h2 => hv h1 (by rw [h2]; rfl)) l
        l' (plainText_paired (c::s) hq) args hreg
    rw [Classical.not_imp] at hcp
    obtain ⟨rfl,hcp⟩ := hcp
    rw [reads_closed hc.blank hc.punct hcp sl l held args hl,
      if_pos ⟨rfl,fun h => hcp (Option.some.inj h)⟩]

theorem reads_all (s : List UInt8) (closed : Bool) : Reads closed s := by
  induction hn : s.length using Nat.strong_induction_on generalizing s closed with
  | _ n ih =>
    cases s with
    | nil =>
      intro sl l held args _ hc
      have hlex : lex [] = [] := by rw [lex]
      rw [hlex, readPlain, tokensFrom]
      by_cases hargs : args = []
      · subst hargs
        rfl
      rw [if_neg fun h => hargs ((texts_eq_nil args).mp h),
        if_pos (List.length_pos_iff.mpr hargs)]
      rfl
    | cons c s =>
      simp only [List.length_cons] at hn
      by_cases hb : isBlank c = true
      · exact reads_blank closed hb (ih s.length (by omega) s false rfl)
      by_cases hs : c = sharp
      · subst hs
        have hl := (s.dropWhile_sublist (· ≠ lf)).length_le
        exact reads_comment closed (ih _ (by omega) _ false rfl)
      by_cases hp : c = semicolon ∨ c = openBrace ∨ c = closeBrace
      · exact reads_punct closed hp (ih s.length (by omega) s false rfl)
      by_cases hq : c = doubleQuote ∨ c = singleQuote
      · refine reads_quoted closed hq fun r hr => ih r.2.length ?_ r.2 true rfl
        have hl := congrArg List.length (quotedText_length c s hr)
        simp only [List.length_append, List.length_cons] at hl
        omega
      refine reads_plain closed ⟨by simpa using hb,hs,hp,hq⟩ fun r t rest hr hrt =>
        ih rest.length ?_ rest false rfl
      have hl := congrArg List.length (plainText_length (c::s) hr)
      simp only [hrt, List.length_append, List.length_cons] at hl
      omega

/-- The calls that read a file give its tokens, wherever the buffer is filled again, and
each argument is stored within its memory. -/
theorem conf_tokens (content : List UInt8) (h : regular 0 false (lex content) = true) :
    ∃ calls, confCalls (content.length+1) (openConf content) = some calls ∧
      calls.map tokenOf = tokens content ∧ ∀ c ∈ calls, ∀ w ∈ c.args, w.data.length ≤ w.size := by
  have hh : Holds (openConf content) 0 [] content :=
    ⟨le_rfl,le_rfl,Nat.zero_le _,rfl,rfl,fun _ => Or.inr rfl⟩
  refine ⟨_,confCalls_spec _ _ content hh (by omega),?_,?_⟩
  · exact reads_all content false 1 1 [] [] h (by rintro ⟨⟩)
  · exact readPlain_fits _ _ _ _ (by simp)

theorem conf_tokens_command : ∃ calls,
    confCalls 5 (openConf [97, space, 98, semicolon]) = some calls ∧
      calls.map tokenOf = tokens [97, space, 98, semicolon] ∧
      ∀ c ∈ calls, ∀ w ∈ c.args, w.data.length ≤ w.size :=
  conf_tokens _ (by
    simp [lex, isBlank, plainText, endsPlain, regular, space, tab, cr, lf, sharp, semicolon,
      openBrace, closeBrace, doubleQuote, singleQuote, backslash, dollar, ngxConfBuffer])

/-- A word may have a `}` in it, as `a};` shows. -/
theorem brace_in_word : ¬ ∀ (content : List UInt8) (calls : List Call),
    (∀ b ∈ content, b ∉ [sharp, backslash, dollar, doubleQuote, singleQuote]) →
      confCalls (content.length+1) (openConf content) = some calls →
      ∀ c ∈ calls, ∀ w ∈ c.args, closeBrace ∉ w.data := by
  intro h
  have hcalls : confCalls 4 (openConf [97, closeBrace, semicolon]) =
      some [⟨.ok,[⟨[97, closeBrace, 0],2,4⟩]⟩, ⟨.fileDone,[]⟩] := by decide
  have hword := h [97, closeBrace, semicolon] _ (by simp [closeBrace, semicolon, sharp, backslash,
    dollar, doubleQuote, singleQuote]) hcalls
  exact hword _ List.mem_cons_self _ List.mem_cons_self (by decide)

end Nginx.ConfTokensLaw
