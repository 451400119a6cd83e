import Nginx.ProxyRequest

/-!
# The proxied request as it is written

The second pass never writes more than the first has counted. What it writes is the request
line, the lines of the set headers and of the client's other headers, and the body, unless
one of five things goes wrong; each of them shows in the bytes.
-/

set_option autoImplicit false

namespace Nginx.ProxyRequestLaw
open TempMemory Script HeaderHash ProxyRequest

/-! What is to be sent -/

def configuredMethod (conf : LocConf) : List UInt8 :=
  conf.methodLevels.foldl (fun m level => if level = [] then m else level) conf.methodMain

def requestMethod (conf : LocConf) (r : Request) : List UInt8 :=
  if r.upstreamMethod ≠ [] then r.upstreamMethod
  else if configuredMethod conf ≠ [] then configuredMethod conf
  else r.methodName

def requestUri (conf : LocConf) (r : Request) : List UInt8 :=
  if conf.proxyLengths then r.varsUri
  else if unparsed r then r.unparsedUri
  else (if r.validLocation then r.varsUri else [])++
    ((if escapesUri r then ngxEscapeUri .uri (r.uri.drop (locLen conf r))
      else r.uri.drop (locLen conf r))++
    (if r.args = [] then [] else question::r.args))

def scriptText (v : Values) (codes : List Code) : List UInt8 :=
  codes.flatMap (copyCode v zeroEngine)

def entryText (v : Values) : Entry → List UInt8
  | .constant key value _ => headerLine key value
  | .script key codes _ =>
    if scriptText v codes = [] then [] else headerLine key (scriptText v codes)

def listed (conf : LocConf) (h : Header) : Bool :=
  (conf.headersSetHash.names.map ngxStrlow).contains h.lowcaseKey

def bodyText (conf : LocConf) (r : Request) : List UInt8 :=
  match conf.bodySet with
  | none => []
  | some body => scriptText r.values body.codes

/-- The request line, the set headers, the client's other headers, an empty line and the body -/
def requestText (conf : LocConf) (r : Request) : List UInt8 :=
  requestMethod conf r++(space::(requestUri conf r++(ngxHttpProxyVersion++
    (conf.headersSet.flatMap (entryText r.values)++
      (((r.headers.filter (!listed conf ·)).flatMap fun h => headerLine h.key h.value)++
        (crlf++bodyText conf r))))))

structure Exact (conf : LocConf) (r : Request) (out : Out) : Prop where
  bytes : written out.header.cells = some (requestText conf r)
  bodyLength : ∀ body, conf.bodySet = some body →
    out.internalBodyLength = some (scriptText r.values body.codes).length

def cutsLocation (conf : LocConf) (r : Request) : Bool := !conf.proxyLengths && !unparsed r

def lastSkipped (v : Values) (entries : List Entry) : Prop :=
  ∃ key codes plain, entries.getLast? = some (.script key codes plain) ∧ scriptText v codes = []

def isCapture : Code → Bool
  | .capture _ => true
  | _ => false

/-- What has to hold for the request to be right; `le` is what the stack holds. -/
structure Regular (le : Engine) (conf : LocConf) (r : Request) : Prop where
  /-- a method in use is not the one set for `http` only -/
  method : r.upstreamMethod = [] → conf.methodMain ≠ [] → ∃ level ∈ conf.methodLevels, level ≠ []
  /-- the URI is not shorter than the location that is cut off -/
  location : cutsLocation conf r = true → locLen conf r ≤ r.uri.length
  /-- the client's headers that are in the set list are found there by their hash -/
  hash : ∀ h ∈ r.headers, listed conf h = true → inSet conf h = true
  /-- no capture of the body is taken for one to be escaped -/
  captures : ∀ body, conf.bodySet = some body → escapes r.values le = true →
    ∀ n, Code.capture n ∈ body.codes → ∀ cap, r.values.captures[n]? = some cap →
      ngxEscapeCount .args cap = 0
  /-- if the last set header is skipped, the body has no text but that of captures -/
  skip : ∀ body, conf.bodySet = some body → lastSkipped r.values conf.headersSet →
    ∀ c ∈ body.codes, isCapture c = false → copyCode r.values zeroEngine c = []

/-! Texts of codes -/

variable (v : Values) (codes : List Code)

theorem scriptText_crlf : scriptText v (codes++[.copy crlf]) = scriptText v codes++crlf := by
  simp [scriptText, copyCode, zeroEngine]

/-- What an engine with other flags than the cleared one writes and counts for a code -/
theorem copyCode_skip (c : Code) (skip : Bool) :
    copyCode v { zeroEngine with skip := skip } c =
      if skip = true ∧ isCapture c = false then [] else copyCode v zeroEngine c := by
  cases skip with
  | false => rw [if_neg (by simp)]; rfl
  | true =>
    cases c with
    | copy | var | args => simp [copyCode, isCapture]
    | capture n => rfl

theorem zeroEngine_escapes : escapes v zeroEngine = false := rfl

variable (le : Engine)

theorem lenCode_ge (c : Code) : (copyCode v zeroEngine c).length ≤ lenCode v le c :=
  copyCode_length v c rfl (by rw [zeroEngine_escapes]; rintro ⟨⟩)

theorem lenSum_ge (codes : List Code) :
    (scriptText v codes).length ≤ (codes.map (lenCode v le)).sum := by
  induction codes with
  | nil => exact le_rfl
  | cons c codes ih =>
    have hc := lenCode_ge v le c
    simp only [scriptText, List.flatMap_cons, List.length_append, List.map_cons,
      List.sum_cons] at ih ⊢
    omega

theorem lenCode_zero {c : Code} (hc : c ≠ .args) (h : copyCode v zeroEngine c = []) :
    lenCode v le c = 0 := by
  cases c with
  | args => exact absurd rfl hc
  | copy data =>
    simp only [copyCode, zeroEngine, Bool.false_eq_true, if_false] at h
    simp [lenCode, h]
  | var index =>
    simp only [copyCode, zeroEngine, Bool.false_eq_true, if_false] at h
    simp [lenCode, h]
  | capture n =>
    simp only [copyCode, lenCode, zeroEngine_escapes, Bool.false_eq_true, if_false] at h ⊢
    cases hcap : v.captures[n]? with
    | none => rfl
    | some cap =>
      rw [hcap] at h
      simp only at h
      subst h
      simp [ngxEscapeCount]

theorem lenSum_zero {codes : List Code} (hp : Code.args ∉ codes) :
    (codes.map (lenCode v le)).sum = 0 ↔ scriptText v codes = [] := by
  constructor
  · intro h
    have := lenSum_ge v le codes
    exact List.eq_nil_of_length_eq_zero (by omega)
  · intro h
    induction codes with
    | nil => rfl
    | cons c codes ih =>
      simp only [scriptText, List.flatMap_cons, List.append_eq_nil_iff, List.mem_cons,
        not_or] at h hp ih
      rw [List.map_cons, List.sum_cons, lenCode_zero v le (Ne.symm hp.1) h.1, ih hp.2 h.2]

/-! The set headers -/

def entrySkip (v : Values) : Entry → Bool
  | .constant _ _ _ => false
  | .script _ codes _ => scriptText v codes = []

theorem rest_length (en : Entry) :
    (if en.rest = [] then false else decide ((lenRun v le en.rest).1 = 2)) = entrySkip v en ∧
      (lenRun v le en.rest).2 = le := by
  cases en with
  | constant key value h => exact ⟨rfl,rfl⟩
  | script key codes h =>
    have hp : Code.args ∉ codes++[Code.copy crlf] := by simpa using h
    have hl : (lenRun v le (codes++[Code.copy crlf])).1 = (codes.map (lenCode v le)).sum+2 := by
      rw [lenRun_plain v le hp]
      simp [lenCode, crlf]
    refine ⟨?_,by rw [Entry.rest, lenRun_plain v le hp]⟩
    rw [Entry.rest, if_neg (by simp), hl, entrySkip]
    refine decide_eq_decide.mpr ?_
    rw [← lenSum_zero v le h]
    omega

theorem program_text (en : Entry) :
    en.program.flatMap (copyCode v { zeroEngine with skip := entrySkip v en }) =
      entryText v en := by
  cases en with
  | constant key value h =>
    simp [Entry.program, Entry.rest, Entry.head, entrySkip, entryText, copyCode, headerLine,
      zeroEngine]
  | script key codes h =>
    rw [Entry.program, Entry.rest, Entry.head, entryText]
    by_cases ht : scriptText v codes = []
    · have hs : entrySkip v (.script key codes h) = true := decide_eq_true ht
      rw [if_pos ht, hs]
      rw [scriptText, List.flatMap_eq_nil_iff] at ht
      simp only [List.flatMap_cons, List.flatMap_append, List.flatMap_nil, copyCode, if_true,
        List.nil_append, List.append_nil]
      refine List.flatMap_eq_nil_iff.mpr fun c hc => ?_
      have hk := copyCode_skip v c true
      rw [ht c hc] at hk
      rw [hk]
      split <;> rfl
    have hs : entrySkip v (.script key codes h) = false := decide_eq_false ht
    rw [if_neg ht, hs, List.flatMap_cons]
    have hc := scriptText_crlf v codes
    rw [scriptText] at hc
    change (key++colon)++(codes++[Code.copy crlf]).flatMap (copyCode v zeroEngine) = _
    rw [hc, headerLine, List.append_assoc]

theorem writeEntry_adds (en : Entry) {b : Block UInt8} {k : Bool}
    (h : b.cells.length+(entryText v en).length ≤ b.size) :
    ∃ b', writeEntry v ⟨b,{ zeroEngine with skip := k },le⟩ en =
        some ⟨b',{ zeroEngine with skip := entrySkip v en },le⟩ ∧
      Adds b b' (entryText v en) := by
  obtain ⟨hs,hle⟩ := rest_length v le en
  rw [← program_text] at h
  obtain ⟨b',hb',ha⟩ := copyRun_plain v _ en.plain h
  rw [program_text] at ha
  refine ⟨b',?_,ha⟩
  simp only [writeEntry, hs, hle]
  simp only [zeroEngine] at hb' ⊢
  rw [hb']
  rfl

def finalSkip (v : Values) (k : Bool) (entries : List Entry) : Bool :=
  (entries.getLast?.map (entrySkip v)).getD k

theorem writeEntry_run (entries : List Entry) {b : Block UInt8} {k : Bool}
    (h : b.cells.length+(entries.flatMap (entryText v)).length ≤ b.size) :
    ∃ b', entries.foldlM (writeEntry v) ⟨b,{ zeroEngine with skip := k },le⟩ =
        some ⟨b',{ zeroEngine with skip := finalSkip v k entries },le⟩ ∧
      Adds b b' (entries.flatMap (entryText v)) := by
  induction entries generalizing b k with
  | nil => exact ⟨b,rfl,Adds.refl b⟩
  | cons en entries ih =>
    simp only [List.flatMap_cons, List.length_append] at h
    obtain ⟨b₁,h₁,a₁⟩ := writeEntry_adds v le en (b := b) (k := k) (by omega)
    obtain ⟨b₂,h₂,a₂⟩ := ih (b := b₁) (k := entrySkip v en) (by rw [a₁.length, a₁.size]; omega)
    refine ⟨b₂,?_,a₁.trans a₂⟩
    rw [List.foldlM_cons, h₁]
    simp only [Option.bind_eq_bind, Option.bind_some]
    rw [h₂]
    cases entries with
    | nil => rfl
    | cons x xs =>
      simp only [finalSkip, List.getLast?_cons_cons]
      rw [List.getLast?_eq_some_getLast (List.cons_ne_nil x xs)]
      rfl

theorem headersSetLen_spec (entries : List Entry) :
    (entries.flatMap (entryText v)).length ≤ (headersSetLen v le entries).1 ∧
      (headersSetLen v le entries).2 = le := by
  induction entries with
  | nil => exact ⟨le_rfl,rfl⟩
  | cons en entries ih =>
    have hrun := lenRun_plain v le en.plain
    have hlen : (entryText v en).length ≤ (en.program.map (lenCode v le)).sum := by
      have hsum := lenSum_ge v le en.program
      cases en with
      | constant key value h =>
        simpa [Entry.program, Entry.rest, Entry.head, entryText, headerLine, scriptText,
          copyCode, zeroEngine] using hsum
      | script key codes h =>
        rw [entryText]
        split
        · exact Nat.zero_le _
        · refine le_trans (le_of_eq ?_) hsum
          have hc := scriptText_crlf v codes
          have hp : scriptText v (Entry.script key codes h).program =
              (key++colon)++scriptText v (codes++[Code.copy crlf]) := rfl
          rw [hp, hc, headerLine, List.append_assoc]
    simp only [headersSetLen, hrun, List.flatMap_cons, List.length_append]
    exact ⟨by omega,ih.2⟩

/-! The client's headers -/

/-- The lines of the client's headers that are not found in the set list -/
def clientText (conf : LocConf) (r : Request) : List UInt8 :=
  if conf.passRequestHeaders then
    (r.headers.filter (!inSet conf ·)).flatMap fun h => headerLine h.key h.value
  else []

variable (conf : LocConf) (r : Request)

theorem headersLen_spec : headersLen conf r = (clientText conf r).length := by
  simp only [headersLen, clientText]
  split
  · rw [List.length_flatMap]
    refine congrArg List.sum (List.map_congr_left fun h _ => ?_)
    simp only [headerLine, List.length_append, colon, crlf, List.length_cons, List.length_nil]
    omega
  · rfl

theorem writeClientHeader_adds (b : Block UInt8) (h : Header)
    (hb : b.cells.length+(if inSet conf h then [] else headerLine h.key h.value).length ≤ b.size) :
    ∃ b', writeClientHeader conf b h = some b' ∧
      Adds b b' (if inSet conf h then [] else headerLine h.key h.value) := by
  by_cases hi : inSet conf h = true
  · rw [writeClientHeader, if_pos hi, if_pos hi]
    exact ⟨b,rfl,Adds.refl b⟩
  rw [writeClientHeader, if_neg hi, if_neg hi]
  rw [if_neg hi] at hb
  simp only [headerLine, List.length_append] at hb
  obtain ⟨b₁,h₁,a₁⟩ := put_adds (b := b) (s := h.key) (by omega)
  obtain ⟨b₂,h₂,a₂⟩ := put_adds (b := b₁) (s := colon) (by rw [a₁.length, a₁.size]; omega)
  obtain ⟨b₃,h₃,a₃⟩ := put_adds (b := b₂) (s := h.value)
    (by rw [a₂.length, a₂.size, a₁.length, a₁.size]; omega)
  obtain ⟨b₄,h₄,a₄⟩ := put_adds (b := b₃) (s := crlf)
    (by rw [a₃.length, a₃.size, a₂.length, a₂.size, a₁.length, a₁.size]; omega)
  refine ⟨b₄,?_,a₁.trans (a₂.trans (a₃.trans a₄))⟩
  rw [h₁, Option.bind_some, h₂, Option.bind_some, h₃, Option.bind_some, h₄]

theorem writeClientHeader_run {b : Block UInt8}
    (h : b.cells.length+(clientText conf r).length ≤ b.size) :
    ∃ b', (if conf.passRequestHeaders then r.headers.foldlM (writeClientHeader conf) b
        else some b) = some b' ∧ Adds b b' (clientText conf r) := by
  by_cases hp : conf.passRequestHeaders = true
  · have htext : clientText conf r = r.headers.flatMap fun h =>
        if inSet conf h then [] else headerLine h.key h.value := by
      rw [clientText, if_pos hp]
      induction r.headers with
      | nil => rfl
      | cons h hs ih =>
        rw [List.filter_cons, List.flatMap_cons, ← ih]
        cases inSet conf h <;> rfl
    rw [htext] at h ⊢
    rw [if_pos hp]
    exact foldlM_adds _ (writeClientHeader_adds conf) _ h
  · rw [if_neg hp, clientText, if_neg hp]
    exact ⟨b,rfl,Adds.refl b⟩

/-! The request line -/

theorem merge_none {levels : List (List UInt8)} (h : ∀ level ∈ levels, level = [])
    (m : List UInt8) :
    levels.foldl mergeMethod m = m ∧
      levels.foldl (fun m level => if level = [] then m else level) m = m := by
  induction levels with
  | nil => exact ⟨rfl,rfl⟩
  | cons level levels ih =>
    have hl := h level List.mem_cons_self
    subst hl
    exact ih fun l hl => h l (List.mem_cons_of_mem _ hl)

theorem merge_some {levels : List (List UInt8)} (h : ∃ level ∈ levels, level ≠ [])
    (m m' : List UInt8) :
    levels.foldl mergeMethod m =
        levels.foldl (fun m level => if level = [] then m else level) m'++[space] ∧
      levels.foldl (fun m level => if level = [] then m else level) m' ≠ [] := by
  induction levels generalizing m m' with
  | nil =>
    obtain ⟨_,hm,_⟩ := h
    cases hm
  | cons level levels ih =>
    by_cases hs : ∃ level ∈ levels, level ≠ []
    · exact ih hs _ _
    have hall : ∀ level ∈ levels, level = [] := by
      intro l hl
      by_contra hne
      exact hs ⟨l,hl,hne⟩
    obtain ⟨l,hl,hne⟩ := h
    obtain rfl : l = level := (List.mem_cons.mp hl).resolve_right fun hm => hne (hall l hm)
    rw [List.foldl_cons, List.foldl_cons, (merge_none hall _).1, (merge_none hall _).2,
      mergeMethod, if_neg (by simpa using hne), if_neg hne]
    exact ⟨rfl,hne⟩

theorem method_spec :
    ((r.upstreamMethod = [] → conf.methodMain ≠ [] →
        ∃ level ∈ conf.methodLevels, level ≠ []) →
      method conf r = requestMethod conf r++[space]) ∧
    (¬ (r.upstreamMethod = [] → conf.methodMain ≠ [] →
        ∃ level ∈ conf.methodLevels, level ≠ []) → method conf r = requestMethod conf r) := by
  rw [method, requestMethod]
  by_cases hu : r.upstreamMethod = []
  · have hu' : ¬ r.upstreamMethod.length > 0 := by simp [hu]
    rw [if_neg hu', if_neg (not_not.mpr hu)]
    by_cases hl : ∃ level ∈ conf.methodLevels, level ≠ []
    · obtain ⟨hm,hne⟩ := merge_some hl conf.methodMain conf.methodMain
      rw [← configuredMethod] at hm hne
      rw [← LocConf.method] at hm
      rw [if_pos (by simp [hm]), if_pos hne]
      exact ⟨fun _ => hm,fun h => absurd (fun _ _ => hl) h⟩
    have hall : ∀ level ∈ conf.methodLevels, level = [] := by
      intro l hm
      by_contra hne
      exact hl ⟨l,hm,hne⟩
    obtain ⟨h1,h2⟩ := merge_none hall conf.methodMain
    rw [← LocConf.method] at h1
    rw [← configuredMethod] at h2
    rw [h1, h2]
    by_cases hm : conf.methodMain = []
    · have hm' : ¬ conf.methodMain.length > 0 := by simp [hm]
      rw [if_neg hm', if_neg (not_not.mpr hm)]
      exact ⟨fun _ => rfl,fun h => absurd (fun _ h2 => absurd hm h2) h⟩
    · rw [if_pos (List.length_pos_iff.mpr hm), if_pos hm]
      exact ⟨fun h => absurd (h hu hm) hl,fun _ => rfl⟩
  · rw [if_pos (List.length_pos_iff.mpr hu), if_pos hu]
    exact ⟨fun _ => rfl,fun h => absurd (fun h1 => absurd h1 hu) h⟩

theorem cuts_iff :
    cutsLocation conf r = true ↔ ¬ conf.proxyLengths = true ∧ ¬ unparsed r = true := by
  simp [cutsLocation]

theorem uri_spec (hloc : cutsLocation conf r = true → locLen conf r ≤ r.uri.length) :
    ∃ u, uriLen conf r = some u ∧ (requestUri conf r).length ≤ u.2 ∧
      ∀ b : Block UInt8, b.cells.length+(requestUri conf r).length ≤ b.size →
        ∃ b', writeUri conf r u.1 b = some b' ∧ Adds b b' (requestUri conf r) := by
  by_cases hp : conf.proxyLengths = true
  · simp only [uriLen, requestUri, writeUri, hp, if_true]
    exact ⟨_,rfl,le_rfl,fun b hb => put_adds hb⟩
  by_cases hun : unparsed r = true
  · simp only [uriLen, requestUri, writeUri, hp, hun, if_true, if_false, Bool.false_eq_true]
    exact ⟨_,rfl,le_rfl,fun b hb => put_adds hb⟩
  have hl := hloc ((cuts_iff conf r).mpr ⟨hp,hun⟩)
  obtain ⟨path,hpath⟩ : ∃ path, (if escapesUri r then
      ngxEscapeUri .uri (r.uri.drop (locLen conf r)) else r.uri.drop (locLen conf r)) = path :=
    ⟨_,rfl⟩
  obtain ⟨esc,hesc⟩ : ∃ esc, (if escapesUri r then
      2*ngxEscapeCount .uri (r.uri.drop (locLen conf r)) else 0) = esc := ⟨_,rfl⟩
  have hwrite : (if esc > 0 then ngxEscapeUri .uri (r.uri.drop (locLen conf r))
      else r.uri.drop (locLen conf r)) = path := by
    rw [← hpath, ← hesc]
    by_cases he : escapesUri r = true
    · rw [if_pos he, if_pos he]
      split
      · rfl
      · exact (escape_none (by omega)).symm
    · rw [if_neg he, if_neg he, if_neg (by omega)]
  have hlen : path.length = r.uri.length-locLen conf r+esc := by
    rw [← hpath, ← hesc]
    split
    · rw [escape_length, List.length_drop]
    · rw [List.length_drop, Nat.add_zero]
  have huri : requestUri conf r = (if r.validLocation then r.varsUri else [])++(path++
      (if r.args = [] then [] else question::r.args)) := by
    rw [requestUri, if_neg hp, if_neg hun, hpath]
  have hvars : (if r.validLocation then r.varsUri else []).length ≤ r.varsUri.length := by
    split
    · exact le_rfl
    · exact Nat.zero_le _
  have hargs : (if r.args = [] then [] else question::r.args).length ≤ 1+r.args.length := by
    split
    · exact Nat.zero_le _
    · rw [List.length_cons]
      omega
  refine ⟨(esc,r.varsUri.length+r.uri.length+esc+1+r.args.length-locLen conf r),?_,?_,?_⟩
  · rw [uriLen, if_neg hp, if_neg hun, if_neg (by simp; omega)]
    simp only [hesc]
    rw [if_pos (by omega)]
  · rw [huri, List.length_append, List.length_append, hlen]
    simp only
    omega
  · intro b hb
    rw [huri] at hb ⊢
    simp only [List.length_append] at hb
    obtain ⟨b₁,h₁,a₁⟩ := put_adds (b := b) (s := if r.validLocation then r.varsUri else [])
      (by omega)
    obtain ⟨b₂,h₂,a₂⟩ := put_adds (b := b₁) (s := path) (by rw [a₁.length, a₁.size]; omega)
    rw [writeUri, if_neg hp, if_neg hun, h₁, Option.bind_some, if_neg (by omega), hwrite, h₂,
      Option.bind_some]
    by_cases ha : r.args = []
    · rw [if_neg (by simp [ha]), if_pos ha, List.append_nil]
      exact ⟨b₂,rfl,a₁.trans a₂⟩
    rw [if_neg ha, List.length_cons] at hb
    obtain ⟨b₃,h₃,a₃⟩ := put_adds (b := b₂) (s := [question])
      (by rw [a₂.length, a₂.size, a₁.length, a₁.size]; change _+1 ≤ _; omega)
    obtain ⟨b₄,h₄,a₄⟩ := put_adds (b := b₃) (s := r.args)
      (by
        rw [a₃.length, a₃.size, a₂.length, a₂.size, a₁.length, a₁.size]
        change _+1+_ ≤ _
        omega)
    rw [if_pos (List.length_pos_iff.mpr ha), if_neg ha, h₃]
    exact ⟨b₄,h₄,a₁.trans (a₂.trans (a₃.trans a₄))⟩

theorem location_longer (memory : ℕ → Bool) (le : Engine) (conf : LocConf) (r : Request)
    (hcut : cutsLocation conf r = true) (hl : r.uri.length < locLen conf r) :
    ngxHttpProxyCreateRequest memory le conf r = none ∨
      ngxHttpProxyCreateRequest memory le conf r = some .error := by
  obtain ⟨hp,hun⟩ := (cuts_iff conf r).mp hcut
  have hwrite : ∀ esc b, writeUri conf r esc b = none := by
    intro esc b
    rw [writeUri, if_neg hp, if_neg hun]
    simp only [hl, if_true]
    cases b.put (if r.validLocation then r.varsUri else []) <;> rfl
  have hheader : ∀ le esc len, writeHeader conf r le esc len = none := by
    intro le esc len
    rw [writeHeader]
    simp only [hwrite]
    cases (Block.create len).put (method conf r) <;> rfl
  rw [ngxHttpProxyCreateRequest]
  simp only [hheader]
  cases uriLen conf r with
  | none => exact Or.inl rfl
  | some u =>
    rw [Option.bind_some]
    split
    · exact Or.inr rfl
    · split
      · exact Or.inl rfl
      · exact Or.inr rfl

/-! What is written -/

def bodyWritten (conf : LocConf) (r : Request) : List UInt8 :=
  match conf.bodySet with
  | none => []
  | some body => body.codes.flatMap (copyCode r.values
      { zeroEngine with skip := finalSkip r.values false conf.headersSet })

def writtenText (conf : LocConf) (r : Request) : List UInt8 :=
  method conf r++(requestUri conf r++(ngxHttpProxyVersion++
    (conf.headersSet.flatMap (entryText r.values)++
      (clientText conf r++(crlf++bodyWritten conf r)))))

variable (skip : Bool)

theorem written_code (c : Code) :
    (copyCode v { zeroEngine with skip := skip } c).length ≤ (copyCode v zeroEngine c).length := by
  rw [copyCode_skip]
  split
  · exact Nat.zero_le _
  · exact le_rfl

theorem written_codes (codes : List Code) :
    (codes.flatMap (copyCode v { zeroEngine with skip := skip })).length ≤
      (scriptText v codes).length := by
  induction codes with
  | nil => exact le_rfl
  | cons c codes ih =>
    rw [scriptText, List.flatMap_cons, List.flatMap_cons, List.length_append,
      List.length_append, ← scriptText]
    exact Nat.add_le_add (written_code v skip c) ih

theorem writeHeader_spec (le : Engine) {esc : ℕ} (len : ℕ)
    (huri : ∀ b : Block UInt8, b.cells.length+(requestUri conf r).length ≤ b.size → ∃ b', writeUri
      conf r esc b = some b' ∧ Adds b b' (requestUri conf r))
    (hlen : (writtenText conf r).length ≤ len) :
    ∃ b, writeHeader conf r le esc len = some b ∧ written b.cells = some (writtenText conf r) := by
  have hversion : ngxHttpProxyVersion.length = 11 := rfl
  have hcrlf : crlf.length = 2 := rfl
  simp only [writtenText, List.length_append] at hlen
  obtain ⟨b₁,h₁,a₁⟩ := put_adds (b := Block.create len) (s := method conf r)
    (by simp only [Block.create, List.length_nil]; omega)
  have l₁ : b₁.cells.length = (method conf r).length := by
    rw [a₁.length]
    exact Nat.zero_add _
  have z₁ : b₁.size = len := a₁.size
  obtain ⟨b₂,h₂,a₂⟩ := huri b₁ (by omega)
  obtain ⟨b₃,h₃,a₃⟩ := put_adds (b := b₂) (s := ngxHttpProxyVersion)
    (by rw [a₂.length, a₂.size]; omega)
  obtain ⟨b₄,h₄,a₄⟩ := writeEntry_run r.values le conf.headersSet (b := b₃) (k := false)
    (by rw [a₃.length, a₃.size, a₂.length, a₂.size]; omega)
  obtain ⟨b₅,h₅,a₅⟩ := writeClientHeader_run conf r (b := b₄)
    (by rw [a₄.length, a₄.size, a₃.length, a₃.size, a₂.length, a₂.size]; omega)
  obtain ⟨b₆,h₆,a₆⟩ := put_adds (b := b₅) (s := crlf)
    (by rw [a₅.length, a₅.size, a₄.length, a₄.size, a₃.length, a₃.size, a₂.length, a₂.size]; omega)
  have l₆ : b₆.cells.length+(bodyWritten conf r).length ≤ b₆.size := by
    rw [a₆.length, a₆.size, a₅.length, a₅.size, a₄.length, a₄.size, a₃.length, a₃.size,
      a₂.length, a₂.size]
    omega
  have ha := a₁.trans (a₂.trans (a₃.trans (a₄.trans (a₅.trans a₆))))
  obtain ⟨b₇,h₇,a₇⟩ : ∃ b₇, (match conf.bodySet with
      | none => some b₆
      | some body => (copyRun r.values
          { zeroEngine with skip := finalSkip r.values false conf.headersSet } b₆
          body.codes).map Prod.fst) = some b₇ ∧ Adds b₆ b₇ (bodyWritten conf r) := by
    rw [bodyWritten] at l₆ ⊢
    cases hbody : conf.bodySet with
    | none => exact ⟨b₆,rfl,Adds.refl b₆⟩
    | some body =>
      rw [hbody] at l₆
      obtain ⟨b₇,h₇,a₇⟩ := copyRun_plain r.values _ body.plain l₆
      exact ⟨b₇,by simp only [h₇]; rfl,a₇⟩
  refine ⟨b₇,?_,?_⟩
  · have h₄' : conf.headersSet.foldlM (writeEntry r.values) ⟨b₃,zeroEngine,le⟩ = _ := h₄
    rw [writeHeader, h₁, Option.bind_some, h₂, Option.bind_some, h₃, Option.bind_some, h₄',
      Option.bind_some]
    simp only
    rw [h₅, Option.bind_some, h₆, Option.bind_some]
    exact h₇
  · rw [(ha.trans a₇).cells, Block.create, List.nil_append, written_map_some, writtenText]
    simp only [List.append_assoc]

theorem create_spec (memory : ℕ → Bool) (le : Engine) (conf : LocConf) (r : Request)
    (hloc : cutsLocation conf r = true → locLen conf r ≤ r.uri.length) :
    ngxHttpProxyCreateRequest memory le conf r = some .error ∨
      ∃ out, ngxHttpProxyCreateRequest memory le conf r = some (.ok out) ∧
        written out.header.cells = some (writtenText conf r) ∧
        out.internalBodyLength = conf.bodySet.map fun body =>
          (body.codes.map (lenCode r.values le)).sum := by
  obtain ⟨u,hu,hul,hwrite⟩ := uri_spec conf r hloc
  obtain ⟨body,hbody⟩ : ∃ body, (conf.bodySet.map fun body => lenRun r.values le body.codes) =
    body := ⟨_,rfl⟩
  have hle : body.elim le Prod.snd = le := by
    rw [← hbody]
    cases hb : conf.bodySet with
    | none => rfl
    | some b => simp [lenRun_plain r.values le b.plain]
  have hlen : body.map Prod.fst = conf.bodySet.map fun body =>
      (body.codes.map (lenCode r.values le)).sum := by
    rw [← hbody]
    cases hb : conf.bodySet with
    | none => rfl
    | some b => simp [lenRun_plain r.values le b.plain]
  have hbl : (bodyWritten conf r).length ≤ (body.map Prod.fst).getD 0 := by
    rw [hlen, bodyWritten]
    cases conf.bodySet with
    | none => exact le_rfl
    | some b => exact (written_codes _ _ _).trans (lenSum_ge _ _ _)
  obtain ⟨hsl,hse⟩ := headersSetLen_spec r.values le conf.headersSet
  rw [ngxHttpProxyCreateRequest, hu, Option.bind_some]
  split
  · exact Or.inl rfl
  · simp only [hbody, hle, hse]
    split
    · refine Or.inr ?_
      obtain ⟨b,hb,hw⟩ := writeHeader_spec conf r le
        ((method conf r).length+11+2+u.2+(body.map Prod.fst).getD 0+
          (headersSetLen r.values le conf.headersSet).1+headersLen conf r) hwrite (by
          have hversion : ngxHttpProxyVersion.length = 11 := rfl
          have hcrlf : crlf.length = 2 := rfl
          simp only [writtenText, List.length_append, headersLen_spec]
          omega)
      rw [hb]
      exact ⟨_,rfl,hw,hlen⟩
    · exact Or.inl rfl

/-! What shows in the bytes -/

theorem shifted {a x y : List UInt8} {c : UInt8} (h : a++x = c::(a++y)) : ∀ b ∈ a, b = c := by
  induction a with
  | nil => simp
  | cons d a ih =>
    obtain ⟨hd,ht⟩ := List.cons.inj h
    subst hd
    intro b hb
    rcases List.mem_cons.mp hb with rfl | hb
    · rfl
    · exact ih ht b hb

theorem line_cancel {l m x y : List UInt8} (hl : ∀ c ∈ l, c ≠ 13) (hm : ∀ c ∈ m, c ≠ 13)
    (h : l++(13::x) = m++(13::y)) : l = m ∧ x = y := by
  induction l generalizing m with
  | nil =>
    cases m with
    | nil => exact ⟨rfl,(List.cons.inj h).2⟩
    | cons c m => exact absurd (List.cons.inj h).1.symm (hm c List.mem_cons_self)
  | cons c l ih =>
    cases m with
    | nil => exact absurd (List.cons.inj h).1 (hl c List.mem_cons_self)
    | cons d m =>
      obtain ⟨hcd,ht⟩ := List.cons.inj h
      have ht := ih (fun c hc => hl c (List.mem_cons_of_mem _ hc))
        (fun c hc => hm c (List.mem_cons_of_mem _ hc)) ht
      exact ⟨by rw [hcd, ht.1],ht.2⟩

theorem lines_cancel {ls ls' : List (List UInt8)} (hl : ∀ l ∈ ls, l ≠ [] ∧ ∀ c ∈ l, c ≠ 13)
    (hl' : ∀ l ∈ ls', l ≠ [] ∧ ∀ c ∈ l, c ≠ 13) {w w' : List UInt8}
    (h : ls.flatMap (·++crlf)++(crlf++w) = ls'.flatMap (·++crlf)++(crlf++w')) :
    ls = ls' ∧ w = w' := by
  induction ls generalizing ls' with
  | nil =>
    cases ls' with
    | nil => exact ⟨rfl,List.append_cancel_left h⟩
    | cons l' ls' =>
      obtain ⟨hne,hcr⟩ := hl' l' List.mem_cons_self
      simp only [List.flatMap_nil, List.nil_append, List.flatMap_cons, List.append_assoc] at h
      have hc := line_cancel (l := []) (by simp) hcr h
      exact absurd hc.1.symm hne
  | cons l ls ih =>
    obtain ⟨hne,hcr⟩ := hl l List.mem_cons_self
    cases ls' with
    | nil =>
      simp only [List.flatMap_nil, List.nil_append, List.flatMap_cons, List.append_assoc] at h
      have hc := line_cancel (m := []) hcr (by simp) h
      exact absurd hc.1 hne
    | cons l' ls' =>
      simp only [List.flatMap_cons, List.append_assoc] at h
      obtain ⟨he,ht⟩ := line_cancel hcr (hl' l' List.mem_cons_self).2 h
      have ht := ih (fun l hm => hl l (List.mem_cons_of_mem _ hm))
        (fun l hm => hl' l (List.mem_cons_of_mem _ hm)) (List.cons.inj ht).2
      exact ⟨by rw [he, ht.1],ht.2⟩

def lineText (h : Header) : List UInt8 := h.key++(colon++h.value)

theorem lineText_good (h : Header) : lineText h ≠ [] ∧ ∀ c ∈ lineText h, c ≠ 13 := by
  refine ⟨List.append_ne_nil_of_left_ne_nil h.named _,fun c hc => ?_⟩
  simp only [lineText, List.mem_append] at hc
  rcases hc with hc | hc | hc
  · exact h.line c (List.mem_append_left _ hc)
  · simp only [colon, List.mem_cons, List.not_mem_nil, or_false] at hc
    rcases hc with rfl | rfl <;> decide
  · exact h.line c (List.mem_append_right _ hc)

theorem client_lines (hs : List Header) :
    hs.flatMap (fun h => headerLine h.key h.value) = (hs.map lineText).flatMap (·++crlf) := by
  rw [List.flatMap_map]
  refine congrArg (hs.flatMap ·) (funext fun h => ?_)
  simp only [headerLine, lineText, List.append_assoc]

theorem filters_eq (hs : List Header) :
    ((hs.filter (!inSet conf ·)).map lineText = (hs.filter (!listed conf ·)).map lineText) ↔
      ∀ h ∈ hs, listed conf h = true → inSet conf h = true := by
  have hfound : ∀ h : Header, inSet conf h = true → listed conf h = true := fun h hf =>
    List.contains_iff_mem.mpr (mem_of_find hf)
  constructor
  · intro h
    have hlen := congrArg List.length h
    rw [List.length_map, List.length_map] at hlen
    have hsub : (hs.filter (!listed conf ·)).Sublist (hs.filter (!inSet conf ·)) := by
      refine List.monotone_filter_right hs fun h hl => ?_
      cases hi : inSet conf h with
      | false => rfl
      | true => rw [hfound h hi] at hl; cases hl
    have he := hsub.eq_of_length hlen.symm
    intro x hx hl
    by_contra hi
    have hm : x ∈ hs.filter (!inSet conf ·) := List.mem_filter.mpr ⟨hx,by simpa using hi⟩
    rw [← he] at hm
    have := (List.mem_filter.mp hm).2
    rw [hl] at this
    cases this
  · intro h
    refine congrArg (List.map lineText) (List.filter_congr fun x hx => ?_)
    cases hi : inSet conf x with
    | true => rw [hfound x hi]
    | false =>
      cases hl : listed conf x with
      | true => rw [h x hx hl] at hi; cases hi
      | false => rfl

theorem lengths_eq {f g : Code → List UInt8} (hle : ∀ c ∈ codes, (f c).length ≤ (g c).length)
    (h : (codes.flatMap g).length ≤ (codes.flatMap f).length) :
    ∀ c ∈ codes, (f c).length = (g c).length := by
  have hall : ∀ cs : List Code, (∀ c ∈ cs, (f c).length ≤ (g c).length) →
      (cs.flatMap f).length ≤ (cs.flatMap g).length := by
    intro cs hcs
    induction cs with
    | nil => exact le_rfl
    | cons c cs ih =>
      rw [List.flatMap_cons, List.flatMap_cons, List.length_append, List.length_append]
      exact Nat.add_le_add (hcs c List.mem_cons_self)
        (ih fun c hc => hcs c (List.mem_cons_of_mem _ hc))
  induction codes with
  | nil => simp
  | cons c codes ih =>
    have h1 := hle c List.mem_cons_self
    have h2 := hall codes fun c hc => hle c (List.mem_cons_of_mem _ hc)
    rw [List.flatMap_cons, List.flatMap_cons, List.length_append, List.length_append] at h
    intro x hx
    rcases List.mem_cons.mp hx with rfl | hx
    · omega
    · exact ih (fun c hc => hle c (List.mem_cons_of_mem _ hc)) (by omega) x hx

theorem lastSkipped_iff (entries : List Entry) :
    lastSkipped v entries ↔ finalSkip v false entries = true := by
  rw [lastSkipped, finalSkip]
  cases entries.getLast? with
  | none => simp
  | some en =>
    cases en with
    | constant key value h => simp [entrySkip]
    | script key codes h => simp [entrySkip, h]

theorem body_iff :
    codes.flatMap (copyCode v { zeroEngine with skip := skip }) = scriptText v codes ↔
      (skip = true → ∀ c ∈ codes, isCapture c = false → copyCode v zeroEngine c = []) := by
  constructor
  · rintro h rfl c hc hcap
    have hl := lengths_eq codes (fun c _ => written_code v true c) (le_of_eq (by rw [h]; rfl)) c hc
    rw [copyCode_skip, if_pos ⟨rfl,hcap⟩] at hl
    exact List.eq_nil_of_length_eq_zero hl.symm
  · intro h
    refine List.flatMap_congr fun c hc => ?_
    rw [copyCode_skip]
    split
    · rename_i hs
      exact (h hs.1 c hc hs.2).symm
    · rfl

theorem length_iff {codes : List Code} (hp : Code.args ∉ codes) :
    (codes.map (lenCode v le)).sum = (scriptText v codes).length ↔
      (escapes v le = true → ∀ n, Code.capture n ∈ codes → ∀ cap, v.captures[n]? = some cap →
        ngxEscapeCount .args cap = 0) := by
  have hcode : ∀ c ∈ codes, lenCode v le c = (copyCode v zeroEngine c).length ↔
      (escapes v le = true → ∀ n, c = .capture n → ∀ cap, v.captures[n]? = some cap →
        ngxEscapeCount .args cap = 0) := by
    intro c hc
    cases c with
    | args => exact absurd hc hp
    | copy data => simp [lenCode, copyCode, zeroEngine]
    | var index => simp [lenCode, copyCode, zeroEngine]
    | capture n =>
      simp only [lenCode, copyCode, zeroEngine_escapes, Bool.false_eq_true, if_false,
        Code.capture.injEq, forall_eq']
      cases v.captures[n]? with
      | none => simp
      | some cap =>
        by_cases he : escapes v le = true
        · simp [he]
        · simp [he]
  have hsum : (codes.map (lenCode v le)).sum = (scriptText v codes).length ↔
      ∀ c ∈ codes, lenCode v le c = (copyCode v zeroEngine c).length := by
    clear hcode hp
    induction codes with
    | nil => simp [scriptText]
    | cons c codes ih =>
      have h1 := lenCode_ge v le c
      have h2 := lenSum_ge v le codes
      rw [List.forall_mem_cons, ← ih, List.map_cons, List.sum_cons, scriptText,
        List.flatMap_cons, List.length_append, ← scriptText]
      omega
  rw [hsum]
  constructor
  · intro h he n hn
    exact (hcode _ hn).mp (h _ hn) he n rfl
  · intro h c hc
    refine (hcode c hc).mpr fun he n hn => ?_
    subst hn
    exact h he n hc

theorem text_iff (hpass : conf.passRequestHeaders = true) :
    writtenText conf r = requestText conf r ↔
      (r.upstreamMethod = [] → conf.methodMain ≠ [] →
        ∃ level ∈ conf.methodLevels, level ≠ []) ∧
      (∀ h ∈ r.headers, listed conf h = true → inSet conf h = true) ∧
      bodyWritten conf r = bodyText conf r := by
  rw [← filters_eq, writtenText, requestText, clientText, if_pos hpass]
  obtain ⟨hmethod,hnone⟩ := method_spec conf r
  constructor
  · intro h
    have hm : r.upstreamMethod = [] → conf.methodMain ≠ [] →
        ∃ level ∈ conf.methodLevels, level ≠ [] := by
      by_contra hm
      rw [hnone hm] at h
      have h := List.append_cancel_left h
      rw [← List.append_assoc (requestUri conf r), ← List.append_assoc (requestUri conf r)] at h
      have hv : (72 : UInt8) ∈ ngxHttpProxyVersion := by decide
      exact absurd (shifted h 72 (List.mem_append_right _ hv)) (by decide)
    rw [hmethod hm, List.append_assoc, List.singleton_append] at h
    have h := List.append_cancel_left h
    have h := List.append_cancel_left (List.cons.inj h).2
    have h := List.append_cancel_left (List.append_cancel_left h)
    rw [client_lines, client_lines] at h
    have hgood : ∀ hs : List Header, ∀ l ∈ hs.map lineText, l ≠ [] ∧ ∀ c ∈ l, c ≠ 13 := by
      intro hs l hl
      obtain ⟨x,_,rfl⟩ := List.mem_map.mp hl
      exact lineText_good x
    exact ⟨hm,lines_cancel (hgood _) (hgood _) h⟩
  · rintro ⟨hm,hh,hb⟩
    rw [hmethod hm, client_lines, client_lines, hh, hb, List.append_assoc,
      List.singleton_append]

/-- A location with a method for `http`, one header to be set and a body -/
def smallConf (methodMain : List UInt8) : LocConf :=
  ⟨methodMain,[],false,[47],[.script [88] [.var 0] (by decide)],⟨1,[[88]]⟩,
    some ⟨[.copy [98]],by decide⟩,true,true⟩

/-- "GET /" with the header "A: a", the variable having the value "v" -/
def smallRequest : Request where
  methodName := [71,69,84]
  upstreamMethod := []
  unparsedUri := [47]
  uri := [47]
  args := []
  varsUri := []
  validUnparsedUri := true
  validLocation := true
  main := true
  spaceInUri := false
  internal := false
  values := ⟨fun _ => some [118],[],false,false⟩
  headers := [⟨[65],[97],[97],97,by simp,by simp⟩]
  requestBufs := []

theorem created_of {conf : LocConf} {r : Request} {u : ℕ × ℕ} (hu : uriLen conf r = some u)
    (hz : u.2 ≠ 0) : ngxHttpProxyCreateRequest (fun _ => true) zeroEngine conf r ≠
      some .error := by
  rw [ngxHttpProxyCreateRequest, hu, Option.bind_some, if_neg hz]
  simp only [if_true]
  intro h
  obtain ⟨_,_,h⟩ := Option.map_eq_some_iff.mp h
  cases h

theorem created {conf : LocConf} {r : Request} {u : ℕ × ℕ} (hcut : cutsLocation conf r = false)
    (hu : uriLen conf r = some u) (hz : u.2 ≠ 0) :
    ∃ out, ngxHttpProxyCreateRequest (fun _ => true) zeroEngine conf r = some (.ok out) := by
  rcases create_spec (fun _ => true) zeroEngine conf r (fun h => absurd h (by simp [hcut])) with
    h | ⟨out,hout,_⟩
  · exact absurd h (created_of hu hz)
  · exact ⟨out,hout⟩

theorem small_created (methodMain : List UInt8) : ∃ out,
    ngxHttpProxyCreateRequest (fun _ => true) zeroEngine (smallConf methodMain) smallRequest =
      some (.ok out) := created (u := (0, 1)) rfl rfl (by decide)

end Nginx.ProxyRequestLaw
