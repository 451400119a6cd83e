import Nginx.FastcgiRequest
import Nginx.FastcgiRecords

/-!
# The FastCGI request as it is read

The second pass writes as many bytes as the first has counted, and the header that is filled
in late stands in front of the chunk it describes. Read as records, the chain gives the
parameters, the headers that are not overridden and the body, just when the length of each
name fits into its one byte and there is a parameter at all.
-/

set_option autoImplicit false

namespace Nginx.FastcgiRequestLaw
open TempMemory Script HeaderHash FastcgiRequest FastcgiRecords

/-! What is to be sent -/

def valueText (v : Values) (p : Param) : List UInt8 := p.value.flatMap (copyCode v zeroEngine)

def paramPair (v : Values) (p : Param) : Pair := (p.key, valueText v p)

def overridden (t : NgxHash) (h : Header) : Bool := lowcaseKey h.key ∈ t.names.map ngxStrlow

def headerPair (h : Header) : Pair := (httpPrefix++h.key.map upperByte, h.value)

def passedHeaders (conf : LocConf) (r : Request) : List Header :=
  if conf.passRequestHeaders then r.headers.filter (!overridden conf.headersHash ·) else []

def passedPairs (conf : LocConf) (r : Request) : List Pair :=
  conf.params.map (paramPair r.values)++(passedHeaders conf r).map headerPair

def passedBody (file : ℕ → UInt8) (conf : LocConf) (r : Request) : List UInt8 :=
  if conf.passRequestBody then r.body.flatMap (content file) else []

/-! The lengths -/

def paramText (v : Values) (p : Param) : List UInt8 :=
  UInt8.ofNat p.key.length::(lenBytes (valueText v p).length++(p.key++valueText v p))

def headerText (h : Header) : List UInt8 :=
  lenBytes (5+h.key.length)++(lenBytes h.value.length++(httpPrefix++
    (h.key.map upperByte++h.value)))

variable (len : ℕ)

@[simp] theorem lenBytes_length : (lenBytes len).length = lenSize len := by
  simp only [lenBytes, lenSize]
  split <;> rfl

variable (type : UInt8)

theorem headerText_length (h : Header) : (headerText h).length = headerLen h := by
  simp only [headerText, headerLen, List.length_append, lenBytes_length, List.length_map,
    httpPrefix, List.length_cons, List.length_nil, Nat.add_comm 5]
  omega

variable (v : Values)

theorem lenCode_zero {c : Code} (h : c ≠ .args) :
    lenCode v zeroEngine c = (copyCode v zeroEngine c).length := by
  cases c with
  | args => exact absurd rfl h
  | copy | var => rfl
  | capture n =>
    simp only [lenCode, copyCode]
    cases v.captures[n]? <;> rfl

theorem lenRun_value (p : Param) :
    lenRun v zeroEngine p.value = ((valueText v p).length, zeroEngine) := by
  rw [lenRun_plain v zeroEngine p.plain, valueText, List.length_flatMap]
  refine congrArg (·.sum, _) (List.map_congr_left fun c hc => lenCode_zero v ?_)
  rintro rfl
  exact p.plain hc

variable (ps : List Param)

theorem paramsLen_spec :
    paramsLen v zeroEngine ps = ((ps.flatMap (paramText v)).length, zeroEngine) := by
  induction ps with
  | nil => rfl
  | cons p ps ih =>
    rw [paramsLen, lenRun_value]
    simp only [ih, List.flatMap_cons, List.length_append, paramText, List.length_cons,
      lenBytes_length, lenCode]
    refine Prod.ext ?_ rfl
    simp only
    omega

theorem headerTurns_spec (t : NgxHash) (count : ℕ) (hs : List (Header × ℕ)) (s : Pass)
    (hc : s.ignored.length+hs.length ≤ count) :
    ∃ s', hs.foldlM (headerTurn t count) s = some s' ∧
      s'.len = s.len+((hs.filter fun h => !overridden t h.1).flatMap (headerText ·.1)).length ∧
      s'.ignored = s.ignored++(hs.filter fun h => overridden t h.1).map Prod.snd := by
  induction hs generalizing s with
  | nil => exact ⟨s,rfl,rfl,by simp⟩
  | cons h hs ih =>
    simp only [List.length_cons] at hc
    rw [List.foldlM_cons]
    by_cases ho : overridden t h.1 = true
    · have hn : t.names.length > 0 := by
        have hm : lowcaseKey h.1.key ∈ t.names.map ngxStrlow := of_decide_eq_true ho
        obtain ⟨name,hname,_⟩ := List.mem_map.mp hm
        exact List.length_pos_of_mem hname
      have hf : ngxHashFind t (ngxHashKey (lowcaseKey h.1.key)) (lowcaseKey h.1.key) = true :=
        (find_iff t _).mpr (of_decide_eq_true ho)
      obtain ⟨a,ha⟩ : ∃ a, headerTurn t count s h = some ⟨s.len,s.ignored++[h.2],a⟩ := by
        refine ⟨if s.allocated < h.1.key.length then h.1.key.length+16 else s.allocated,?_⟩
        simp only [headerTurn]
        rw [if_pos hn, if_neg (by split <;> omega), if_pos hf, if_pos (by omega)]
      obtain ⟨s',hs',hl,hi⟩ := ih ⟨s.len,s.ignored++[h.2],a⟩ (by simp; omega)
      refine ⟨s',by rw [ha]; exact hs',?_,?_⟩
      · simp only [hl, List.filter_cons, ho, Bool.not_true, Bool.false_eq_true, if_false]
      · simp only [hi, List.filter_cons, ho, if_true, List.map_cons, List.append_assoc,
          List.singleton_append]
    have ho' : overridden t h.1 = false := by simpa using ho
    have hf : ¬ ngxHashFind t (ngxHashKey (lowcaseKey h.1.key)) (lowcaseKey h.1.key) = true :=
      fun hf => ho (decide_eq_true ((find_iff t _).mp hf))
    obtain ⟨a,ha⟩ : ∃ a,
        headerTurn t count s h = some ⟨s.len+headerLen h.1,s.ignored,a⟩ := by
      by_cases hn : t.names.length > 0
      · refine ⟨if s.allocated < h.1.key.length then h.1.key.length+16 else s.allocated,?_⟩
        simp only [headerTurn]
        rw [if_pos hn, if_neg (by split <;> omega), if_neg hf]
      · exact ⟨s.allocated,if_neg hn⟩
    obtain ⟨s',hs',hl,hi⟩ := ih ⟨s.len+headerLen h.1,s.ignored,a⟩ (by simp only; omega)
    refine ⟨s',by rw [ha]; exact hs',?_,?_⟩
    · simp only [hl, List.filter_cons, ho', Bool.not_false, if_true, List.flatMap_cons,
        List.length_append, headerText_length]
      omega
    · simp only [hi, List.filter_cons, ho', Bool.false_eq_true, if_false]

def pairsText (conf : LocConf) (r : Request) : List UInt8 :=
  conf.params.flatMap (paramText r.values)++(passedHeaders conf r).flatMap headerText

variable (hs : List Header)

theorem zipIdx_filter (p : Header → Bool) (k : ℕ) :
    ((hs.zipIdx k).filter fun h => p h.1).map Prod.fst = hs.filter p := by
  induction hs generalizing k with
  | nil => rfl
  | cons h hs ih =>
    simp only [List.zipIdx_cons, List.filter_cons]
    split
    · rw [List.map_cons, ih]
    · exact ih _

theorem flatMap_zipIdx (p : Header → Bool) :
    (hs.zipIdx.filter fun h => p h.1).flatMap (headerText ·.1) =
      (hs.filter p).flatMap headerText := by
  rw [← zipIdx_filter hs p 0, List.flatMap_map]

theorem ignored_iff {hs : List Header} {p : Header → Bool} {h : Header × ℕ}
    (hm : h ∈ hs.zipIdx) :
    h.2 ∈ (hs.zipIdx.filter fun h => p h.1).map Prod.snd ↔ p h.1 = true := by
  constructor
  · intro hi
    obtain ⟨h',hf,he⟩ := List.mem_map.mp hi
    obtain ⟨hm',hp⟩ := List.mem_filter.mp hf
    have h1 := List.mem_zipIdx_iff_getElem?.mp hm
    have h2 := List.mem_zipIdx_iff_getElem?.mp hm'
    rw [he, h1] at h2
    rw [Option.some.inj h2]
    exact hp
  · intro hp
    exact List.mem_map.mpr ⟨h,List.mem_filter.mpr ⟨hm,hp⟩,rfl⟩

variable (conf : LocConf) (r : Request)

theorem requestLen_spec :
    ∃ s, requestLen conf r = some s ∧ s.len = (pairsText conf r).length ∧
      (conf.passRequestHeaders = true → s.ignored =
        (r.headers.zipIdx.filter fun h => overridden conf.headersHash h.1).map Prod.snd) := by
  simp only [requestLen, paramsLen_spec, pairsText, passedHeaders]
  by_cases hp : conf.passRequestHeaders = true
  · obtain ⟨s,hs,hl,hi⟩ := headerTurns_spec conf.headersHash r.headers.length r.headers.zipIdx
      ⟨(conf.params.flatMap (paramText r.values)).length,[],0⟩ (by simp)
    refine ⟨s,by rw [if_pos hp]; exact hs,?_,fun _ => by rw [hi]; rfl⟩
    rw [hl, flatMap_zipIdx _ (!overridden conf.headersHash ·), if_pos hp, List.length_append]
  · exact ⟨_,if_neg hp,by simp [hp],fun h => absurd h hp⟩

/-! The second pass -/

variable {b : Block UInt8}

theorem writeParam_adds (p : Param) (h : b.cells.length+(paramText v p).length ≤ b.size) :
    ∃ b', writeParam v ⟨b,zeroEngine,zeroEngine⟩ p = some ⟨b',zeroEngine,zeroEngine⟩ ∧
      Adds b b' (paramText v p) := by
  simp only [paramText, List.length_cons, List.length_append] at h
  obtain ⟨b₁,h₁,a₁⟩ := put_adds (b := b) (s := [UInt8.ofNat p.key.length])
    (by simp only [List.length_cons, List.length_nil]; omega)
  obtain ⟨b₂,h₂,a₂⟩ := put_adds (b := b₁) (s := lenBytes (valueText v p).length)
    (by rw [a₁.length, a₁.size]; simp only [List.length_cons, List.length_nil]; omega)
  have hplain : Code.args ∉ .copy p.key::p.value := by simpa using p.plain
  obtain ⟨b₃,h₃,a₃⟩ := copyRun_plain v zeroEngine hplain (b := b₂) (by
    rw [a₂.length, a₂.size, a₁.length, a₁.size, List.flatMap_cons, List.length_append]
    simp only [List.length_cons, List.length_nil, copyCode, zeroEngine, Bool.false_eq_true,
      if_false]
    have : (p.value.flatMap (copyCode v zeroEngine)).length = (valueText v p).length := rfl
    simp only [zeroEngine] at this
    omega)
  refine ⟨b₃,?_,(a₁.trans a₂).trans a₃⟩
  simp only [writeParam, lenRun_value, lenCode]
  rw [h₁, Option.bind_some, h₂, Option.bind_some, h₃]
  rfl

theorem writeParam_run (h : b.cells.length+(ps.flatMap (paramText v)).length ≤ b.size) :
    ∃ b', ps.foldlM (writeParam v) ⟨b,zeroEngine,zeroEngine⟩ =
        some ⟨b',zeroEngine,zeroEngine⟩ ∧ Adds b b' (ps.flatMap (paramText v)) := by
  induction ps generalizing b with
  | nil => exact ⟨b,rfl,Adds.refl b⟩
  | cons p ps ih =>
    simp only [List.flatMap_cons, List.length_append] at h
    obtain ⟨b₁,h₁,a₁⟩ := writeParam_adds v p (b := b) (by omega)
    obtain ⟨b₂,h₂,a₂⟩ := ih (b := b₁) (by rw [a₁.length, a₁.size]; omega)
    exact ⟨b₂,by rw [List.foldlM_cons, h₁]; exact h₂,a₁.trans a₂⟩

theorem writeHeader_adds (ignored : List ℕ) (b : Block UInt8) (h : Header × ℕ)
    (hb : b.cells.length+(if h.2 ∈ ignored then [] else headerText h.1).length ≤ b.size) :
    ∃ b', writeHeader ignored b h = some b' ∧
      Adds b b' (if h.2 ∈ ignored then [] else headerText h.1) := by
  by_cases hi : h.2 ∈ ignored
  · rw [writeHeader, if_pos hi, if_pos hi]
    exact ⟨b,rfl,Adds.refl b⟩
  rw [writeHeader, if_neg hi, if_neg hi]
  rw [if_neg hi] at hb
  simp only [headerText, List.length_append] at hb
  obtain ⟨b₁,h₁,a₁⟩ := put_adds (b := b) (s := lenBytes (5+h.1.key.length)) (by omega)
  obtain ⟨b₂,h₂,a₂⟩ := put_adds (b := b₁) (s := lenBytes h.1.value.length)
    (by rw [a₁.length, a₁.size]; omega)
  obtain ⟨b₃,h₃,a₃⟩ := put_adds (b := b₂) (s := httpPrefix)
    (by rw [a₂.length, a₂.size, a₁.length, a₁.size]; omega)
  obtain ⟨b₄,h₄,a₄⟩ := put_adds (b := b₃) (s := h.1.key.map upperByte)
    (by rw [a₃.length, a₃.size, a₂.length, a₂.size, a₁.length, a₁.size]; omega)
  obtain ⟨b₅,h₅,a₅⟩ := put_adds (b := b₄) (s := h.1.value)
    (by rw [a₄.length, a₄.size, a₃.length, a₃.size, a₂.length, a₂.size, a₁.length,
      a₁.size]; omega)
  refine ⟨b₅,?_,a₁.trans (a₂.trans (a₃.trans (a₄.trans a₅)))⟩
  rw [h₁, Option.bind_some, h₂, Option.bind_some, h₃, Option.bind_some, h₄, Option.bind_some,
    h₅]

theorem writeHeader_run (t : NgxHash) (hs : List Header)
    (h : b.cells.length+((hs.filter (!overridden t ·)).flatMap headerText).length ≤ b.size) :
    ∃ b', hs.zipIdx.foldlM
        (writeHeader ((hs.zipIdx.filter fun h => overridden t h.1).map Prod.snd)) b = some b' ∧
      Adds b b' ((hs.filter (!overridden t ·)).flatMap headerText) := by
  have htext : hs.zipIdx.flatMap (fun h =>
      if h.2 ∈ (hs.zipIdx.filter fun h => overridden t h.1).map Prod.snd then []
      else headerText h.1) = (hs.filter (!overridden t ·)).flatMap headerText := by
    rw [← flatMap_zipIdx]
    have hsub : ∀ xs : List (Header × ℕ), (∀ x ∈ xs, x ∈ hs.zipIdx) → xs.flatMap (fun h =>
        if h.2 ∈ (hs.zipIdx.filter fun h => overridden t h.1).map Prod.snd then []
        else headerText h.1) =
          (xs.filter fun h => !overridden t h.1).flatMap (headerText ·.1) := by
      intro xs hxs
      induction xs with
      | nil => rfl
      | cons x xs ih =>
        have hx := ignored_iff (p := overridden t) (hxs x List.mem_cons_self)
        rw [List.flatMap_cons, ih fun y hy => hxs y (List.mem_cons_of_mem _ hy),
          List.filter_cons]
        by_cases ho : overridden t x.1 = true
        · rw [if_pos (hx.mpr ho), ho]
          rfl
        · rw [if_neg fun h => ho (hx.mp h), if_pos (by simpa using ho), List.flatMap_cons]
    exact hsub _ fun x hx => hx
  rw [← htext] at h ⊢
  exact foldlM_adds _ (writeHeader_adds _) _ h

def recordText (type : UInt8) (c : List UInt8) : List UInt8 :=
  recordHeader type c.length (paddingOf c.length)++(c++List.replicate (paddingOf c.length) 0)

def startText (conf : LocConf) (r : Request) : List UInt8 :=
  recordText beginRequest beginBody++(recordText params (pairsText conf r)++recordText params [])

theorem store_front {t s : List UInt8} {n : ℕ} (hn : s.length = n)
    (h : b.cells = t.map some++List.replicate n none) :
    ∃ b', b.store t.length s = some b' ∧ b'.size = b.size ∧ b'.cells = (t++s).map some := by
  subst hn
  have hl : t.length+s.length ≤ b.cells.length := by simp [h]
  refine ⟨_,dif_pos hl,rfl,?_⟩
  simp only [h]
  rw [List.take_append_of_le_length (by simp), List.take_of_length_le (by simp),
    List.drop_eq_nil_of_le (by simp), List.append_nil, List.map_append]

theorem skip_cells {n : ℕ} (h : b.cells.length+n ≤ b.size) :
    ∃ b', b.skip n = some b' ∧ b'.size = b.size ∧ b'.cells = b.cells++List.replicate n none :=
  ⟨_,dif_pos h,rfl,rfl⟩

theorem writeParams_spec {s : Pass} (hl : s.len = (pairsText conf r).length)
    (hi : conf.passRequestHeaders = true → s.ignored = (r.headers.zipIdx.filter fun h => overridden
      conf.headersHash h.1).map Prod.snd) :
    ∃ b, writeParams conf r s = some b ∧ b.cells = (startText conf r).map some ∧
      b.cells.length+8 = b.size := by
  obtain ⟨b₁,h₁,a₁⟩ := put_adds (b := Block.create (8+8+8+s.len+paddingOf s.len+8+8))
    (s := requestStart) (by simp only [Block.create, List.length_nil]; change 0+20 ≤ _; omega)
  have z₁ : b₁.size = 8+8+8+s.len+paddingOf s.len+8+8 := a₁.size
  have c₁ : b₁.cells = requestStart.map some := by rw [a₁.cells]; rfl
  obtain ⟨b₂,h₂,z₂,c₂⟩ := skip_cells (b := b₁) (n := 4)
    (by rw [c₁, z₁, List.length_map]; change 20+4 ≤ _; omega)
  rw [c₁] at c₂
  obtain ⟨b₃,h₃,z₃,c₃⟩ := store_front (b := b₂) (t := requestStart) (n := 4)
    (s := [lenByte s.len 8, lenByte s.len 0, UInt8.ofNat (paddingOf s.len), 0]) rfl c₂
  have l₃ : b₃.cells.length = 24 := by rw [c₃]; rfl
  have hlen : (pairsText conf r).length = (conf.params.flatMap (paramText r.values)).length+
      ((passedHeaders conf r).flatMap headerText).length := List.length_append
  obtain ⟨b₄,h₄,a₄⟩ := writeParam_run r.values conf.params (b := b₃)
    (by rw [l₃, z₃, z₂, z₁]; omega)
  obtain ⟨b₅,h₅,a₅⟩ : ∃ b₅, (if conf.passRequestHeaders then
      r.headers.zipIdx.foldlM (writeHeader s.ignored) b₄ else some b₄) = some b₅ ∧
      Adds b₄ b₅ ((passedHeaders conf r).flatMap headerText) := by
    have hroom : b₄.cells.length+((passedHeaders conf r).flatMap headerText).length ≤ b₄.size := by
      rw [a₄.length, a₄.size, l₃, z₃, z₂, z₁]
      omega
    simp only [passedHeaders] at hroom ⊢
    by_cases hp : conf.passRequestHeaders = true
    · simp only [hp, if_true] at hroom ⊢
      rw [hi hp]
      exact writeHeader_run conf.headersHash r.headers hroom
    · simp only [hp, Bool.false_eq_true, if_false]
      exact ⟨b₄,rfl,Adds.refl b₄⟩
  obtain ⟨b₆,h₆,a₆⟩ := put_adds (b := b₅) (s := List.replicate (paddingOf s.len) (0 : UInt8))
    (by rw [a₅.length, a₅.size, a₄.length, a₄.size, l₃, z₃, z₂, z₁, List.length_replicate]; omega)
  have l₆ : b₆.cells.length = 24+s.len+paddingOf s.len := by
    rw [a₆.length, a₅.length, a₄.length, l₃, List.length_replicate]
    omega
  have z₆ : b₆.size = 8+8+8+s.len+paddingOf s.len+8+8 := by
    rw [a₆.size, a₅.size, a₄.size, z₃, z₂, z₁]
  obtain ⟨b₇,h₇,z₇,c₇⟩ := skip_cells (b := b₆) (n := 8) (by rw [l₆, z₆]; omega)
  have hc₆ : b₆.cells = (recordText beginRequest beginBody++
      recordText params (pairsText conf r)).map some := by
    rw [a₆.cells, a₅.cells, a₄.cells, c₃, recordText, recordText, pairsText, ← pairsText, ← hl]
    simp only [← List.map_append, pairsText, List.append_assoc]
    rfl
  have hl₆ : b₆.cells.length = (recordText beginRequest beginBody++
      recordText params (pairsText conf r)).length := by rw [hc₆, List.length_map]
  rw [hc₆] at c₇
  obtain ⟨b₈,h₈,z₈,c₈⟩ := store_front (s := recordHeader params 0 0) (n := 8) rfl c₇
  refine ⟨b₈,?_,?_,?_⟩
  · simp only [writeParams, paramsLen_spec]
    rw [h₁, Option.bind_some, h₂, Option.bind_some]
    rw [show (20 : ℕ) = requestStart.length from rfl, h₃, Option.bind_some, h₄, Option.bind_some,
      h₅, Option.bind_some, h₆, Option.bind_some, h₇, Option.bind_some, hl₆]
    exact h₈
  · rw [c₈, startText, List.append_assoc]
    rfl
  · rw [c₈, z₈, z₇, z₆, List.length_map, List.length_append, ← hl₆, l₆]
    change 24+s.len+paddingOf s.len+8+8 = _
    omega

/-! The body -/

/-- The chain has the bytes `text`, and `h` points to the header left out behind them. -/
def Holds (file : ℕ → UInt8) (s : Out) (text : List UInt8) : Prop :=
  ∃ front t b front', s.pieces = front++[.temp b] ∧ s.link = front.length ∧ s.offset = t.length ∧
    b.cells = t.map some++List.replicate 8 none ∧ chainBytes file front = some front' ∧
    text = front'++t

variable (file : ℕ → UInt8)

theorem chainBytes_append (xs ys : List Piece) :
    chainBytes file (xs++ys) = (chainBytes file xs).bind fun s =>
      (chainBytes file ys).map (s++·) := by
  induction xs with
  | nil => simp [chainBytes]
  | cons x xs ih =>
    cases x with
    | temp b =>
      simp only [List.cons_append, chainBytes, ih]
      cases written b.cells with
      | none => rfl
      | some w =>
        cases chainBytes file xs with
        | none => rfl
        | some s => cases chainBytes file ys <;> simp
    | part b =>
      simp only [List.cons_append, chainBytes, ih]
      cases chainBytes file xs with
      | none => rfl
      | some s => cases chainBytes file ys <;> simp

variable {text : List UInt8}

theorem fillHeader_spec {file : ℕ → UInt8} {s : Out} (h : Holds file s text) (header : List UInt8)
    (hl : header.length = 8) :
    ∃ pieces, fillHeader s header = some pieces ∧ chainBytes file pieces = some (text++header) := by
  obtain ⟨front,t,b,front',hp,hk,ho,hc,hf,rfl⟩ := h
  obtain ⟨b',hb',_,hc'⟩ := store_front hl hc
  refine ⟨front++[.temp b'],?_,?_⟩
  · simp only [fillHeader, hp, hk, ho]
    rw [List.getElem?_concat_length]
    simp only
    rw [hb', Option.map_some, List.set_append_right _ _ le_rfl, Nat.sub_self]
    rfl
  · rw [chainBytes_append, hf, Option.bind_some, chainBytes, hc', written_map_some]
    simp [chainBytes]

theorem content_split (b : BodyBuf) {pos m last : ℕ} (h1 : pos ≤ m) (h2 : m ≤ last) :
    content file (b.cut pos last) = content file (b.cut pos m)++content file (b.cut m last) := by
  by_cases hf : b.inFile = true
  · have hr := @List.range'_append pos (m-pos) (last-m) 1
    simp only [content, BodyBuf.cut, hf, if_true, ← List.map_append]
    rw [show pos+1*(m-pos) = m by omega, show m-pos+(last-m) = last-pos by omega] at hr
    rw [hr]
  have ht := List.take_add (l := b.data.drop pos) (i := m-pos) (j := last-m)
  simp only [content, BodyBuf.cut, hf, Bool.false_eq_true, if_false]
  rw [List.drop_drop, show pos+(m-pos) = m by omega,
    show m-pos+(last-m) = last-pos by omega] at ht
  exact ht

theorem content_length (b : BodyBuf) (pos : ℕ) {last : ℕ} (h : last ≤ b.last) :
    (content file (b.cut pos last)).length = last-pos := by
  simp only [content, BodyBuf.cut, BodyBuf.last] at h ⊢
  by_cases hf : b.inFile = true
  · simp [hf]
  simp only [hf, Bool.false_eq_true, if_false] at h ⊢
  rw [List.length_take, List.length_drop]
  omega

theorem content_whole (b : BodyBuf) : content file (b.cut b.first b.last) = content file b := by
  simp only [content, BodyBuf.cut, BodyBuf.first, BodyBuf.last]
  by_cases hf : b.inFile = true
  · simp [hf]
  · simp [hf]

/-- A turn of `stdinLoop` with the bytes up to `last` -/
def turn (buf : BodyBuf) (pos last : ℕ) (s : Out) : Option Out :=
  (fillHeader s (recordHeader stdin (last-pos) (paddingOf (last-pos)))).bind fun pieces =>
  ((Block.create (8+paddingOf (last-pos))).put
    (List.replicate (paddingOf (last-pos)) 0)).bind fun b =>
  (b.skip 8).map fun t =>
    ⟨pieces++[.part (buf.cut pos last), .temp t],pieces.length+1,b.cells.length⟩

variable (buf : BodyBuf)

theorem stdinLoop_end {pos : ℕ} (h : pos+chunkSize ≥ buf.last) (s : Out) :
    stdinLoop buf pos s = turn buf pos buf.last s := by
  rw [stdinLoop, if_pos h, turn]
  simp only [dif_pos h, Option.map_eq_bind, Function.comp_def]

theorem stdinLoop_next {pos : ℕ} (h : ¬ pos+chunkSize ≥ buf.last) (s : Out) :
    stdinLoop buf pos s = (turn buf pos (pos+chunkSize) s).bind
      (stdinLoop buf (pos+chunkSize)) := by
  rw [stdinLoop, if_neg h, turn]
  simp only [dif_neg h, Option.bind_assoc, Option.bind_map]
  rfl

theorem stdin_turn {file : ℕ → UInt8} {s : Out} (h : Holds file s text) (buf : BodyBuf) (pos : ℕ)
    {last : ℕ} (hlast : last ≤ buf.last) :
    ∃ s', turn buf pos last s = some s' ∧
      Holds file s' (text++recordText stdin (content file (buf.cut pos last))) := by
  obtain ⟨pieces,hp,hc⟩ := fillHeader_spec h
    (recordHeader stdin (last-pos) (paddingOf (last-pos))) rfl
  obtain ⟨b,hb,ab⟩ := put_adds (b := Block.create (8+paddingOf (last-pos)))
    (s := List.replicate (paddingOf (last-pos)) (0 : UInt8))
    (by simp only [Block.create, List.length_nil, List.length_replicate]; omega)
  have cb : b.cells = (List.replicate (paddingOf (last-pos)) (0 : UInt8)).map some := by
    rw [ab.cells]
    rfl
  obtain ⟨t,ht,_,ct⟩ := skip_cells (b := b) (n := 8)
    (by
      rw [cb, ab.size, List.length_map, List.length_replicate]
      change _ ≤ 8+paddingOf (last-pos)
      omega)
  refine ⟨⟨pieces++[.part (buf.cut pos last), .temp t],pieces.length+1,b.cells.length⟩,?_,
    pieces++[.part (buf.cut pos last)],List.replicate (paddingOf (last-pos)) 0,t,
    text++recordHeader stdin (last-pos) (paddingOf (last-pos))++
      content file (buf.cut pos last),by simp,by simp,by rw [cb]; simp,by rw [ct, cb],?_,?_⟩
  · rw [turn, hp, Option.bind_some, hb, Option.bind_some, ht]
    rfl
  · rw [chainBytes_append, hc, Option.bind_some]
    simp [chainBytes]
  · rw [recordText, content_length file buf pos hlast]
    simp

theorem stdinLoop_spec (pos : ℕ) (s : Out) (h : Holds file s text) (hpos : pos < buf.last) :
    ∃ s', ∃ chunks : List (List UInt8), stdinLoop buf pos s = some s' ∧
      Holds file s' (text++chunks.flatMap (recordText stdin)) ∧
      chunks.flatten = content file (buf.cut pos buf.last) ∧
      ∀ c ∈ chunks, c ≠ [] ∧ c.length ≤ 65535 := by
  have hsize : chunkSize = 32768 := rfl
  induction hn : buf.last-pos using Nat.strong_induction_on generalizing pos s text with
  | _ n ih =>
    by_cases hs : pos+chunkSize ≥ buf.last
    · obtain ⟨s₁,h₁,hh⟩ := stdin_turn h buf pos (le_refl buf.last)
      have hl := content_length file buf pos (le_refl buf.last)
      rw [stdinLoop_end buf hs]
      refine ⟨s₁,[content file (buf.cut pos buf.last)],h₁,by simpa using hh,by simp,?_⟩
      intro c hc
      obtain rfl := List.mem_singleton.mp hc
      refine ⟨fun he => ?_,by omega⟩
      rw [he, List.length_nil] at hl
      omega
    have hlast : pos+chunkSize ≤ buf.last := by omega
    obtain ⟨s₁,h₁,hh⟩ := stdin_turn h buf pos hlast
    have hl := content_length file buf pos hlast
    obtain ⟨s',chunks,hr,hh',hc,hlen⟩ := ih (buf.last-(pos+chunkSize)) (by omega) (pos+chunkSize)
      _ hh (by omega) rfl
    rw [stdinLoop_next buf hs, h₁, Option.bind_some]
    refine ⟨s',content file (buf.cut pos (pos+chunkSize))::chunks,hr,?_,?_,?_⟩
    · simpa using hh'
    · rw [List.flatten_cons, hc, ← content_split file buf (by omega) (by omega)]
    · intro c hm
      rcases List.mem_cons.mp hm with rfl | hm
      · refine ⟨fun he => ?_,by omega⟩
        rw [he, List.length_nil] at hl
        omega
      · exact hlen c hm

theorem stdinLoops_spec (body : List BodyBuf) (s : Out) (h : Holds file s text)
    (hbody : ∀ b ∈ body, b.first < b.last) :
    ∃ s', ∃ chunks : List (List UInt8),
      body.foldlM (fun s buf => stdinLoop buf buf.first s) s = some s' ∧
      Holds file s' (text++chunks.flatMap (recordText stdin)) ∧
      chunks.flatten = body.flatMap (content file) ∧ ∀ c ∈ chunks, c ≠ [] ∧ c.length ≤ 65535 := by
  induction body generalizing s text with
  | nil => exact ⟨s,[],rfl,by simpa using h,rfl,by simp⟩
  | cons b body ih =>
    obtain ⟨s₁,cs,h₁,hh₁,hc₁,hl₁⟩ :=
      stdinLoop_spec file b b.first s h (hbody b List.mem_cons_self)
    obtain ⟨s₂,cs',h₂,hh₂,hc₂,hl₂⟩ := ih s₁ hh₁ fun b hb => hbody b (List.mem_cons_of_mem _ hb)
    refine ⟨s₂,cs++cs',by rw [List.foldlM_cons, h₁]; exact h₂,?_,?_,?_⟩
    · rwa [List.flatMap_append, ← List.append_assoc]
    · rw [List.flatten_append, hc₁, hc₂, List.flatMap_cons, content_whole]
    · intro c hc
      exact (List.mem_append.mp hc).elim (hl₁ c) (hl₂ c)

/-! Reading -/

theorem paddingOf_lt : paddingOf len < 8 := by
  simp only [paddingOf]
  split <;> omega

theorem lenByte_toNat (k : ℕ) : (lenByte len k).toNat = len/2^k%256 := by
  simp only [lenByte, UInt8.toNat_ofNat', Nat.shiftRight_eq_div_pow]
  rw [show (0xff : ℕ) = 2^8-1 from rfl, Nat.and_two_pow_sub_one_eq_mod]
  exact Nat.mod_mod _ _

theorem read_record {c : List UInt8} (h : c.length ≤ 65535) (s : List UInt8) :
    readRecord (recordText type c++s) = some (⟨type,c⟩, s) := by
  have hlen : (lenByte c.length 8).toNat*256+(lenByte c.length 0).toNat = c.length := by
    rw [lenByte_toNat, lenByte_toNat]
    omega
  have hp := paddingOf_lt c.length
  have hpad : (UInt8.ofNat (paddingOf c.length)).toNat = paddingOf c.length := by
    rw [UInt8.toNat_ofNat']
    omega
  simp only [recordText, recordHeader, List.cons_append, List.nil_append, readRecord, hlen, hpad]
  rw [if_pos ⟨trivial,trivial,trivial,by simp⟩, List.append_assoc, List.take_left, ← List.drop_drop,
    List.drop_left, List.drop_left' (by simp)]

theorem read_records {c : List UInt8} (h : c.length ≤ 65535) (s : List UInt8) :
    readRecords (recordText type c++s) = (readRecords s).map (⟨type,c⟩::·) := by
  have hr := read_record type h s
  have hcons : ∃ x t, recordText type c++s = x::t := ⟨1,_,rfl⟩
  obtain ⟨x,t,he⟩ := hcons
  rw [he] at hr ⊢
  rw [readRecords]
  split
  · rename_i hn
    rw [hr] at hn
    cases hn
  · rename_i r hs
    rw [hr] at hs
    obtain rfl := Option.some.inj hs
    rfl

theorem read_chunks (chunks : List (List UInt8)) (h : ∀ c ∈ chunks, c.length ≤ 65535)
    (s : List UInt8) :
    readRecords (chunks.flatMap (recordText type)++s) =
      (readRecords s).map (chunks.map (Record.mk type)++·) := by
  induction chunks with
  | nil => simp
  | cons c chunks ih =>
    rw [List.flatMap_cons, List.append_assoc, read_records type (h c List.mem_cons_self),
      ih fun c hc => h c (List.mem_cons_of_mem _ hc), Option.map_map]
    rfl

theorem read_stream (chunks : List (List UInt8)) (h : ∀ c ∈ chunks, c ≠ []) (rs : List Record) :
    readStream type (chunks.map (Record.mk type)++⟨type,[]⟩::rs) = some (chunks.flatten, rs) := by
  induction chunks with
  | nil => simp [readStream]
  | cons c chunks ih =>
    have hc := h c List.mem_cons_self
    rw [List.map_cons, List.cons_append, readStream, if_neg (by simp), if_neg (by simpa using hc),
      ih fun c hc => h c (List.mem_cons_of_mem _ hc)]
    rfl

theorem read_len {len : ℕ} (h : len < 2^31) (s : List UInt8) :
    readLen (lenBytes len++s) = some (len, s) := by
  by_cases hl : len > 127
  · have h24 : (UInt8.ofNat ((len >>> 24) &&& 0x7f ||| 0x80)).toNat = len/2^24+128 := by
      rw [Nat.shiftRight_eq_div_pow, show (0x7f : ℕ) = 2^7-1 from rfl,
        Nat.and_two_pow_sub_one_eq_mod, Nat.mod_eq_of_lt (by omega), UInt8.toNat_ofNat',
        Nat.or_comm, show (0x80 : ℕ) = 2^7*1 from rfl,
        ← Nat.two_pow_add_eq_or_of_lt (by omega)]
      omega
    simp only [lenBytes, hl, if_true, List.cons_append, List.nil_append, readLen]
    rw [h24, if_neg (by omega), lenByte_toNat, lenByte_toNat, lenByte_toNat]
    refine congrArg some (Prod.ext ?_ rfl)
    simp only
    omega
  have h8 : (UInt8.ofNat len).toNat = len := by
    rw [UInt8.toNat_ofNat']
    omega
  simp only [lenBytes, hl, if_false, List.cons_append, List.nil_append, readLen]
  rw [h8, if_pos (by omega)]

theorem read_pair (key val : List UInt8) (hk : key.length < 2^31) (hv : val.length < 2^31)
    (s : List UInt8) :
    readPair (lenBytes key.length++(lenBytes val.length++(key++val))++s) =
      some ((key, val), s) := by
  simp only [readPair, List.append_assoc]
  rw [read_len hk, Option.bind_some, read_len hv, Option.bind_some, if_pos (by simp)]
  simp only [List.take_left, List.drop_left, ← List.drop_drop]

theorem read_pairs (hne : text ≠ []) {p : Pair} {s : List UInt8}
    (h : readPair (text++s) = some (p, s)) : readPairs (text++s) = (readPairs s).map (p::·) := by
  cases text with
  | nil => exact absurd rfl hne
  | cons c text =>
    rw [List.cons_append] at h ⊢
    rw [readPairs]
    split
    · rename_i hn
      rw [h] at hn
      cases hn
    · rename_i r hs
      rw [h] at hs
      obtain rfl := Option.some.inj hs
      rfl

theorem read_param {p : Param} (hk : p.key.length ≤ 127) (hv : (valueText v p).length < 2^31)
    (s : List UInt8) : readPairs (paramText v p++s) = (readPairs s).map (paramPair v p::·) := by
  refine read_pairs (List.cons_ne_nil _ _) ?_
  have hl : lenBytes p.key.length = [UInt8.ofNat p.key.length] := if_neg (by omega)
  have hp := read_pair p.key (valueText v p) (by omega) hv s
  rw [hl] at hp
  exact hp

theorem upperName_length (h : Header) :
    (headerPair h).1.length = 5+h.key.length := by
  simp [headerPair, httpPrefix, Nat.add_comm 5]

theorem lenBytes_ne_nil : lenBytes len ≠ [] := by
  simp only [lenBytes]
  split <;> exact List.cons_ne_nil _ _

theorem read_header {h : Header} (hk : 5+h.key.length < 2^31) (hv : h.value.length < 2^31)
    (s : List UInt8) :
    readPairs (headerText h++s) = (readPairs s).map (headerPair h::·) := by
  refine read_pairs (List.append_ne_nil_of_left_ne_nil (lenBytes_ne_nil _) _) ?_
  have hp := read_pair (headerPair h).1 h.value
    (by rw [upperName_length]; exact hk) hv s
  rw [upperName_length] at hp
  simpa only [headerText, headerPair, List.append_assoc] using hp

theorem read_headers (hl : (hs.flatMap headerText).length ≤ 65535) :
    readPairs (hs.flatMap headerText) = some (hs.map headerPair) := by
  induction hs with
  | nil => rw [List.flatMap_nil, readPairs]; rfl
  | cons h hs ih =>
    simp only [List.flatMap_cons, List.length_append, headerText_length, headerLen] at hl
    rw [List.flatMap_cons, read_header (by omega) (by omega), ih (by omega)]
    rfl

theorem read_params (hk : ∀ p ∈ ps, p.key.length ≤ 127) (hs : List Header)
    (hl : (ps.flatMap (paramText v)++hs.flatMap headerText).length ≤ 65535) :
    readPairs (ps.flatMap (paramText v)++hs.flatMap headerText) =
      some (ps.map (paramPair v)++hs.map headerPair) := by
  induction ps with
  | nil => exact read_headers hs hl
  | cons p ps ih =>
    simp only [List.flatMap_cons, List.length_append, paramText, List.length_cons] at hl ih
    rw [List.flatMap_cons, List.append_assoc,
      read_param v (hk p List.mem_cons_self) (by omega),
      ih (fun p hp => hk p (List.mem_cons_of_mem _ hp)) (by omega)]
    rfl

/-- A name of more than 127 bytes takes four bytes more than its text, which no reading
of the same bytes makes up for. -/
theorem params_short :
    (ps.flatMap (paramText v)).length ≤ ((ps.map (paramPair v)).map pairSize).sum ∧
      ((∃ p ∈ ps, 127 < p.key.length) →
        (ps.flatMap (paramText v)).length < ((ps.map (paramPair v)).map pairSize).sum) := by
  induction ps with
  | nil => exact ⟨le_rfl,fun h => absurd h (by simp)⟩
  | cons p ps ih =>
    have ht : (paramText v p).length =
        1+leastSize (valueText v p).length+p.key.length+(valueText v p).length := by
      simp only [paramText, List.length_cons, List.length_append, lenBytes_length, lenSize,
        leastSize]
      omega
    have hp : pairSize (paramPair v p) = leastSize p.key.length+
        leastSize (valueText v p).length+p.key.length+(valueText v p).length := rfl
    have hk : 1 ≤ leastSize p.key.length ∧ (127 < p.key.length → leastSize p.key.length = 4) := by
      simp only [leastSize]
      split <;> omega
    simp only [List.flatMap_cons, List.length_append, List.map_cons, List.sum_cons, ht, hp]
    refine ⟨by omega,?_⟩
    rintro ⟨q,hq,hl⟩
    rcases List.mem_cons.mp hq with rfl | hq
    · have := hk.2 hl
      omega
    · have := ih.2 ⟨q,hq,hl⟩
      omega

theorem headerLen_eq (h : Header) : headerLen h = pairSize (headerPair h) := by
  have hk : (headerPair h).1.length = h.key.length+5 := by rw [upperName_length, Nat.add_comm]
  have hv : (headerPair h).2 = h.value := rfl
  simp only [headerLen, pairSize, hk, hv]
  rfl

theorem headers_size : (hs.flatMap headerText).length = ((hs.map headerPair).map pairSize).sum := by
  simp only [List.length_flatMap, List.map_map, headerText_length, Function.comp_def,
    headerLen_eq]

theorem pairs_text (hl : (pairsText conf r).length ≤ 65535) :
    readPairs (pairsText conf r) = some (passedPairs conf r) ↔
      ∀ p ∈ conf.params, p.key.length ≤ 127 := by
  constructor
  · intro h
    by_contra hk
    simp only [not_forall, not_le] at hk
    obtain ⟨p,hp,hlen⟩ := hk
    have hs := readPairs_size _ h
    have hps := (params_short r.values conf.params).2 ⟨p,hp,hlen⟩
    have hhs := headers_size (passedHeaders conf r)
    rw [passedPairs, List.map_append, List.sum_append, pairsText, List.length_append] at hs
    omega
  · intro hk
    exact read_params r.values conf.params hk _ hl

theorem pairsText_nil : pairsText conf r = [] ↔ passedPairs conf r = [] := by
  have hh : ∀ hs : List Header, hs.flatMap headerText = [] ↔ hs = [] := by
    intro hs
    cases hs with
    | nil => exact iff_of_true rfl rfl
    | cons h hs => simp [headerText, lenBytes_ne_nil]
  have hp : conf.params.flatMap (paramText r.values) = [] ↔ conf.params = [] := by
    cases conf.params with
    | nil => exact iff_of_true rfl rfl
    | cons p ps => simp [paramText]
  rw [pairsText, passedPairs, List.append_eq_nil_iff, List.append_eq_nil_iff, hh, hp,
    List.map_eq_nil_iff, List.map_eq_nil_iff]

theorem read_request (hl : (pairsText conf r).length ≤ 65535) {chunks : List (List UInt8)}
    (hc : ∀ c ∈ chunks, c ≠ [] ∧ c.length ≤ 65535) :
    readRequest (startText conf r++chunks.flatMap (recordText stdin)++recordHeader stdin 0 0) =
      if pairsText conf r = [] then none
      else (readPairs (pairsText conf r)).map fun pairs => (pairs, chunks.flatten) := by
  have hrs : readRecords (startText conf r++chunks.flatMap (recordText stdin)++
      recordHeader stdin 0 0) = some (⟨1,beginBody⟩::⟨4,pairsText conf r⟩::⟨4,[]⟩::
        (chunks.map (Record.mk 5)++[⟨5,[]⟩])) := by
    have hend : recordHeader stdin 0 0 = recordText stdin []++[] := rfl
    have hnil : readRecords [] = some [] := by rw [readRecords]
    rw [startText]
    simp only [List.append_assoc]
    rw [read_records _ (by decide), read_records _ hl, read_records _ (by decide),
      read_chunks _ _ fun c hm => (hc c hm).2, hend, read_records _ (by decide), hnil]
    rfl
  have hbody := read_stream 5 chunks (fun c hm => (hc c hm).1) []
  rw [readRequest, hrs, Option.bind_some]
  simp only
  rw [if_pos (show Record.mk 1 beginBody = ⟨1,[0,1,0,0,0,0,0,0]⟩ from rfl)]
  by_cases hp : pairsText conf r = []
  · have hstream := read_stream 4 [] (by simp)
      (⟨4,[]⟩::(chunks.map (Record.mk 5)++[⟨5,[]⟩]))
    rw [List.map_nil, List.nil_append] at hstream
    have hpairs : readPairs [] = some [] := by rw [readPairs]
    rw [if_pos hp, hp, hstream, Option.bind_some, List.flatten_nil, hpairs, Option.bind_some,
      readStream, if_pos (by decide)]
    rfl
  have hstream := read_stream 4 [pairsText conf r] (by simpa using hp)
    (chunks.map (Record.mk 5)++[⟨5,[]⟩])
  simp only [List.map_cons, List.map_nil, List.cons_append, List.nil_append, List.flatten_cons,
    List.flatten_nil, List.append_nil] at hstream
  rw [if_neg hp, hstream, Option.bind_some, hbody]
  cases readPairs (pairsText conf r) <;> simp

theorem create_request_error (hbig : (pairsText conf r).length > 65535) :
    ngxHttpFastcgiCreateRequest conf r = some .error := by
  obtain ⟨s,hs,hl,_⟩ := requestLen_spec conf r
  rw [ngxHttpFastcgiCreateRequest, hs, Option.bind_some, if_pos (by omega)]

theorem create_request_read (conf : LocConf) (r : Request) (hbody : ∀ b ∈ r.body, b.first < b.last)
    (hlen : (pairsText conf r).length ≤ 65535) :
    ∃ pieces bytes, ngxHttpFastcgiCreateRequest conf r = some (.ok pieces) ∧
      chainBytes file pieces = some bytes ∧
      readRequest bytes = if pairsText conf r = [] then none
        else (readPairs (pairsText conf r)).map fun pairs => (pairs, passedBody file conf r) := by
  obtain ⟨s,hs,hl,hi⟩ := requestLen_spec conf r
  obtain ⟨b,hb,hc,hz⟩ := writeParams_spec conf r hl hi
  obtain ⟨b',hb',_,hc'⟩ := skip_cells (b := b) (n := 8) (by omega)
  have hstart : Holds file ⟨[.temp b'],0,b.cells.length⟩ (startText conf r) :=
    ⟨[],startText conf r,b',[],rfl,rfl,by rw [hc, List.length_map],by rw [hc', hc],rfl,rfl⟩
  obtain ⟨s₁,chunks,hs₁,hh,hf,hck⟩ : ∃ s₁, ∃ chunks : List (List UInt8),
      (if conf.passRequestBody then
        r.body.foldlM (fun s buf => stdinLoop buf buf.first s) ⟨[.temp b'],0,b.cells.length⟩
      else some ⟨[.temp b'],0,b.cells.length⟩) = some s₁ ∧
      Holds file s₁ (startText conf r++chunks.flatMap (recordText stdin)) ∧
      chunks.flatten = passedBody file conf r ∧ ∀ c ∈ chunks, c ≠ [] ∧ c.length ≤ 65535 := by
    simp only [passedBody]
    by_cases hp : conf.passRequestBody = true
    · simp only [hp, if_true]
      exact stdinLoops_spec file r.body _ hstart hbody
    · simp only [hp, Bool.false_eq_true, if_false]
      exact ⟨_,[],rfl,by simpa using hstart,rfl,by simp⟩
  obtain ⟨pieces,hp,hbytes⟩ := fillHeader_spec hh (recordHeader stdin 0 0) rfl
  refine ⟨pieces,_,?_,hbytes,?_⟩
  · rw [ngxHttpFastcgiCreateRequest, hs, Option.bind_some, if_neg (by omega), hb,
      Option.bind_some, hb', Option.bind_some, hs₁, Option.bind_some, hp]
    rfl
  · rw [read_request conf r hlen hck, hf]

theorem read_iff (conf : LocConf) (r : Request) (hlen : (pairsText conf r).length ≤ 65535) :
    (if pairsText conf r = [] then none
      else (readPairs (pairsText conf r)).map fun pairs => (pairs, passedBody file conf r)) =
        some (passedPairs conf r, passedBody file conf r) ↔
      (∀ p ∈ conf.params, p.key.length ≤ 127) ∧ passedPairs conf r ≠ [] := by
  rw [ne_eq, ← pairsText_nil, ← pairs_text conf r hlen]
  by_cases hn : pairsText conf r = []
  · simp [hn]
  · cases readPairs (pairsText conf r) <;> simp [hn]

/-- The request is written without leaving a buffer, and it is read as the parameters, the
headers not overridden and the body if and only if no name of a parameter is longer than 127
bytes and there is a parameter or a header to pass. -/
theorem create_request (file : ℕ → UInt8) (conf : LocConf) (r : Request)
    (hbody : ∀ b ∈ r.body, b.first < b.last) :
    ∃ out, ngxHttpFastcgiCreateRequest conf r = some out ∧ ∀ pieces, out = .ok pieces →
      ((∃ bytes, chainBytes file pieces = some bytes ∧
          readRequest bytes = some (passedPairs conf r, passedBody file conf r)) ↔
        (∀ p ∈ conf.params, p.key.length ≤ 127) ∧ passedPairs conf r ≠ []) := by
  by_cases hlen : (pairsText conf r).length ≤ 65535
  · obtain ⟨pieces,bytes,hcreate,hbytes,hread⟩ := create_request_read file conf r hbody hlen
    refine ⟨_,hcreate,fun pieces' he => ?_⟩
    obtain rfl := Outcome.ok.inj he
    rw [← read_iff file conf r hlen, hbytes, ← hread]
    constructor
    · rintro ⟨bytes',hb,hr⟩
      rw [Option.some.inj hb]
      exact hr
    · exact fun hr => ⟨bytes,rfl,hr⟩
  · exact ⟨.error,create_request_error conf r (by omega),by rintro _ ⟨⟩⟩

/-! The configuration -/

def oneParam (key : List UInt8) : LocConf :=
  ⟨[⟨key,[],List.not_mem_nil⟩],⟨1,[]⟩,true,true⟩

def smallRequest : Request :=
  ⟨⟨fun _ => none,[],false,false⟩,[⟨[72,111,115,116],[97]⟩],
    [⟨false,[98],0,0⟩]⟩

theorem create_request_small : ∃ out,
    ngxHttpFastcgiCreateRequest (oneParam [81]) smallRequest = some out ∧
      ∀ pieces, out = .ok pieces →
        ((∃ bytes, chainBytes (fun _ => 0) pieces = some bytes ∧
            readRequest bytes = some (passedPairs (oneParam [81]) smallRequest,
              passedBody (fun _ => 0) (oneParam [81]) smallRequest)) ↔
          (∀ p ∈ (oneParam [81]).params, p.key.length ≤ 127) ∧
            passedPairs (oneParam [81]) smallRequest ≠ []) :=
  create_request (fun _ => 0) (oneParam [81]) smallRequest (by decide)

/-- A name of 128 bytes: its length is written as the first of four bytes of a length. -/
theorem long_name : ∃ pieces,
    ngxHttpFastcgiCreateRequest (oneParam (List.replicate 128 65)) smallRequest =
        some (.ok pieces) ∧
      ¬ ∃ bytes, chainBytes (fun _ => 0) pieces = some bytes ∧
        readRequest bytes = some (passedPairs (oneParam (List.replicate 128 65)) smallRequest,
          passedBody (fun _ => 0) (oneParam (List.replicate 128 65)) smallRequest) := by
  have hlen : (pairsText (oneParam (List.replicate 128 65)) smallRequest).length ≤ 65535 := by
    decide +kernel
  obtain ⟨pieces,bytes,hcreate,hbytes,hread⟩ := create_request_read (fun _ => 0)
    (oneParam (List.replicate 128 65)) smallRequest (by decide) hlen
  refine ⟨pieces,hcreate,?_⟩
  rintro ⟨bytes',hb,hr⟩
  rw [hbytes] at hb
  obtain rfl := Option.some.inj hb
  rw [hread] at hr
  have hk := ((read_iff _ _ _ hlen).mp hr).1 _ List.mem_cons_self
  exact absurd hk (by simp)

end Nginx.FastcgiRequestLaw
