import Mathlib.Data.List.Pairwise
import Nginx.ExactHash

/-!
# The exact hash, laid out and searched

Each bucket is held to the list of its keys: what the sums count, what stands in memory from its
place on and what a search finds. The buckets lie apart, so that storing into one leaves the others.
-/

set_option autoImplicit false

namespace Nginx.ExactHashLaw
open Nginx.HeaderHash hiding ngxHashFind
open Nginx.LittleEndian hiding load
open Nginx.MemoryRange Nginx.ExactHash

/-! Sums -/

variable (k : HashKey)

theorem elt_size : 10+k.data.length ≤ eltSize k ∧ eltSize k%8 = 0 := by
  rw [eltSize, ngxAlign]
  omega

variable {a : ℕ}

theorem next_elt (h : a%8 = 0) : ngxAlign (a+10+k.data.length) 8 = a+eltSize k := by
  rw [eltSize, ngxAlign, ngxAlign]
  omega

theorem bytes_cons (ks : List HashKey) : bytes (k::ks) = eltSize k+bytes ks :=
  List.sum_cons

theorem bytes_append (ks ks' : List HashKey) : bytes (ks++ks') = bytes ks+bytes ks' := by
  rw [bytes, List.map_append, List.sum_append]
  rfl

variable {ks : List HashKey}

theorem bytes_empty : bytes ks = 0 ↔ ks = [] := by
  constructor
  · intro h
    cases ks with
    | nil => rfl
    | cons k ks =>
      have hk := (elt_size k).1
      rw [bytes_cons] at h
      omega
  · rintro rfl
    rfl

variable {names : List HashKey} {k : HashKey} {size bucketSize : ℕ} {test : ℕ → ℕ}

variable (i : ℕ)

theorem contents_cons :
    bytes (contents (k::names) size i) =
    (if k.null = false ∧ k.hash%size = i then eltSize k else 0)+bytes (contents names size i) := by
  rw [contents, List.filter_cons]
  by_cases h : k.null = false ∧ k.hash%size = i
  · rw [if_pos (decide_eq_true h), if_pos h, bytes_cons]
    rfl
  · rw [if_neg (by simpa using h), if_neg h, Nat.zero_add]
    rfl

theorem contents_null (h : k.null = true) (i : ℕ) :
    contents (k::names) size i = contents names size i := by
  rw [contents, List.filter_cons, if_neg (by simp [h])]
  rfl

theorem update_contents (h : k.null = false) (i : ℕ) :
    Function.update test (k.hash%size) (test (k.hash%size)+eltSize k) i+
      bytes (contents names size i) = test i+bytes (contents (k::names) size i) := by
  rw [contents_cons]
  by_cases hi : k.hash%size = i
  · rw [hi, Function.update_self, if_pos ⟨h,rfl⟩, Nat.add_assoc]
  · rw [Function.update_of_ne (Ne.symm hi), if_neg fun hand => hi hand.2, Nat.zero_add]

variable {n : ℕ}

theorem u_short (h : n < 2^16) : uShort n = n := Nat.mod_eq_of_lt h

theorem fits_loop (hb : bucketSize < 2^16)
    (hk : ∀ k ∈ names, k.null = false → bucketSize+eltSize k < 2^16)
    (htest : ∀ i, test i ≤ bucketSize) : fitsLoop bucketSize size names test = true ↔
      ∀ i, test i+bytes (contents names size i) ≤ bucketSize := by
  induction names generalizing test with
  | nil => exact ⟨fun _ => htest,fun _ => rfl⟩
  | cons k names ih =>
    have hnames : ∀ k' ∈ names, k'.null = false → bucketSize+eltSize k' < 2^16 :=
      fun k' hk' => hk k' (List.mem_cons_of_mem k hk')
    rw [fitsLoop]
    cases hnull : k.null with
    | true =>
      simp only [if_true, ih hnames htest, contents_null hnull]
    | false =>
      have hone := hk k List.mem_cons_self hnull
      have hsum : uShort (test (k.hash%size)+eltSize k) = test (k.hash%size)+eltSize k :=
        u_short (by have := htest (k.hash%size); omega)
      simp only [Bool.false_eq_true, if_false, hsum, u_short hb]
      by_cases hlarge : test (k.hash%size)+eltSize k > bucketSize
      · rw [if_pos hlarge]
        refine ⟨fun h => absurd h (by decide),fun h => absurd (h (k.hash%size)) ?_⟩
        rw [contents_cons, if_pos ⟨hnull,rfl⟩]
        omega
      rw [if_neg hlarge, ih hnames]
      · simp only [update_contents hnull]
      · intro i
        by_cases hi : i = k.hash%size
        · rw [hi, Function.update_self]
          omega
        · rw [Function.update_of_ne hi]
          exact htest i

theorem sum_loop (h : ∀ i, test i+bytes (contents names size i) < 2^16) (i : ℕ) :
    sumLoop size names test i = test i+bytes (contents names size i) := by
  induction names generalizing test with
  | nil => rfl
  | cons k names ih =>
    rw [sumLoop]
    cases hnull : k.null with
    | true =>
      simp only [contents_null hnull] at h ⊢
      simp only [if_true]
      exact ih h
    | false =>
      have hone := h (k.hash%size)
      rw [contents_cons, if_pos ⟨hnull,rfl⟩] at hone
      simp only [Bool.false_eq_true, if_false]
      rw [u_short (by omega), ih fun j => by rw [update_contents hnull]; exact h j,
        update_contents hnull]

theorem search_loop {n start : ℕ} (h : searchLoop bucketSize names n start = some size) :
    start ≤ size ∧ size < start+n ∧ fitsLoop bucketSize size names (fun _ => 0) = true := by
  induction n generalizing start with
  | zero => cases h
  | succ n ih =>
    rw [searchLoop] at h
    cases hfits : fitsLoop bucketSize start names fun _ => 0 with
    | true =>
      rw [if_pos hfits] at h
      cases h
      exact ⟨le_rfl,by omega,hfits⟩
    | false =>
      rw [if_neg (by simp [hfits])] at h
      obtain ⟨hl,hr,hsize⟩ := ih h
      exact ⟨by omega,by omega,hsize⟩

/-! Places -/

@[grind =] def before (test : ℕ → ℕ) : ℕ → ℕ
  | 0 => 0
  | i+1 => before test i+if test i = 8 then 0 else test i

theorem place_loop (test : ℕ → ℕ) (elts n : ℕ) :
    (placeLoop test elts n).1 = elts+before test n ∧ ∀ i, (placeLoop test elts n).2 i =
      if i < n ∧ test i ≠ 8 then elts+before test i else 0 := by
  induction n with
  | zero => exact ⟨rfl,fun i => by rw [if_neg fun h => absurd h.1 (Nat.not_lt_zero i)]; rfl⟩
  | succ n ih =>
    obtain ⟨hnext,hplaces⟩ := ih
    rw [placeLoop, before]
    by_cases hempty : test n = 8
    · simp only [if_pos hempty, hplaces]
      refine ⟨hnext,fun i => ?_⟩
      by_cases hi : i = n
      · rw [if_neg (by omega), if_neg fun h => h.2 (hi ▸ hempty)]
      · simp only [show i < n+1 ↔ i < n by omega]
    simp only [if_neg hempty, hnext]
    refine ⟨Nat.add_assoc _ _ _,fun i => ?_⟩
    by_cases hi : i = n
    · rw [hi, Function.update_self, if_pos ⟨by omega,hempty⟩]
    · rw [Function.update_of_ne hi, hplaces]
      simp only [show i < n+1 ↔ i < n by omega]

theorem before_mono (test : ℕ → ℕ) {i j : ℕ} (h : i < j) :
    before test i+(if test i = 8 then 0 else test i) ≤ before test j := by
  induction j with
  | zero => exact absurd h (Nat.not_lt_zero i)
  | succ j ih =>
    rw [before]
    rcases Nat.lt_succ_iff_lt_or_eq.mp h with hlt|rfl
    · exact (ih hlt).trans (Nat.le_add_right _ _)
    · exact le_rfl

theorem align_up {line : ℕ} (hline : ∃ k, 3 ≤ k ∧ line = 2^k) (d : ℕ) :
    d ≤ ngxAlign d line ∧ ngxAlign d line < d+line ∧ ngxAlign d line%8 = 0 := by
  obtain ⟨k,hk,rfl⟩ := hline
  have hpos : 0 < 2^k := Nat.two_pow_pos k
  have hdiv := Nat.div_add_mod (d+(2^k-1)) (2^k)
  have hmod := Nat.mod_lt (d+(2^k-1)) hpos
  have height : 2^k%8 = 0 := by
    rw [show k = 3+(k-3) by omega, pow_add]
    exact Nat.mul_mod_right 8 _
  rw [ngxAlign, Nat.mul_comm]
  refine ⟨by omega,by omega,?_⟩
  rw [Nat.mul_mod, height, Nat.zero_mul, Nat.zero_mod]

structure Layout (names : List HashKey) (size : ℕ) (buckets ext : ℕ → ℕ) (lo hi : ℕ) : Prop where
  filled : ∀ i < size, buckets i ≠ 0 ↔ contents names size i ≠ []
  aligned : ∀ i < size, buckets i%8 = 0
  room : ∀ i < size, buckets i ≠ 0 → bytes (contents names size i)+8 ≤ ext i
  inside : ∀ i < size, buckets i ≠ 0 → lo ≤ buckets i ∧ buckets i+ext i ≤ hi
  apart : ∀ i < size, ∀ j < size, i < j → buckets i ≠ 0 → buckets j ≠ 0 →
    buckets i+ext i ≤ buckets j

theorem fits_le {hinit : HashInit} (h : Fits hinit names size) (i : ℕ) :
    bytes (contents names size i)+8 ≤ max hinit.bucketSize 8 := by
  by_cases hempty : contents names size i = []
  · rw [hempty]
    exact le_max_right _ _
  · exact (h i hempty).trans (le_max_left _ _)

theorem layout {line block : ℕ} {hinit : HashInit} (hsmall : Small line hinit names)
    (hblock : 0 < block) (hfits : Fits hinit names size) :
    let test := sumLoop size names fun _ => 8
    Layout names size (placeLoop (alignTest line test) (ngxAlign block line) size).2
      (alignTest line test) block (block+(lengthLoop line test size+line)) := by
  intro test
  have hbucket := hsmall.bucket
  obtain ⟨hup,hless,hblock8⟩ := align_up hsmall.cacheline block
  have hline : 0 < line := by
    obtain ⟨k,-,rfl⟩ := hsmall.cacheline
    exact Nat.two_pow_pos k
  have htest (i : ℕ) : test i = 8+bytes (contents names size i) := by
    refine sum_loop (fun j => ?_) i
    have hj := fits_le hfits j
    omega
  have hempty (i : ℕ) : test i = 8 ↔ contents names size i = [] := by
    rw [htest, ← bytes_empty]
    omega
  have halign (i : ℕ) (hi : test i ≠ 8) : alignTest line test i = ngxAlign (test i) line := by
    have hj := hfits i fun h => hi ((hempty i).mpr h)
    have hi' := (align_up hsmall.cacheline (test i)).2.1
    have := htest i
    rw [alignTest, if_neg hi, u_short (by omega)]
  have height (i : ℕ) : alignTest line test i = 8 ↔ test i = 8 := by
    by_cases hi : test i = 8
    · rw [alignTest, if_pos hi]
      exact ⟨fun _ => hi,fun _ => rfl⟩
    rw [halign i hi]
    have hi' := (align_up hsmall.cacheline (test i)).1
    have := htest i
    exact ⟨fun h => by omega,fun h => absurd h hi⟩
  have hlength (n : ℕ) : lengthLoop line test n = before (alignTest line test) n := by
    induction n with
    | zero => rfl
    | succ n ih =>
      rw [lengthLoop, before, ih]
      simp only [height]
  have hplace (i : ℕ) : (placeLoop (alignTest line test) (ngxAlign block line) size).2 i =
      if i < size ∧ test i ≠ 8 then ngxAlign block line+before (alignTest line test) i else 0 := by
    rw [(place_loop _ _ _).2]
    simp only [ne_eq, height]
  have hfilled (i : ℕ) (hi : i < size) :
      (placeLoop (alignTest line test) (ngxAlign block line) size).2 i ≠ 0 ↔ test i ≠ 8 := by
    rw [hplace]
    by_cases h : test i = 8
    · simp [h]
    · rw [if_pos ⟨hi,h⟩]
      exact ⟨fun _ => h,fun _ => by omega⟩
  have hthere (i : ℕ) (hi : i < size)
      (hne : (placeLoop (alignTest line test) (ngxAlign block line) size).2 i ≠ 0) :
      test i ≠ 8 ∧ (placeLoop (alignTest line test) (ngxAlign block line) size).2 i =
        ngxAlign block line+before (alignTest line test) i := by
    have h := (hfilled i hi).mp hne
    exact ⟨h,by rw [hplace, if_pos ⟨hi,h⟩]⟩
  have hbefore (i : ℕ) : before (alignTest line test) i%8 = 0 := by
    induction i with
    | zero => rfl
    | succ i ih =>
      rw [before]
      by_cases h : test i = 8
      · rw [if_pos ((height i).mpr h)]
        exact ih
      rw [if_neg fun h' => h ((height i).mp h'), halign i h]
      have := (align_up hsmall.cacheline (test i)).2.2
      omega
  refine ⟨fun i hi => ?_,fun i hi => ?_,fun i hi hne => ?_,fun i hi hne => ?_,
    fun i hi j hj hij hne hne' => ?_⟩
  · rw [hfilled i hi, ne_eq, hempty]
  · rw [hplace]
    have := hbefore i
    split_ifs <;> omega
  · obtain ⟨h,-⟩ := hthere i hi hne
    have hl := (align_up hsmall.cacheline (test i)).1
    have := htest i
    rw [halign i h]
    omega
  · obtain ⟨h,heq⟩ := hthere i hi hne
    have hmono := before_mono (alignTest line test) hi
    rw [if_neg fun h' => h ((height i).mp h')] at hmono
    rw [heq, hlength]
    omega
  · obtain ⟨h,heq⟩ := hthere i hi hne
    obtain ⟨-,heq'⟩ := hthere j hj hne'
    have hmono := before_mono (alignTest line test) hij
    rw [if_neg fun h' => h ((height i).mp h')] at hmono
    rw [heq, heq']
    omega

/-! Elements in memory -/

def eltBytes (k : HashKey) : List UInt8 :=
  toBytes 8 k.value++(toBytes 2 (uShort k.data.length)++ngxStrlow k.data)

theorem elt_bytes_length (k : HashKey) : (eltBytes k).length = 10+k.data.length := by
  rw [eltBytes, List.length_append, List.length_append, toBytes_length, toBytes_length, ngxStrlow,
    List.length_map]
  omega

theorem store_elt (mem : ℕ → UInt8) (elt : ℕ) (k : HashKey) :
    storeElt mem elt k = writeRange mem elt (eltBytes k) := by
  have hvalue := write_append mem elt (toBytes 8 k.value)
    (toBytes 2 (uShort k.data.length)++ngxStrlow k.data)
  have hlen := write_append (writeRange mem elt (toBytes 8 k.value)) (elt+8)
    (toBytes 2 (uShort k.data.length)) (ngxStrlow k.data)
  rw [toBytes_length] at hvalue hlen
  rw [eltBytes, ← hvalue, ← hlen]
  rfl

@[grind =] def Stands (mem : ℕ → UInt8) : ℕ → List HashKey → Prop
  | _, [] => True
  | a, k::ks => readRange mem a (a+(eltBytes k).length) = eltBytes k ∧ Stands mem (a+eltSize k) ks

theorem stands_frame {mem mem' : ℕ → UInt8} (h : ∀ i, a ≤ i → i < a+bytes ks → mem' i = mem i)
    (hstands : Stands mem a ks) : Stands mem' a ks := by
  induction ks generalizing a with
  | nil => trivial
  | cons k ks ih =>
    have hk := (elt_size k).1
    have hlength := elt_bytes_length k
    rw [bytes_cons] at h
    refine ⟨?_,ih (fun i hl hr => h i (by omega) (by omega)) hstands.2⟩
    exact (read_congr mem mem' fun i hl hr => h i hl (by omega)).trans hstands.1

variable {mem : ℕ → UInt8}

theorem stands_append :
    Stands mem a (ks++[k]) ↔ Stands mem a ks ∧
      readRange mem (a+bytes ks) (a+bytes ks+(eltBytes k).length) = eltBytes k := by
  induction ks generalizing a with
  | nil => exact ⟨fun h => ⟨trivial,h.1⟩,fun h => ⟨h.2,trivial⟩⟩
  | cons k' ks ih =>
    rw [List.cons_append, Stands, Stands, ih, bytes_cons, and_assoc, Nat.add_assoc]

theorem write_outside (mem : ℕ → UInt8) {a i : ℕ} {xs : List UInt8}
    (h : i < a ∨ a+xs.length ≤ i) : writeRange mem a xs i = mem i := by
  rw [writeRange]
  split_ifs with hi
  · exact List.getD_eq_default _ _ (by omega)
  · rfl

/-- The elements that have been stored and the sums that say where the next ones go -/
structure Filled (names : List HashKey) (size : ℕ) (buckets test : ℕ → ℕ) (lo hi : ℕ)
    (mem0 mem : ℕ → UInt8) : Prop where
  test : ∀ i, test i = bytes (contents names size i)
  stands : ∀ i < size, contents names size i ≠ [] →
    Stands mem (buckets i) (contents names size i)
  frame : ∀ a, a < lo ∨ hi ≤ a → mem a = mem0 a

theorem contents_append (ks ks' : List HashKey) (size i : ℕ) :
    contents (ks++ks') size i = contents ks size i++contents ks' size i := List.filter_append ..

theorem contents_here (hnull : k.null = false) : contents [k] size (k.hash%size) = [k] := by
  rw [contents, List.filter_cons, if_pos (by simp [hnull])]
  rfl

theorem contents_elsewhere {i : ℕ} (h : k.hash%size ≠ i) : contents [k] size i = [] := by
  rw [contents, List.filter_cons, if_neg (by simp [h])]
  rfl

section Filling

variable {buckets ext : ℕ → ℕ} {lo hi : ℕ} {mem0 mem : ℕ → UInt8}

theorem stands_kept {done rest : List HashKey} {i j a : ℕ} {xs : List UInt8}
    (hlayout : Layout (done++rest) size buckets ext lo hi) (hi : i < size) (hj : j < size)
    (hne : contents done size i ≠ []) (hjne : buckets j ≠ 0)
    (hstands : Stands mem (buckets i) (contents done size i))
    (ha : buckets j ≤ a) (ha' : a+xs.length ≤ buckets j+ext j)
    (hsame : i = j → buckets j+bytes (contents done size i) ≤ a) :
    Stands (writeRange mem a xs) (buckets i) (contents done size i) := by
  have hine : buckets i ≠ 0 := by
    rw [hlayout.filled i hi, contents_append]
    exact fun h => hne (List.append_eq_nil_iff.mp h).1
  have hroom := hlayout.room i hi hine
  rw [contents_append, bytes_append] at hroom
  refine stands_frame (fun b hl hr => write_outside mem ?_) hstands
  rcases Nat.lt_trichotomy i j with hlt|heq|hgt
  · have hapart := hlayout.apart i hi j hj hlt hine hjne
    exact Or.inl (by omega)
  · have hlater := hsame heq
    subst heq
    exact Or.inl (by omega)
  · have hapart := hlayout.apart j hj i hi hgt hjne hine
    exact Or.inr (by omega)

theorem fill_step {done rest : List HashKey}
    (hlayout : Layout (done++k::rest) size buckets ext lo hi) (hsize : 0 < size)
    (hsum : ∀ i, bytes (contents (done++k::rest) size i) < 2^16) (hnull : k.null = false)
    (h : Filled done size buckets test lo hi mem0 mem) :
    Filled (done++[k]) size buckets
      (Function.update test (k.hash%size) (uShort (test (k.hash%size)+eltSize k))) lo hi mem0
      (storeElt mem (buckets (k.hash%size)+test (k.hash%size)) k) := by
  have hkey := Nat.mod_lt k.hash hsize
  have hall : contents (done++k::rest) size (k.hash%size) =
      contents done size (k.hash%size)++(k::contents rest size (k.hash%size)) := by
    rw [contents_append, ← List.singleton_append, contents_append, contents_here hnull]
    rfl
  have hne : buckets (k.hash%size) ≠ 0 := by
    rw [hlayout.filled _ hkey, hall]
    simp
  have hroom := hlayout.room _ hkey hne
  have hshort := hsum (k.hash%size)
  rw [hall, bytes_append, bytes_cons] at hroom hshort
  obtain ⟨hlo,hhi⟩ := hlayout.inside _ hkey hne
  have hlength := elt_bytes_length k
  have helt := (elt_size k).1
  rw [store_elt, h.test, u_short (by omega)]
  refine ⟨fun i => ?_,fun i hi hcontents => ?_,fun a ha => ?_⟩
  · rw [contents_append, bytes_append]
    by_cases heq : k.hash%size = i
    · subst heq
      rw [Function.update_self, contents_here hnull, bytes_cons]
      rfl
    · rw [Function.update_of_ne (Ne.symm heq), h.test, contents_elsewhere heq]
      rfl
  · rw [contents_append] at hcontents ⊢
    by_cases heq : k.hash%size = i
    · subst heq
      rw [contents_here hnull, stands_append]
      refine ⟨?_,read_write mem _ (eltBytes k)⟩
      refine stands_frame (fun b hl hr => write_outside mem (Or.inl hr)) ?_
      by_cases hdone : contents done size (k.hash%size) = []
      · rw [hdone]
        trivial
      · exact h.stands _ hkey hdone
    rw [contents_elsewhere heq, List.append_nil] at hcontents ⊢
    exact stands_kept hlayout hi hkey hcontents hne (h.stands i hi hcontents) (by omega)
      (by omega) fun h => absurd h.symm heq
  · rw [write_outside mem (by omega)]
    exact h.frame a ha

theorem fill_loop {done rest : List HashKey}
    (hlayout : Layout (done++rest) size buckets ext lo hi) (hsize : 0 < size)
    (hsum : ∀ i, bytes (contents (done++rest) size i) < 2^16)
    (h : Filled done size buckets test lo hi mem0 mem) :
    Filled (done++rest) size buckets (fillLoop size buckets rest test mem).1 lo hi mem0
      (fillLoop size buckets rest test mem).2 := by
  induction rest generalizing done test mem with
  | nil =>
    rw [List.append_nil]
    exact h
  | cons k rest ih =>
    rw [fillLoop]
    have hsplit : done++k::rest = done++[k]++rest := by simp
    cases hnull : k.null with
    | true =>
      simp only [if_true]
      rw [hsplit] at hlayout hsum ⊢
      have hskip (i : ℕ) : contents (done++[k]) size i = contents done size i := by
        rw [contents_append, contents_null hnull]
        exact List.append_nil _
      refine ih hlayout hsum ⟨fun i => ?_,fun i hi hne => ?_,h.frame⟩
      · rw [hskip]
        exact h.test i
      · rw [hskip] at hne ⊢
        exact h.stands i hi hne
    | false =>
      simp only [Bool.false_eq_true, if_false]
      have hstep := fill_step hlayout hsize hsum hnull h
      rw [hsplit] at hlayout hsum ⊢
      exact ih hlayout hsum hstep

theorem fill_all (hlayout : Layout names size buckets ext lo hi) (hsize : 0 < size)
    (hsum : ∀ i, bytes (contents names size i) < 2^16) :
    Filled names size buckets (fillLoop size buckets names (fun _ => 0) mem).1 lo hi mem
      (fillLoop size buckets names (fun _ => 0) mem).2 := by
  have hstart : Filled [] size buckets (fun _ => 0) lo hi mem mem :=
    ⟨fun _ => rfl,fun _ _ h => absurd rfl h,fun _ _ => rfl⟩
  rw [← List.nil_append names] at hlayout hsum
  exact fill_loop hlayout hsize hsum hstart

def Marked (buckets test : ℕ → ℕ) (n : ℕ) (mem : ℕ → UInt8) : Prop :=
  ∀ i < n, buckets i ≠ 0 →
    readRange mem (buckets i+test i) (buckets i+test i+8) = toBytes 8 0

theorem mark_loop (hlayout : Layout names size buckets ext lo hi)
    (h : Filled names size buckets test lo hi mem0 mem) (hn : n ≤ size) :
    Filled names size buckets test lo hi mem0 (markLoop buckets test n mem) ∧
      Marked buckets test n (markLoop buckets test n mem) := by
  have hwhole : Layout (names++[]) size buckets ext lo hi := by
    rwa [List.append_nil]
  induction n with
  | zero => exact ⟨h,fun i hi => absurd hi (Nat.not_lt_zero i)⟩
  | succ n ih =>
    obtain ⟨hfilled,hmarked⟩ := ih (by omega)
    rw [markLoop]
    by_cases hnone : buckets n = 0
    · simp only [if_pos hnone]
      refine ⟨hfilled,fun i hi hne => hmarked i ?_ hne⟩
      rcases Nat.lt_succ_iff_lt_or_eq.mp hi with hlt|rfl
      · exact hlt
      · exact absurd hnone hne
    simp only [if_neg hnone]
    have hroom := hlayout.room n hn hnone
    obtain ⟨hlo,hhi⟩ := hlayout.inside n hn hnone
    have hlength : (toBytes 8 0).length = 8 := toBytes_length 8 0
    rw [h.test n]
    refine ⟨⟨h.test,fun i hi hne => ?_,fun a ha => ?_⟩,fun i hi hne => ?_⟩
    · refine stands_kept hwhole hi hn hne hnone (hfilled.stands i hi hne) (by omega) (by omega) ?_
      rintro rfl
      exact le_rfl
    · rw [write_outside _ (by omega)]
      exact hfilled.frame a ha
    · rcases Nat.lt_succ_iff_lt_or_eq.mp hi with hlt|rfl
      · have hi' : i < size := by omega
        have hapart := hlayout.apart i hi' n hn hlt hne hnone
        have hiroom := hlayout.room i hi' hne
        have htest := h.test i
        rw [← hmarked i hlt hne]
        exact read_congr _ _ fun b _ hr => write_outside _ (Or.inl (by omega))
      have hread := read_write (markLoop buckets test i mem)
        (buckets i+bytes (contents names size i)) (toBytes 8 0)
      rw [hlength] at hread
      rw [h.test i]
      exact hread

end Filling

/-! Walking a bucket -/

theorem elt_reads (h : readRange mem a (a+(eltBytes k).length) = eltBytes k) :
    readRange mem a (a+8) = toBytes 8 k.value ∧
    readRange mem (a+8) (a+8+2) = toBytes 2 (uShort k.data.length) ∧
    readRange mem (a+10) (a+10+k.data.length) = ngxStrlow k.data := by
  rw [elt_bytes_length, ← read_append mem (show a ≤ a+8 by omega) (by omega), eltBytes] at h
  obtain ⟨hvalue,hrest⟩ := List.append_inj h (by rw [read_length, toBytes_length]; omega)
  rw [← read_append mem (show a+8 ≤ a+8+2 by omega) (by omega)] at hrest
  obtain ⟨hlen,hname⟩ := List.append_inj hrest (by rw [read_length, toBytes_length]; omega)
  refine ⟨hvalue,hlen,?_⟩
  rw [← hname]
  congr 1
  omega

theorem find_loop (name : List UInt8) (hstands : Stands mem a ks)
    (hmark : readRange mem (a+bytes ks) (a+bytes ks+8) = toBytes 8 0) (ha : a%8 = 0)
    (hvalue : ∀ k ∈ ks, 0 < k.value ∧ k.value < 2^64) (hlen : ∀ k ∈ ks, k.data.length < 2^16)
    (hn : ks.length < n) :
    findLoop mem name n a =
      some (((ks.find? fun k => ngxStrlow k.data = name).map HashKey.value).getD 0) := by
  induction ks generalizing a n with
  | nil =>
    obtain ⟨n,rfl⟩ : ∃ m, n = m+1 := ⟨n-1,by omega⟩
    have hzero : load mem a 8 = 0 := by
      rw [load]
      change readRange mem (a+0) (a+0+8) = toBytes 8 0 at hmark
      rw [Nat.add_zero] at hmark
      rw [hmark, ofBytes_toBytes]
      exact Nat.zero_mod _
    rw [findLoop, if_pos hzero]
    rfl
  | cons k ks ih =>
    obtain ⟨n,rfl⟩ : ∃ m, n = m+1 := ⟨n-1,by omega⟩
    obtain ⟨hread,hrest⟩ := hstands
    obtain ⟨hv,hl,hname⟩ := elt_reads hread
    obtain ⟨hpos,hsmall⟩ := hvalue k List.mem_cons_self
    have hshort := hlen k List.mem_cons_self
    have hload : load mem a 8 = k.value := by
      rw [load, hv, ofBytes_toBytes]
      exact Nat.mod_eq_of_lt hsmall
    have hloadlen : load mem (a+8) 2 = k.data.length := by
      rw [load, hl, ofBytes_toBytes, u_short hshort]
      exact Nat.mod_eq_of_lt hshort
    rw [findLoop, hload, hloadlen, if_neg (by omega), List.find?_cons]
    have hsame : name.length = k.data.length ∧
        readRange mem (a+10) (a+10+name.length) = name ↔ ngxStrlow k.data = name := by
      constructor
      · rintro ⟨hlength,hequal⟩
        rw [← hname, ← hlength, hequal]
      · rintro rfl
        have hlength : (ngxStrlow k.data).length = k.data.length := by
          rw [ngxStrlow, List.length_map]
        exact ⟨hlength,by rw [hlength, hname]⟩
    by_cases hfound : ngxStrlow k.data = name
    · rw [if_pos (hsame.mpr hfound)]
      simp [hfound]
    rw [if_neg fun h => hfound (hsame.mp h), next_elt k ha]
    rw [bytes_cons, ← Nat.add_assoc] at hmark
    have helt := (elt_size k).2
    rw [ih hrest hmark (by omega) (fun k' h => hvalue k' (List.mem_cons_of_mem k h))
      (fun k' h => hlen k' (List.mem_cons_of_mem k h)) (by simpa using hn)]
    simp [hfound]

theorem contents_mem {k' : HashKey} {i : ℕ} :
    k' ∈ contents names size i ↔ k' ∈ names ∧ k'.null = false ∧ k'.hash%size = i := by
  rw [contents, List.mem_filter, decide_eq_true_iff]

theorem find_distinct (hkeys : Keys names) (hk : k ∈ names) (hnull : k.null = false) :
    ((contents names size (k.hash%size)).find? fun k' => ngxStrlow k'.data = ngxStrlow k.data) =
      some k := by
  have hmem : k ∈ contents names size (k.hash%size) := contents_mem.mpr ⟨hk,hnull,rfl⟩
  cases hfind : (contents names size (k.hash%size)).find?
    fun k' => ngxStrlow k'.data = ngxStrlow k.data with
  | none =>
    have hnone := List.find?_eq_none.mp hfind k hmem
    exact absurd (decide_eq_true rfl) hnone
  | some k' =>
    obtain ⟨hk',hnull',-⟩ := contents_mem.mp (List.mem_of_find?_eq_some hfind)
    have hsame : ngxStrlow k'.data = ngxStrlow k.data := by simpa using List.find?_some hfind
    have hsymm : Std.Symm fun a b : HashKey => a.null = false → b.null = false →
        ngxStrlow a.data ≠ ngxStrlow b.data := ⟨fun a b h hb ha heq => h ha hb heq.symm⟩
    by_contra hne
    exact hkeys.distinct.forall hk' hk (fun h => hne (h ▸ rfl)) hnull' hnull hsame

theorem find_absent {i : ℕ} {name : List UInt8}
    (h : ∀ k ∈ names, k.null = false → ngxStrlow k.data ≠ name) :
    ((contents names size i).find? fun k => ngxStrlow k.data = name) = none := by
  refine List.find?_eq_none.mpr fun k hk hsame => ?_
  obtain ⟨hk,hnull,-⟩ := contents_mem.mp hk
  exact h k hk hnull (of_decide_eq_true hsame)

section Built

variable {buckets ext : ℕ → ℕ} {lo hi : ℕ} {mem mem' : ℕ → UInt8}

theorem hash_find (hlayout : Layout names size buckets ext lo hi)
    (hfilled : Filled names size buckets test lo hi mem mem')
    (hmarked : Marked buckets test size mem') (hkeys : Keys names) (hsize : 0 < size)
    (hlen : ∀ k ∈ names, k.data.length < 2^16) (key : ℕ) (name : List UInt8) {turns : ℕ}
    (hturns : names.length < turns) : ngxHashFind mem' ⟨buckets,size⟩ key name turns =
      some ((((contents names size (key%size)).find? fun k => ngxStrlow k.data = name).map
        HashKey.value).getD 0) := by
  have hkey := Nat.mod_lt key hsize
  rw [ngxHashFind]
  by_cases hempty : contents names size (key%size) = []
  · have hnone : buckets (key%size) = 0 := by
      by_contra hne
      exact (hlayout.filled _ hkey).mp hne hempty
    simp only [hnone, if_true, hempty]
    rfl
  have hne := (hlayout.filled _ hkey).mpr hempty
  have hmark := hmarked _ hkey hne
  rw [hfilled.test] at hmark
  simp only [if_neg hne]
  refine find_loop name (hfilled.stands _ hkey hempty) hmark (hlayout.aligned _ hkey) ?_ ?_ ?_
  · intro k hk
    obtain ⟨hk,hnull,-⟩ := contents_mem.mp hk
    exact hkeys.value k hk hnull
  · exact fun k hk => hlen k (contents_mem.mp hk).1
  · exact (List.length_filter_le _ _).trans_lt hturns

theorem answers (hlayout : Layout names size buckets ext lo hi)
    (hfilled : Filled names size buckets test lo hi mem mem')
    (hmarked : Marked buckets test size mem') (hkeys : Keys names) (hsize : 0 < size)
    (hlen : ∀ k ∈ names, k.data.length < 2^16) : Answers names ⟨buckets,size⟩ mem' := by
  intro turns hturns
  refine ⟨fun k hk hnull => ?_,fun key name habsent => ?_⟩
  · rw [hash_find hlayout hfilled hmarked hkeys hsize hlen _ _ hturns,
      find_distinct hkeys hk hnull]
    rfl
  · rw [hash_find hlayout hfilled hmarked hkeys hsize hlen _ _ hturns, find_absent habsent]
    rfl

theorem laid_out (hlayout : Layout names size buckets ext lo hi)
    (hfilled : Filled names size buckets test lo hi mem mem')
    (hmarked : Marked buckets test size mem') (hhi : hi = lo+n) :
    LaidOut names ⟨buckets,size⟩ mem mem' lo n := by
  subst hhi
  refine ⟨fun i hi hempty => ?_,fun i hi hne => ?_,fun i hi j hj hij hne hne' => ?_,
    fun i hi hne => ?_,hfilled.frame⟩
  · by_contra hne
    exact (hlayout.filled i hi).mp hne hempty
  · have hne := (hlayout.filled i hi).mpr hne
    have hroom := hlayout.room i hi hne
    obtain ⟨hlo,hhi⟩ := hlayout.inside i hi hne
    exact ⟨hlo,(Nat.add_le_add_left hroom _).trans hhi⟩
  · have hne := (hlayout.filled i hi).mpr hne
    have hne' := (hlayout.filled j hj).mpr hne'
    have hroom := hlayout.room i hi hne
    exact (Nat.add_le_add_left hroom _).trans (hlayout.apart i hi j hj hij hne hne')
  · have hmark := hmarked i hi ((hlayout.filled i hi).mpr hne)
    rw [hfilled.test] at hmark
    exact hmark

end Built

/-! The whole of `ngx_hash_init` -/

section Init

variable {line : ℕ} {alloc : Allocator} {hinit : HashInit} {mem mem' : ℕ → UInt8} {hash : Hash}

theorem lay_out (hsmall : Small line hinit names) (hfits : Fits hinit names size)
    (hsize : 0 < size) (hkeys : Keys names) (hlen : ∀ k ∈ names, k.data.length < 2^16)
    (halloc : ∀ n block, alloc.elts n = some block → 0 < block)
    (h : layOut line alloc names size mem = .ok (hash,mem')) :
    hash.size = size ∧ Answers names hash mem' ∧
      ∃ n block, alloc.elts n = some block ∧ LaidOut names hash mem mem' block n := by
  simp only [layOut] at h
  split at h
  · cases h
  · split at h
    · cases h
    · next block hblock =>
      injection h with h
      injection h with hhash hmem
      subst hhash
      subst hmem
      have hlayout := layout hsmall (halloc _ _ hblock) hfits
      have hbucket := hsmall.bucket
      have hsum (i : ℕ) : bytes (contents names size i) < 2^16 := by
        have hi := fits_le hfits i
        omega
      obtain ⟨hfilled,hmarked⟩ := mark_loop hlayout (fill_all hlayout hsize hsum) le_rfl
      exact ⟨rfl,answers hlayout hfilled hmarked hkeys hsize hlen,_,block,hblock,
        laid_out hlayout hfilled hmarked rfl⟩

theorem init_fits (hsmall : Small line hinit names)
    (hroom : ¬(names.any fun k => hinit.bucketSize < eltSize k+8)) :
    fitsLoop (innerSize hinit) size names (fun _ => 0) = true ↔ Fits hinit names size := by
  cases names with
  | nil => exact ⟨fun _ i h => absurd rfl h,fun _ => rfl⟩
  | cons k names =>
    have hk : eltSize k+8 ≤ hinit.bucketSize := by
      simp only [List.any_cons, Bool.or_eq_true, decide_eq_true_iff, not_or] at hroom
      omega
    have hbucket := hsmall.bucket
    have hinner : innerSize hinit = hinit.bucketSize-8 := by
      rw [innerSize]
      omega
    rw [fits_loop (by omega) _ fun _ => Nat.zero_le _]
    · constructor
      · intro h i _
        have hi := h i
        omega
      · intro h i
        have hi := fits_le h i
        omega
    · intro k' hk' hnull
      have hsum := hsmall.sum k' hk' hnull
      omega

theorem start_size {nelts start : ℕ} (h : startSize hinit nelts = some start) : 0 < start := by
  simp only [startSize] at h
  split_ifs at h
  · injection h with h
    omega
  · injection h with h
    omega
  · injection h with h
    omega

/-- With no sum of more than 16 bits, a table that is built has its buckets apart in its block and
answers from its keys in lower case, and nothing is built when no size fits. -/
theorem hash_init_law (mem : ℕ → UInt8) (hsmall : Small line hinit names) (hkeys : Keys names)
    (halloc : ∀ n block, alloc.elts n = some block → 0 < block) :
    (∀ hash mem', ngxHashInit line alloc hinit names mem = .ok (hash,mem') →
      Answers names hash mem' ∧
      (∃ n block, alloc.elts n = some block ∧ LaidOut names hash mem mem' block n) ∧
      ∃ start, startSize hinit names.length = some start ∧ start ≤ hash.size ∧
        hash.size < hinit.maxSize ∧ Fits hinit names hash.size) ∧
    ∀ start, startSize hinit names.length = some start →
      (∀ size, start ≤ size → size < hinit.maxSize → ¬Fits hinit names size) →
      ngxHashInit line alloc hinit names mem = .error .ngxError := by
  by_cases hroom : names.any fun k => hinit.bucketSize < eltSize k+8
  · have herror : ngxHashInit line alloc hinit names mem = .error .ngxError := by
      rw [ngxHashInit, if_pos hroom]
    refine ⟨fun hash mem' h => ?_,fun _ _ _ => herror⟩
    rw [herror] at h
    cases h
  cases htest : alloc.test with
  | false =>
    have herror : ngxHashInit line alloc hinit names mem = .error .ngxError := by
      rw [ngxHashInit, if_neg hroom, if_pos htest]
    refine ⟨fun hash mem' h => ?_,fun _ _ _ => herror⟩
    rw [herror] at h
    cases h
  | true =>
    rw [ngxHashInit, if_neg hroom, if_neg (by simp [htest])]
    have hlen (k : HashKey) (hk : k ∈ names) : k.data.length < 2^16 := by
      have hbucket := hsmall.bucket
      have helt := (elt_size k).1
      by_contra hlong
      refine hroom (List.any_eq_true.mpr ⟨k,hk,decide_eq_true ?_⟩)
      omega
    cases hstart : startSize hinit names.length with
    | none =>
      refine ⟨?_,?_⟩
      · rintro hash mem' ⟨⟩
      · rintro start ⟨⟩
    | some start =>
      have hpos := start_size hstart
      cases hsearch : searchLoop (innerSize hinit) names (hinit.maxSize-start) start with
      | none =>
        simp only [hsearch]
        refine ⟨?_,fun _ _ _ => trivial⟩
        rintro hash mem' ⟨⟩
      | some size =>
        simp only [hsearch]
        obtain ⟨hle,hlt,hloop⟩ := search_loop hsearch
        have hfits := (init_fits hsmall hroom).mp hloop
        refine ⟨fun hash mem' h => ?_,?_⟩
        · obtain ⟨rfl,hanswers,hlaid⟩ :=
            lay_out hsmall hfits (by omega) hkeys hlen halloc h
          exact ⟨hanswers,hlaid,start,rfl,hle,by omega,hfits⟩
        · rintro _ ⟨⟩ hno
          exact absurd hfits (hno size hle (by omega))

end Init

/-- A table for the names `host` and `Via` -/
theorem hash_init_law_host : ∃ hash mem', ngxHashInit 64 ⟨true,true,fun _ => some 4096⟩ ⟨512,64⟩
    [⟨[104,111,115,116],false,3208616,1⟩,⟨[86,105,97],false,116750,2⟩] (fun _ => 0) =
      .ok (hash,mem') ∧
    Answers [⟨[104,111,115,116],false,3208616,1⟩,⟨[86,105,97],false,116750,2⟩] hash mem' := by
  cases h : ngxHashInit 64 ⟨true,true,fun _ => some 4096⟩ ⟨512,64⟩
      [⟨[104,111,115,116],false,3208616,1⟩,⟨[86,105,97],false,116750,2⟩] fun _ => 0 with
  | error e =>
    have hok : (ngxHashInit 64 ⟨true,true,fun _ => some 4096⟩ ⟨512,64⟩
        [⟨[104,111,115,116],false,3208616,1⟩,⟨[86,105,97],false,116750,2⟩]
        fun _ => 0).isOk = true := by decide
    rw [h] at hok
    cases hok
  | ok built =>
    obtain ⟨hash,mem'⟩ := built
    have hsmall : Small 64 ⟨512,64⟩
        [⟨[104,111,115,116],false,3208616,1⟩,⟨[86,105,97],false,116750,2⟩] :=
      ⟨⟨6,by decide,rfl⟩,by decide,by decide⟩
    have hkeys : Keys [⟨[104,111,115,116],false,3208616,1⟩,⟨[86,105,97],false,116750,2⟩] :=
      ⟨by decide,by decide⟩
    have halloc (n block : ℕ)
        (h : (Allocator.mk true true fun _ => some 4096).elts n = some block) : 0 < block := by
      cases h
      decide
    have hlaw := hash_init_law (fun _ => 0) hsmall hkeys halloc
    exact ⟨hash,mem',rfl,(hlaw.1 hash mem' h).1⟩

theorem find_more {name : List UInt8} {n elt value : ℕ} (m : ℕ)
    (h : findLoop mem name n elt = some value) : findLoop mem name (n+m) elt = some value := by
  induction n generalizing elt with
  | zero => cases h
  | succ n ih =>
    rw [Nat.succ_add]
    rw [findLoop] at h ⊢
    split_ifs at h ⊢ with hzero hfound
    · exact h
    · exact h
    · exact ih h

/-- A key with a capital letter is not found under its own bytes. -/
theorem capital_lost : ∃ hash mem', ngxHashInit 64 ⟨true,true,fun _ => some 4096⟩ ⟨512,64⟩
    [⟨[65],false,97,5⟩] (fun _ => 0) = .ok (hash,mem') ∧
    ∀ turns, ngxHashFind mem' hash 97 [65] turns ≠ some 5 := by
  have hzero : ((ngxHashInit 64 ⟨true,true,fun _ => some 4096⟩ ⟨512,64⟩
      [⟨[65],false,97,5⟩] fun _ => 0).toOption.bind fun built =>
      findLoop built.2 [65] 2 (built.1.buckets (97%built.1.size))) = some 0 := by decide
  cases h : ngxHashInit 64 ⟨true,true,fun _ => some 4096⟩ ⟨512,64⟩ [⟨[65],false,97,5⟩]
      fun _ => 0 with
  | error e =>
    rw [h] at hzero
    cases hzero
  | ok built =>
    obtain ⟨hash,mem'⟩ := built
    rw [h] at hzero
    refine ⟨hash,mem',rfl,fun turns hfound => ?_⟩
    rw [ngxHashFind] at hfound
    split_ifs at hfound
    · cases hfound
    · have hmore := find_more 2 hfound
      rw [Nat.add_comm, find_more turns hzero] at hmore
      cases hmore

end Nginx.ExactHashLaw
