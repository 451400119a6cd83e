import Nginx.GzipAccept

/-!
# What the negotiation accepts

The search reads a value up to its first zero byte and the rest up to the
terminator. It ends at the first word that stands where it may, unless one
stands directly behind a word that does not: the search begins anew there.
-/

set_option autoImplicit false

namespace Nginx.GzipAcceptLaw
open Nginx.HeaderHash Nginx.GzipAccept

/-! ## Qualities -/

theorem digits_upto (q n : ℕ) (t : List UInt8) :
    ((∀ d ∈ upTo t, Digit d) ∧ quantityDigits q n (t++[0]) =
      some (q+((upTo t).map fun d => d.toNat-48).sum, n+(upTo t).length)) ∨
    ((¬∀ d ∈ upTo t, Digit d) ∧ quantityDigits q n (t++[0]) = none) := by
  induction t generalizing q n with
  | nil => simp [quantityDigits, upTo]
  | cons c t ih =>
    rw [List.cons_append, quantityDigits, if_neg (by simp)]
    by_cases hs : c = 44 ∨ c = 32
    · have hu : upTo (c::t) = [] := by
        rcases hs with rfl | rfl <;> rfl
      simp [hs, hu]
    have hu : upTo (c::t) = c::upTo t := by
      push Not at hs
      simp [upTo, hs]
    rw [if_neg hs, hu]
    by_cases hd : 48 ≤ c ∧ c ≤ 57
    · have hall : (∀ d ∈ c::upTo t, Digit d) ↔ ∀ d ∈ upTo t, Digit d := by
        simp [Digit, hd]
      rw [if_pos hd, hall, List.map_cons, List.sum_cons, List.length_cons, ← Nat.add_assoc,
        Nat.add_comm (upTo t).length, ← Nat.add_assoc]
      exact ih (q+(c.toNat-48)) (n+1)
    · rw [if_neg hd]
      exact .inr ⟨fun hall => hd (hall c (by simp)),rfl⟩

theorem digit_sum_zero (ds : List UInt8) (h : ∀ d ∈ ds, Digit d) :
    (ds.map fun d => d.toNat-48).sum = 0 ↔ ∀ d ∈ ds, d = 48 := by
  induction ds with
  | nil => simp
  | cons d ds ih =>
    have hd : 48 ≤ d.toNat := UInt8.le_iff_toNat_le.mp (h d (by simp)).1
    have he : d = 48 ↔ d.toNat = 48 := UInt8.toNat_inj.symm
    rw [List.map_cons, List.sum_cons, Nat.add_eq_zero_iff,
      ih fun e he => h e (by simp [he]), List.forall_mem_cons, he]
    constructor
    · exact fun ⟨h1,h2⟩ => ⟨by omega,h2⟩
    · exact fun ⟨h1,h2⟩ => ⟨by omega,h2⟩

theorem digit_sum_le (ds : List UInt8) (h : ∀ d ∈ ds, Digit d) :
    (ds.map fun d => d.toNat-48).sum ≤ 9*ds.length := by
  induction ds with
  | nil => simp
  | cons d ds ih =>
    have hd : d.toNat ≤ 57 := UInt8.le_iff_toNat_le.mp (h d (by simp)).2
    have := ih fun e he => h e (by simp [he])
    rw [List.map_cons, List.sum_cons, List.length_cons]
    omega

variable {w : List UInt8} (c : UInt8)

theorem positive_digit (h : w.head? = some c) (hp : Positive w) : c = 48 ∨ c = 49 := by
  rcases hp with rfl | ⟨ds,-,-,⟨rfl,-⟩ | ⟨rfl,-⟩⟩ <;> simp_all

theorem positive_alone (hc : c = 48 ∨ c = 49) : Positive [c] ↔ (c.toNat-48)*100 ≠ 0 := by
  rcases hc with rfl | rfl
  · simp [Positive]
  · simp [Positive]

theorem positive_pointed (ds : List UInt8) (hc : c = 48 ∨ c = 49) :
    Positive (c::46::ds) ↔ (∀ d ∈ ds, Digit d) ∧ ds.length ≤ 3 ∧
      (c.toNat-48)*100+(ds.map fun d => d.toNat-48).sum ≤ 100 ∧
      (c.toNat-48)*100+(ds.map fun d => d.toNat-48).sum ≠ 0 := by
  have hsum := digit_sum_zero ds
  have hle := digit_sum_le ds
  rcases hc with rfl | rfl
  · constructor
    · rintro (h | ⟨es,hd,hl,⟨h,-⟩ | ⟨h,x,hx,hn⟩⟩)
      · cases h
      · cases h
      · cases h
        refine ⟨hd,hl,?_,?_⟩
        · have := hle hd
          simp
          omega
        · simpa using fun hz => hn ((hsum hd).mp hz x hx)
    · rintro ⟨hd,hl,-,hz⟩
      refine .inr ⟨ds,hd,hl,.inr ⟨rfl,?_⟩⟩
      by_contra hall
      push Not at hall
      exact hz (by simpa using (hsum hd).mpr hall)
  constructor
  · rintro (h | ⟨es,hd,hl,⟨h,hz⟩ | ⟨h,-⟩⟩)
    · cases h
    · cases h
      have := (hsum hd).mpr hz
      refine ⟨hd,hl,?_,?_⟩ <;> simp [this]
    · cases h
  · rintro ⟨hd,hl,hs,-⟩
    refine .inr ⟨ds,hd,hl,.inl ⟨rfl,(hsum hd).mp ?_⟩⟩
    have : (49 : UInt8).toNat = 49 := rfl
    omega

theorem upto_cons (u : List UInt8) : upTo (c::u) = if c = 44 ∨ c = 32 then [] else c::upTo u := by
  by_cases h44 : c = 44
  · simp [upTo, h44]
  by_cases h32 : c = 32
  · simp [upTo, h32]
  · simp [upTo, h44, h32]

theorem quantity_positive (u : List UInt8) :
    ∃ q, ngxHttpGzipQuantity (c::(u++[0])) = some q ∧ (q ≠ 0 ↔ Positive (upTo (c::u))) := by
  rw [ngxHttpGzipQuantity]
  by_cases hc : c = 48 ∨ c = 49
  · have hsep : ¬(c = 44 ∨ c = 32) := by
      rcases hc with rfl | rfl <;> decide
    have hn : ¬(c ≠ 48 ∧ c ≠ 49) := by tauto
    rw [if_neg hn, upto_cons, if_neg hsep]
    rcases u with _ | ⟨d,u⟩
    · exact ⟨_,by simp,(positive_alone c hc).symm⟩
    rw [upto_cons]
    simp only [List.cons_append, List.length_cons, List.length_append, List.length_nil]
    rw [if_neg (by omega)]
    by_cases hd : d = 44 ∨ d = 32
    · simp only [if_pos hd]
      exact ⟨_,rfl,(positive_alone c hc).symm⟩
    simp only [if_neg hd]
    by_cases hp : d = 46
    · subst hp
      have hpos := positive_pointed c (upTo u) hc
      simp only [ne_eq, not_true_eq_false, if_false]
      rcases digits_upto ((c.toNat-48)*100) 0 u with ⟨hall,hdigits⟩ | ⟨hall,hdigits⟩
      · simp only [hdigits]
        split_ifs with hb
        · exact ⟨_,rfl,by rw [hpos]; omega⟩
        · refine ⟨_,rfl,?_⟩
          rw [hpos]
          constructor
          · exact fun hq => ⟨hall,by omega,by omega,hq⟩
          · exact fun hq => hq.2.2.2
      · simp only [hdigits]
        exact ⟨_,rfl,by rw [hpos]; tauto⟩
    simp only [ne_eq, hp, not_false_eq_true, if_true]
    refine ⟨_,rfl,?_⟩
    constructor
    · exact fun h => absurd rfl h
    · rintro (h | ⟨es,-,-,⟨h,-⟩ | ⟨h,-⟩⟩)
      · cases h
      · exact absurd (List.cons.inj (List.cons.inj h).2).1 hp
      · exact absurd (List.cons.inj (List.cons.inj h).2).1 hp
  have hn : c ≠ 48 ∧ c ≠ 49 := by tauto
  rw [if_pos hn]
  refine ⟨0,rfl,?_⟩
  constructor
  · exact fun h => absurd rfl h
  · intro h
    rw [upto_cons] at h
    split_ifs at h with hs
    · rcases h with h | ⟨es,-,-,⟨h,-⟩ | ⟨h,-⟩⟩ <;> cases h
    · exact absurd (positive_digit c rfl h) hc

/-! ## Behind the word -/

variable (t : List UInt8)

theorem unspaced_cons : unspaced (c::t) = if c = 32 then unspaced t else c::t := by
  by_cases h : c = 32
  · simp [unspaced, h]
  · simp [unspaced, h]

theorem qualified_space : Qualified (32::t) ↔ Qualified t := by
  rw [Qualified, Qualified, unspaced_cons, if_pos rfl]

theorem followed_space : Followed (32::t) ↔ Followed t := by
  rw [Followed, Followed, unspaced_cons, if_pos rfl]

theorem equal_positive (k : UInt8) (hk : k = 113 ∨ k = 81) (t : List UInt8) :
    ∃ b, equal (t++[0]) = some b ∧ (b = true ↔ Qualified (k::t)) := by
  have hs : k ≠ 32 := by
    rcases hk with rfl | rfl <;> decide
  have hq : Qualified (k::t) ↔ ∃ u, t = 61::u ∧ Positive (upTo u) := by
    rw [Qualified, unspaced_cons, if_neg hs]
    constructor
    · rintro (h | ⟨k',u,h,-,hp⟩)
      · cases h
      · cases h
        exact ⟨u,rfl,hp⟩
    · rintro ⟨u,rfl,hp⟩
      exact .inr ⟨k,u,rfl,hk,hp⟩
  rw [hq]
  rcases t with _ | ⟨e,_ | ⟨c,u⟩⟩
  · exact ⟨false,rfl,by simp⟩
  · refine ⟨false,rfl,?_⟩
    constructor
    · exact fun h => absurd h (by decide)
    · rintro ⟨u,h,hp⟩
      cases h
      rcases hp with h | ⟨es,-,-,⟨h,-⟩ | ⟨h,-⟩⟩ <;> cases h
  simp only [List.cons_append, equal, List.length_cons, List.length_append, List.length_nil]
  rw [if_neg (by omega)]
  by_cases he : e = 61
  · obtain ⟨q,hrun,hpos⟩ := quantity_positive c u
    rw [if_neg (by simp [he]), hrun, he]
    refine ⟨_,rfl,?_⟩
    rw [decide_eq_true_iff, hpos]
    constructor
    · exact fun hp => ⟨_,rfl,hp⟩
    · rintro ⟨u',h,hp⟩
      cases h
      exact hp
  rw [if_pos he]
  refine ⟨false,rfl,?_⟩
  constructor
  · exact fun h => absurd h (by decide)
  · rintro ⟨u',h,-⟩
    exact absurd (List.cons.inj h).1 he

theorem quantity_qualified : ∃ b, quantity (t++[0]) = some b ∧ (b = true ↔ Qualified t) := by
  induction t with
  | nil => exact ⟨true,rfl,by simp [Qualified, unspaced]⟩
  | cons c t ih =>
    rw [List.cons_append, quantity, if_neg (by simp)]
    by_cases hk : c = 113 ∨ c = 81
    · rw [if_pos hk]
      exact equal_positive c hk t
    rw [if_neg hk]
    by_cases hs : c = 32
    · subst hs
      rw [if_pos rfl, qualified_space]
      exact ih
    rw [if_neg hs]
    refine ⟨false,rfl,?_⟩
    rw [Qualified, unspaced_cons, if_neg hs]
    constructor
    · exact fun h => absurd h (by decide)
    · rintro (h | ⟨k,u,h,hk',-⟩)
      · cases h
      · cases h
        exact absurd hk' hk

theorem after_followed (rest : List UInt8) :
    ∃ b, afterWord (rest++[0]) = some b ∧ (b = true ↔ Followed rest) := by
  induction rest with
  | nil => exact ⟨true,rfl,by simp [Followed, unspaced]⟩
  | cons c t ih =>
    rw [List.cons_append, afterWord, if_neg (by simp)]
    by_cases hs : c = 32
    · subst hs
      rw [followed_space]
      exact ih
    have hf : Followed (c::t) ↔ c = 44 ∨ c = 59 ∧ Qualified t := by
      rw [Followed, unspaced_cons, if_neg hs]
      constructor
      · rintro (h | ⟨c',t',h,hc⟩)
        · cases h
        · cases h
          exact hc
      · exact fun hc => .inr ⟨c,t,rfl,hc⟩
    rw [hf]
    by_cases h44 : c = 44
    · rw [if_pos h44]
      exact ⟨true,rfl,by simp [h44]⟩
    rw [if_neg h44]
    by_cases h59 : c = 59
    · rw [if_pos h59]
      obtain ⟨b,hrun,hb⟩ := quantity_qualified t
      exact ⟨b,hrun,by simp [hb, h59]⟩
    · rw [if_neg h59, if_neg hs]
      exact ⟨false,rfl,by simp [h44, h59]⟩

/-! ## The search -/

variable (s : List UInt8)

theorem strncasecmp_text (w : List UInt8) (hw : ∀ c ∈ w, ngxTolower c ≠ 0) :
    ngxStrncasecmp (s++[0]) w = some (decide (ngxStrlow (s.take w.length) = ngxStrlow w)) := by
  induction w generalizing s with
  | nil => simp [ngxStrncasecmp, ngxStrlow]
  | cons c2 w ih =>
    have hc2 := hw c2 (by simp)
    rcases s with _ | ⟨c1,s⟩
    · have hz : ngxTolower 0 ≠ ngxTolower c2 := fun h => hc2 (h ▸ rfl)
      simp [ngxStrncasecmp, hz, ngxStrlow]
    rw [List.cons_append, ngxStrncasecmp]
    by_cases he : ngxTolower c1 = ngxTolower c2
    · have hz : c1 ≠ 0 := by
        rintro rfl
        exact hc2 (he ▸ rfl)
      rw [if_pos he, if_pos hz, ih s fun c hc => hw c (by simp [hc])]
      simp [ngxStrlow, he]
    · rw [if_neg he]
      simp [ngxStrlow, he]

theorem gzip_length (h : IsGzip w) : w.length = 4 := by
  have := congrArg List.length h
  simpa [ngxStrlow] using this

theorem gzip_head :
    IsGzip ((c::s).take 4) ↔ ngxTolower c = 103 ∧ ngxStrlow (s.take 3) = [122,105,112] := by
  simp [IsGzip, ngxStrlow]

theorem gzip_split {s front word rest : List UInt8} (h : s = front++word++rest)
    (hw : IsGzip word) : IsGzip ((s.drop front.length).take 4) := by
  have hl := gzip_length hw
  rw [h, List.append_assoc, List.drop_left, ← hl, List.take_left]
  exact hw

theorem strcasestrn_step (b : Option UInt8) (c : UInt8) (s : List UInt8) (hc : c ≠ 0) :
    ngxStrcasestrn 103 [122,105,112] b (c::(s++[0])) =
      if IsGzip ((c::s).take 4) then some (some ⟨b,c::(s++[0])⟩)
      else ngxStrcasestrn 103 [122,105,112] (some c) (s++[0]) := by
  have hcmp := strncasecmp_text s [122,105,112] (by simp [ngxTolower])
  have hg := gzip_head c s
  rw [ngxStrcasestrn, if_neg hc]
  by_cases h1 : ngxTolower c = 103
  · rw [if_neg (by simp only [h1]; decide), hcmp]
    by_cases h2 : ngxStrlow (s.take 3) = [122,105,112]
    · rw [if_pos (hg.mpr ⟨h1,h2⟩)]
      simp only [List.length_cons, List.length_nil, Option.bind_some]
      rw [if_pos (by rw [decide_eq_true_iff]; exact h2)]
    rw [if_neg fun h => h2 (hg.mp h).2]
    simp only [List.length_cons, List.length_nil, Option.bind_some]
    rw [if_neg (by rw [decide_eq_true_iff]; exact h2)]
  · rw [if_pos (fun h => h1 (h.trans rfl)), if_neg fun h => h1 (hg.mp h).1]

theorem strcasestrn_text (b : Option UInt8) (s : List UInt8) :
    (ngxStrcasestrn 103 [122,105,112] b (s++[0]) = some none ∧
      ∀ f w r, s = f++w++r → IsGzip w → 0 ∈ f) ∨
    ∃ front word rest, s = front++word++rest ∧ IsGzip word ∧ 0 ∉ front ∧
      (∀ f w r, s = f++w++r → IsGzip w → front.length ≤ f.length) ∧
      ngxStrcasestrn 103 [122,105,112] b (s++[0]) =
        some (some ⟨front.getLast?.or b,word++rest++[0]⟩) := by
  induction s generalizing b with
  | nil =>
    refine .inl ⟨rfl,fun f w r h hw => ?_⟩
    have := gzip_length hw
    have := congrArg List.length h
    simp only [List.length_append, List.length_nil] at this
    omega
  | cons c s ih =>
    by_cases hc : c = 0
    · subst hc
      refine .inl ⟨rfl,fun f w r h hw => ?_⟩
      rcases f with _ | ⟨d,f⟩
      · have := (gzip_head 0 s).mp (gzip_split h hw)
        exact absurd this.1 (by decide)
      · rw [List.cons_append, List.cons_append, List.cons.injEq] at h
        simp [← h.1]
    rw [List.cons_append, strcasestrn_step b c s hc]
    by_cases hg : IsGzip ((c::s).take 4)
    · refine .inr ⟨[],(c::s).take 4,(c::s).drop 4,by simp,hg,by simp,by simp,?_⟩
      rw [if_pos hg, List.take_append_drop]
      rfl
    rw [if_neg hg]
    have hcut {f w r : List UInt8} (h : c::s = f++w++r) (hw : IsGzip w) :
        ∃ g, f = c::g ∧ s = g++w++r := by
      rcases f with _ | ⟨d,f⟩
      · exact absurd (gzip_split h hw) hg
      · rw [List.cons_append, List.cons_append, List.cons.injEq] at h
        exact ⟨f,by rw [h.1],h.2⟩
    rcases ih (some c) with ⟨hrun,hno⟩ | ⟨front,word,rest,ht,hw,h0,hleast,hrun⟩
    · refine .inl ⟨hrun,fun f w r h hw => ?_⟩
      obtain ⟨g,rfl,hs⟩ := hcut h hw
      exact List.mem_cons_of_mem c (hno g w r hs hw)
    refine .inr ⟨c::front,word,rest,by rw [ht]; rfl,hw,?_,?_,?_⟩
    · simpa [hc, eq_comm] using h0
    · intro f w r h hw'
      obtain ⟨g,rfl,hs⟩ := hcut h hw'
      have := hleast g w r hs hw'
      simp only [List.length_cons]
      omega
    · rw [hrun, List.getLast?_cons]
      cases front.getLast? <;> rfl

theorem gzip_apart {front word rest f w r : List UInt8} (h : front++word++rest = f++w++r)
    (hword : IsGzip word) (hw : IsGzip w) (hl : front.length < f.length) :
    ∃ g, f = front++word++g ∧ rest = g++w++r := by
  rw [List.append_assoc, List.append_assoc, List.append_eq_append_iff] at h
  rcases h with ⟨f',rfl,h⟩ | ⟨c,rfl,-⟩
  · rw [List.append_eq_append_iff] at h
    rcases h with ⟨g,rfl,h⟩ | ⟨c,rfl,h⟩
    · exact ⟨g,by simp,by rw [h, List.append_assoc]⟩
    rcases c with _ | ⟨x,c⟩
    · exact ⟨[],by simp,by simpa using h.symm⟩
    have hf : f' ≠ [] := by
      rintro rfl
      simp at hl
    -- the second word begins at the second, third or fourth byte of the first
    rcases w with _ | ⟨y,w⟩
    · exact absurd (gzip_length hw) (by simp)
    have hx : ngxTolower x = 103 := by
      rw [List.cons_append, List.cons_append, List.cons.injEq] at h
      rw [← h.1]
      simpa [IsGzip, ngxStrlow] using (List.cons.inj hw).1
    rcases f' with _ | ⟨a,_ | ⟨b,_ | ⟨d,_ | ⟨e,f'⟩⟩⟩⟩
    · exact absurd rfl hf
    all_goals simp [IsGzip, ngxStrlow, hx] at hword
  · rw [List.length_append] at hl
    omega

variable {word : List UInt8}

theorem gzip_last (h : IsGzip word) : word.getLast? ≠ some 44 ∧ word.getLast? ≠ some 32 := by
  have hl := congrArg List.getLast? h
  rw [ngxStrlow, List.getLast?_map] at hl
  constructor
  · intro he
    rw [he] at hl
    exact absurd hl (by decide)
  · intro he
    rw [he] at hl
    exact absurd hl (by decide)

theorem gzip_whole (h : IsGzip word) : 0 ∉ word := by
  intro h0
  have : ngxTolower 0 ∈ ngxStrlow word := List.mem_map_of_mem h0
  rw [h] at this
  exact absurd this (by decide)

theorem bounded_behind (front word : List UInt8) (h : IsGzip word) (g : List UInt8) :
    Bounded (front++word++g) ↔ g ≠ [] ∧ Bounded g := by
  have hne : word ≠ [] := by
    rintro rfl
    exact absurd (gzip_length h) (by simp)
  rcases g with _ | ⟨c,g⟩
  · have := gzip_last h
    simp [Bounded, hne, List.getLast?_append, this]
  · simp [Bounded, List.getLast?_append, List.getLast?_cons]

theorem not_again_behind {front word rest : List UInt8} (h : IsGzip word)
    (hn : NotAgain (front++word++rest)) : NotAgain rest := by
  intro f w w' r ht hw hw'
  by_cases hf : f = []
  · exact .inl hf
  · have := hn (front++word++f) w w' r (by rw [ht]; simp) hw hw'
    exact ((bounded_behind front word h f).mp this).2

section Behind
variable {s front word rest : List UInt8} (ht : s = front++word++rest) (hw : IsGzip word)
  (h0 : 0 ∉ front) (hleast : ∀ f w r, s = f++w++r → IsGzip w → front.length ≤ f.length)
  (hb : ¬Bounded front)
include ht hw hleast hb

theorem bounded_cut {f w r : List UInt8} (h : s = f++w++r) (hw' : IsGzip w) (hf : Bounded f) :
    ∃ g, f = front++word++g ∧ rest = g++w++r ∧ Bounded g := by
  have hle := hleast f w r h hw'
  have hne : front.length ≠ f.length := by
    intro he
    have hs : front++(word++rest) = f++(w++r) := by
      rw [← List.append_assoc, ← List.append_assoc, ← ht, h]
    exact hb ((List.append_inj hs he).1 ▸ hf)
  obtain ⟨g,rfl,hr⟩ := gzip_apart (ht.symm.trans h) hw hw' (by omega)
  exact ⟨g,rfl,hr,((bounded_behind front word hw g).mp hf).2⟩

include h0
theorem first_behind (hn : NotAgain s) {front' word' rest' : List UInt8}
    (hF : First rest front' word' rest') : First s (front++word++front') word' rest' := by
  have hne : front' ≠ [] := by
    rintro rfl
    exact hb (hn front word word' rest' (by rw [ht, hF.text]; simp) hw hF.word)
  refine ⟨?_,hF.word,(bounded_behind front word hw front').mpr ⟨hne,hF.bounded⟩,?_,?_⟩
  · rw [ht, hF.text]
    simp
  · simp only [List.mem_append, not_or]
    exact ⟨⟨h0,gzip_whole hw⟩,hF.whole⟩
  · intro f w r h hw' hf
    obtain ⟨g,rfl,hr,hg⟩ := bounded_cut ht hw hleast hb h hw' hf
    have := hF.least g w r hr hw' hg
    simp only [List.length_append]
    omega

end Behind

/-- The search ends, reads no more than the value and its terminator, and finds the first
word that stands where it may. -/
theorem search_first (fuel : ℕ) (b : Option UInt8) (s : List UInt8) (hf : s.length < fuel) :
    (searchWord fuel ⟨b,s++[0]⟩ = some none ∧
      (NotAgain s → ∀ f w r, s = f++w++r → IsGzip w → Bounded f → 0 ∈ f)) ∨
    ∃ front word rest q, searchWord fuel ⟨b,s++[0]⟩ = some (some q) ∧
      q.rest = rest++[0] ∧ (NotAgain s → First s front word rest) := by
  induction fuel generalizing b s with
  | zero => omega
  | succ fuel ih =>
    rw [searchWord]
    rcases strcasestrn_text b s with ⟨hrun,hno⟩ | ⟨front,word,rest,ht,hw,h0,hleast,hrun⟩
    · rw [hrun]
      exact .inl ⟨rfl,fun _ f w r h hw _ => hno f w r h hw⟩
    have hlen := gzip_length hw
    have hadd (b' : Option UInt8) :
        (Pointer.add ⟨b',word++rest++[0]⟩ 4).rest = rest++[0] := by
      change (word++rest++[0]).drop 4 = rest++[0]
      rw [List.append_assoc, ← hlen, List.drop_left]
    rw [hrun]
    simp only [Option.bind_some]
    by_cases hfront : front = []
    · subst hfront
      rw [if_pos (by simp [ht])]
      exact .inr ⟨[],word,rest,_,rfl,hadd _,
        fun _ => ⟨ht,hw,.inl rfl,h0,fun f w r h hw' _ => hleast f w r h hw'⟩⟩
    rw [if_neg (by simpa [ht] using hfront)]
    obtain ⟨c,hc⟩ : ∃ c, front.getLast? = some c := by
      cases h : front.getLast? with
      | none => exact absurd (List.getLast?_eq_none_iff.mp h) hfront
      | some c => exact ⟨c,rfl⟩
    simp only [hc, Option.some_or, Option.bind_some]
    by_cases hsep : c = 44 ∨ c = 32
    · rw [if_pos hsep]
      have hb : Bounded front := .inr (by rw [hc]; simpa using hsep)
      exact .inr ⟨front,word,rest,_,rfl,hadd _,
        fun _ => ⟨ht,hw,hb,h0,fun f w r h hw' _ => hleast f w r h hw'⟩⟩
    rw [if_neg hsep]
    have hb : ¬Bounded front := by
      rintro (h | h | h)
      · exact hfront h
      · exact hsep (.inl (Option.some.inj (hc.symm.trans h)))
      · exact hsep (.inr (Option.some.inj (hc.symm.trans h)))
    have hp : Pointer.add ⟨some c,word++rest++[0]⟩ 4 =
        ⟨(Pointer.add ⟨some c,word++rest++[0]⟩ 4).back,rest++[0]⟩ := by
      rw [← hadd (some c)]
    rw [hp]
    have hshort : rest.length < fuel := by
      have := congrArg List.length ht
      simp only [List.length_append] at this
      omega
    rcases ih _ rest hshort with ⟨hend,hno⟩ | ⟨front',word',rest',q,hend,hq,hfirst⟩
    · refine .inl ⟨hend,fun hn f w r h hw' hf => ?_⟩
      obtain ⟨g,rfl,hr,hg⟩ := bounded_cut ht hw hleast hb h hw' hf
      have := hno (not_again_behind hw (ht ▸ hn)) g w r hr hw' hg
      exact List.mem_append_right _ this
    · exact .inr ⟨front++word++front',word',rest',q,hend,hq,fun hn =>
        first_behind ht hw h0 hleast hb hn (hfirst (not_again_behind hw (ht ▸ hn)))⟩

theorem first_rest {v front word rest front' word' rest' : List UInt8}
    (h : First v front word rest) (h' : First v front' word' rest') : rest = rest' := by
  have hl : front.length = front'.length :=
    le_antisymm (h.least _ _ _ h'.text h'.word h'.bounded)
      (h'.least _ _ _ h.text h.word h.bounded)
  have hw : word.length = word'.length := by
    rw [gzip_length h.word, gzip_length h'.word]
  have he := h.text.symm.trans h'.text
  rw [List.append_assoc, List.append_assoc] at he
  exact (List.append_inj (List.append_inj he hl).2 hw).2

theorem accept_encoding (v : List UInt8) :
    ∃ b, ngxHttpGzipAcceptEncoding v = some b ∧ (NotAgain v → (b = true ↔ Accepted v)) := by
  rw [ngxHttpGzipAcceptEncoding]
  rcases search_first (v.length+1) none v (by omega) with
    ⟨hrun,hno⟩ | ⟨front,word,rest,q,hrun,hq,hfirst⟩
  · rw [hrun]
    refine ⟨false,rfl,fun hn => ?_⟩
    constructor
    · exact fun h => absurd h (by decide)
    · rintro ⟨front,word,rest,hF,-⟩
      exact absurd (hno hn front word rest hF.text hF.word hF.bounded) hF.whole
  obtain ⟨b,hafter,hb⟩ := after_followed rest
  rw [hrun]
  refine ⟨b,by simp only [Option.bind_some, hq, hafter],fun hn => ?_⟩
  rw [hb]
  constructor
  · exact fun h => ⟨front,word,rest,hfirst hn,h⟩
  · rintro ⟨front',word',rest',hF,h⟩
    rw [first_rest (hfirst hn) hF]
    exact h

theorem shortcut_accepted (rest : List UInt8) : Accepted ([103,122,105,112,44]++rest) := by
  refine ⟨[],[103,122,105,112],44::rest,
    ⟨rfl,rfl,.inl rfl,by simp,fun f w r _ _ _ => Nat.zero_le _⟩,.inr ⟨44,rest,?_,.inl rfl⟩⟩
  rw [unspaced_cons, if_neg (by decide)]

/-- The test of the header: it reads no byte behind the terminator, and what it accepts is
told by what stands behind the first word. -/
theorem gzip_accepted (v : List UInt8) (hv : 4 ≤ v.length) :
    (∃ b, gzipAccepted v = some b) ∧
      (NotAgain v → (gzipAccepted v = some true ↔ Accepted v)) := by
  have hcmp : ngxMemcmp (v++[0]) [103,122,105,112,44] =
      some (decide ((v++[0]).take 5 = [103,122,105,112,44])) := by
    rw [ngxMemcmp, if_neg (by simp; omega)]
    rfl
  rw [gzipAccepted, if_neg (by omega), hcmp, Option.bind_some]
  by_cases hs : (v++[0]).take 5 = [103,122,105,112,44]
  · rw [if_pos (by simpa using hs)]
    refine ⟨⟨true,rfl⟩,fun _ => ⟨fun _ => ?_,fun _ => rfl⟩⟩
    by_cases hv4 : v.length = 4
    · have := congrArg List.getLast? hs
      rw [List.take_of_length_le (by simp [hv4])] at this
      simp at this
    rw [List.take_append_of_le_length (by omega)] at hs
    rw [← List.take_append_drop 5 v, hs]
    exact shortcut_accepted _
  rw [if_neg (by simpa using hs)]
  obtain ⟨b,hrun,hb⟩ := accept_encoding v
  rw [hrun]
  exact ⟨⟨b,rfl⟩,fun hn => by rw [← hb hn, Option.some.injEq]⟩

theorem not_again_short {v : List UInt8} (h : v.length < 8) : NotAgain v := by
  intro f w w' r ht hw hw'
  have := congrArg List.length ht
  simp only [List.length_append, gzip_length hw, gzip_length hw'] at this
  omega

/-- `a, GZIP` -/
theorem gzip_accepted_upper :
    (∃ b, gzipAccepted [97,44,32,71,90,73,80] = some b) ∧
      (gzipAccepted [97,44,32,71,90,73,80] = some true ↔
        Accepted [97,44,32,71,90,73,80]) :=
  have h := gzip_accepted [97,44,32,71,90,73,80] (by decide)
  ⟨h.1,h.2 (not_again_short (by decide))⟩

/-- `gzipx,gzip`: the second element is the token, and the search ends in the first. -/
theorem gzip_missed :
    gzipAccepted [103,122,105,112,120,44,103,122,105,112] = some false ∧
      ∃ e ∈ [103,122,105,112,120,44,103,122,105,112].splitOn 44, Element e :=
  ⟨by decide,[103,122,105,112],by decide,
    [],[103,122,105,112],[],rfl,by simp [Spaces],rfl,.inl (by simp [Spaces])⟩

end Nginx.GzipAcceptLaw
