import Nginx.RangeParse

/-!
# The bounds of the ranges

The loop goes through the items of the grammar one by one, and what it stores
are their ranges with the numbers reduced to `off_t`. No range ends behind the
content. The bounds hold when no first position is reduced to a negative one and
the lengths do not overflow in all, and otherwise only for what is refused.
-/

set_option autoImplicit false

namespace Nginx.RangeParseLaw
open Nginx.OffT Nginx.RangeParse

/-! ## Spaces and numbers -/

theorem skip_append (a p : List UInt8) (ha : Spaces a) (hp : head p ≠ 32) :
    skipSpaces (a++p) = p := by
  induction a with
  | nil =>
    rcases p with _ | ⟨c,p⟩
    · rfl
    · simp [skipSpaces, show c ≠ 32 from hp]
  | cons c a ih =>
    have hc : c = 32 := ha c (by simp)
    subst hc
    exact ih fun d hd => ha d (by simp [hd])

theorem skip_split (p : List UInt8) :
    ∃ a, Spaces a ∧ p = a++skipSpaces p ∧ head (skipSpaces p) ≠ 32 := by
  induction p with
  | nil => exact ⟨[],fun c hc => (by cases hc),rfl,by decide⟩
  | cons c p ih =>
    by_cases hc : c = 32
    · subst hc
      obtain ⟨a,ha,hp,hh⟩ := ih
      refine ⟨32::a,?_,congrArg (32::·) hp,hh⟩
      intro d hd
      rcases List.mem_cons.mp hd with rfl | hd
      · rfl
      · exact ha d hd
    have hs : skipSpaces (c::p) = c::p := by simp [skipSpaces, hc]
    rw [hs]
    exact ⟨[],fun d hd => (by cases hd),rfl,hc⟩

theorem zero_plain : ¬IsDigit 0 := by decide

theorem digit_head {p : List UInt8} (h : IsDigit (head p)) :
    head p ≠ 32 ∧ head p ≠ 44 ∧ head p ≠ 45 ∧ head p ≠ 0 := by
  generalize head p = c at h
  refine ⟨?_,?_,?_,?_⟩
  all_goals
    rintro rfl
    exact absurd h (by decide)

theorem dash_plain (p : List UInt8) : ¬IsDigit (head (45::p)) :=
  fun h => (digit_head h).2.2.1 rfl

theorem dash_tight (p : List UInt8) : head (45::p) ≠ 32 := by
  change (45 : UInt8) ≠ 32
  decide

def decimalFrom (v : ℤ) (s : List UInt8) : ℤ := s.foldl (fun v c => v*10+c.toNat-48) v

theorem decimal_from (v : ℕ) (s : List UInt8) (hs : ∀ c ∈ s, IsDigit c) :
    decimalFrom v s = s.foldl (fun v c => v*10+(c.toNat-48)) v := by
  induction s generalizing v with
  | nil => rfl
  | cons c s ih =>
    have hc : 48 ≤ c.toNat := UInt8.le_iff_toNat_le.mp (hs c (by simp)).1
    have hv : (v : ℤ)*10+c.toNat-48 = ((v*10+(c.toNat-48) : ℕ) : ℤ) := by omega
    rw [List.foldl_cons, ← ih _ fun d hd => hs d (by simp [hd]), ← hv]
    rfl

theorem decimal_zero (s : List UInt8) (hs : ∀ c ∈ s, IsDigit c) : decimalFrom 0 s = decimal s :=
  decimal_from 0 s hs

theorem number_append (v : ℤ) (ds p : List UInt8) (hd : ∀ c ∈ ds, IsDigit c)
    (hp : ¬IsDigit (head p)) : number (offT v) (ds++p) = (offT (decimalFrom v ds), p) := by
  induction ds generalizing v with
  | nil =>
    rcases p with _ | ⟨c,p⟩
    · rfl
    · rw [List.nil_append, number, if_neg (show ¬IsDigit c from hp)]
      rfl
  | cons c ds ih =>
    rw [List.cons_append, number, if_pos (hd c (by simp))]
    have hv : offT (offT v*10+c.toNat-48) = offT (v*10+c.toNat-48) := by
      have h10 : offT (offT v*10) = offT (v*10) := by
        rw [mul_comm, off_mul_off, mul_comm]
      rw [add_sub_assoc, add_sub_assoc, ← off_off_add, h10, off_off_add]
    rw [hv, ih _ fun d h => hd d (by simp [h])]
    rfl

theorem number_split (v : ℤ) (p : List UInt8) :
    ∃ ds, (∀ c ∈ ds, IsDigit c) ∧ p = ds++(number v p).2 ∧ ¬IsDigit (head (number v p).2) := by
  induction p generalizing v with
  | nil => exact ⟨[],fun c hc => (by cases hc),rfl,zero_plain⟩
  | cons c p ih =>
    rw [number]
    by_cases hc : IsDigit c
    · rw [if_pos hc]
      obtain ⟨ds,hd,hp,hh⟩ := ih (offT (v*10+c.toNat-48))
      refine ⟨c::ds,?_,congrArg (c::·) hp,hh⟩
      intro d h
      rcases List.mem_cons.mp h with rfl | h
      · exact hc
      · exact hd d h
    · rw [if_neg hc]
      exact ⟨[],fun d hd => (by cases hd),rfl,hc⟩

theorem number_decimal (ds p : List UInt8) (hd : Digits ds) (hp : ¬IsDigit (head p)) :
    number 0 (ds++p) = (offT (decimal ds), p) := by
  have h := number_append 0 ds p hd.2 hp
  rw [decimal_zero ds hd.2] at h
  exact h

theorem number_read (p : List UInt8) (h : IsDigit (head p)) :
    ∃ ds, Digits ds ∧ p = ds++(number 0 p).2 ∧ (number 0 p).1 = offT (decimal ds) ∧
      ¬IsDigit (head (number 0 p).2) := by
  obtain ⟨ds,hd,hp,hh⟩ := number_split 0 p
  have hne : ds ≠ [] := by
    rintro rfl
    rw [List.nil_append] at hp
    exact hh (hp ▸ h)
  refine ⟨ds,⟨hne,hd⟩,hp,?_,hh⟩
  have := number_decimal ds (number 0 p).2 ⟨hne,hd⟩ hh
  rw [← hp] at this
  rw [this]

theorem head_digits (ds p : List UInt8) (hd : Digits ds) : IsDigit (head (ds++p)) := by
  rcases ds with _ | ⟨c,ds⟩
  · exact absurd rfl hd.1
  · exact hd.2 c (by simp)

/-! ## Items -/

def Separated (p : List UInt8) : Prop := head p = 44 ∨ head p = 0

theorem separated_plain {p : List UInt8} (h : Separated p) : head p ≠ 32 ∧ ¬IsDigit (head p) := by
  rcases h with h | h
  · rw [h]
    decide
  · rw [h]
    decide

theorem spaces_plain (d p : List UInt8) (hd : Spaces d) (hp : ¬IsDigit (head p)) :
    ¬IsDigit (head (d++p)) := by
  rcases d with _ | ⟨c,d⟩
  · exact hp
  · intro h
    exact (digit_head h).1 (hd c (by simp))

def ended (L start : ℤ) (suffix : Bool) (m : ℕ) : ℤ × ℤ :=
  (if suffix then offT (L-m) else start,
    if suffix then L else lastBound L (offT m))

section Items
variable {L : ℤ} (h0 : 0 ≤ L) (hL : L < 2^63)
include h0 hL

theorem last_bound (z : ℤ) :
    (if L ≤ offT z then L else offT (offT z+1)) = lastBound L (offT z) := by
  rw [lastBound]
  split_ifs with h
  · rfl
  · have := off_range z
    rw [off_eq (by omega) (by omega)]

theorem ended_bound (suffix : Bool) (m : ℕ) :
    (if L ≤ (if suffix then offT (L-1) else offT m) then L
      else offT ((if suffix then offT (L-1) else offT m)+1)) =
      if suffix then L else lastBound L (offT m) := by
  cases suffix
  · simpa using last_bound h0 hL m
  · have : offT (L-1) = L-1 := off_eq (by omega) (by omega)
    simp only [if_true, this]
    rw [if_neg (by omega), off_eq (by omega) (by omega)]
    omega

theorem item_end_written (start : ℤ) (suffix : Bool) (es d p : List UInt8) (he : Digits es)
    (hd : Spaces d) (hp : Separated p) :
    itemEnd L start suffix (es++d++p) = some (ended L start suffix (decimal es), p) := by
  have hplain := separated_plain hp
  have hn : ¬(head p ≠ 44 ∧ head p ≠ 0) := by
    rw [not_and_or, not_not, not_not]
    exact hp
  rw [itemEnd, List.append_assoc, if_neg (not_not.mpr (head_digits es _ he)),
    number_decimal es _ he (spaces_plain d p hd hplain.2)]
  simp only [skip_append d p hd hplain.1, if_neg hn, ended_bound h0 hL, off_sub_off, ended]

theorem item_end_split (start : ℤ) (suffix : Bool) (p p' : List UInt8) (r : ℤ × ℤ)
    (h : itemEnd L start suffix p = some (r, p')) :
    ∃ es d, Digits es ∧ Spaces d ∧ p = es++d++p' ∧ Separated p' ∧
      r = ended L start suffix (decimal es) := by
  by_cases h1 : IsDigit (head p)
  · obtain ⟨es,he,hp,-,-⟩ := number_read p h1
    obtain ⟨d,hd,hs,-⟩ := skip_split (number 0 p).2
    by_cases h2 : Separated (skipSpaces (number 0 p).2)
    · have hall : p = es++d++skipSpaces (number 0 p).2 := by
        rw [List.append_assoc, ← hs, ← hp]
      rw [hall, item_end_written h0 hL start suffix es d _ he hd h2] at h
      cases h
      exact ⟨es,d,he,hd,hall,h2,rfl⟩
    have hn : head (skipSpaces (number 0 p).2) ≠ 44 ∧ head (skipSpaces (number 0 p).2) ≠ 0 :=
      not_or.mp h2
    simp only [itemEnd, not_not.mpr h1, if_false, if_pos hn] at h
    cases h
  · rw [itemEnd, if_pos h1] at h
    cases h

omit h0 hL in
theorem item_number (a ds b q : List UInt8) (ha : Spaces a) (hd : Digits ds) (hb : Spaces b) :
    item L (a++ds++b++45::q) =
      if head (skipSpaces q) = 44 ∨ head (skipSpaces q) = 0 then
        some ((offT (decimal ds), L), skipSpaces q)
      else itemEnd L (offT (decimal ds)) false (skipSpaces q) := by
  have hdig := head_digits ds (b++45::q) hd
  have hne := digit_head hdig
  have hskip : skipSpaces (a++ds++b++45::q) = ds++(b++45::q) := by
    rw [List.append_assoc, List.append_assoc]
    exact skip_append a _ ha hne.1
  have hnum := number_decimal ds (b++45::q) hd (spaces_plain b _ hb (dash_plain q))
  have hdash := skip_append b (45::q) hb (dash_tight q)
  rw [item, hskip]
  simp only [if_pos hne.2.2.1, not_not.mpr hdig, if_false, hnum, hdash]
  rfl

omit h0 hL in
theorem item_dash (a q : List UInt8) (ha : Spaces a) :
    item L (a++45::q) = itemEnd L 0 true q := by
  rw [item, skip_append a _ ha (dash_tight q)]
  rfl

theorem item_written (w p : List UInt8) (i : Item) (h : Written w i) (hp : Separated p) :
    item L (w++p) = some (bounds L i, p) := by
  have hplain := separated_plain hp
  rcases h with ⟨a,ds,b,c,ha,hd,hb,hc⟩ | ⟨a,ds,b,c,es,d,ha,hd,hb,hc,he,hs⟩ |
    ⟨a,es,d,ha,he,hs⟩
  · rw [List.append_assoc, List.cons_append, item_number a ds b (c++p) ha hd hb,
      skip_append c p hc hplain.1]
    exact if_pos hp
  · have hdig := digit_head (head_digits es (d++p) he)
    rw [← List.append_assoc] at hdig
    have hall : a++ds++b++45::(c++es++d)++p = a++ds++b++45::(c++(es++d++p)) := by simp
    rw [hall, item_number a ds b _ ha hd hb, skip_append c _ hc hdig.1,
      if_neg (not_or.mpr ⟨hdig.2.1,hdig.2.2.2⟩), item_end_written h0 hL _ false es d p he hs hp]
    simp only [ended, bounds, Bool.false_eq_true, if_false]
  rw [List.append_assoc, List.cons_append, item_dash a _ ha,
    item_end_written h0 hL 0 true es d p he hs hp]
  rfl

theorem item_split (p p' : List UInt8) (r : ℤ × ℤ) (h : item L p = some (r, p')) :
    ∃ w i, p = w++p' ∧ Written w i ∧ Separated p' ∧ r = bounds L i := by
  obtain ⟨a,ha,hp,-⟩ := skip_split p
  by_cases h45 : head (skipSpaces p) = 45
  · rcases hs : skipSpaces p with _ | ⟨c,q⟩
    · rw [hs] at h45
      exact absurd h45 (by decide)
    have hc : c = 45 := by
      rw [hs] at h45
      exact h45
    subst hc
    rw [hs] at hp
    rw [hp, item_dash a q ha] at h
    obtain ⟨es,d,he,hd,rfl,hsep,rfl⟩ := item_end_split h0 hL 0 true q p' r h
    exact ⟨a++45::(es++d),.suffix (decimal es),by rw [hp]; simp,.suffix a es d ha he hd,hsep,
      rfl⟩
  by_cases hdig : IsDigit (head (skipSpaces p))
  · obtain ⟨ds,hd,hq,-,-⟩ := number_read _ hdig
    obtain ⟨b,hb,hq',-⟩ := skip_split (number 0 (skipSpaces p)).2
    rcases hs : skipSpaces (number 0 (skipSpaces p)).2 with _ | ⟨c,q⟩
    · simp only [item, if_pos h45, not_not.mpr hdig, if_false, hs] at h
      exact absurd h (by simp [head])
    by_cases hc : c = 45
    · subst hc
      have hskip : skipSpaces p = ds++(b++45::q) :=
        hq.trans (congrArg (ds++·) (hq'.trans (congrArg (b++·) hs)))
      have hall : p = a++ds++b++45::q := by
        rw [List.append_assoc, List.append_assoc, ← hskip, ← hp]
      rw [hall, item_number a ds b q ha hd hb] at h
      obtain ⟨c,hc,hqc,-⟩ := skip_split q
      generalize skipSpaces q = q' at h hqc
      subst hqc
      split_ifs at h with hsep
      · obtain ⟨rfl,rfl⟩ := Prod.mk.inj (Option.some.inj h)
        exact ⟨a++ds++b++45::c,.first (decimal ds),hall.trans (by simp),
          .first a ds b c ha hd hb hc,hsep,rfl⟩
      · obtain ⟨es,d,he,hd',rfl,hsep',rfl⟩ := item_end_split h0 hL _ false q' p' r h
        exact ⟨a++ds++b++45::(c++es++d),.span (decimal ds) (decimal es),
          hall.trans (by simp),.span a ds b c es d ha hd hb hc he hd',hsep',
          by simp only [ended, bounds, Bool.false_eq_true, if_false]⟩
    simp only [item, if_pos h45, not_not.mpr hdig, if_false, hs] at h
    rw [if_pos (show head (c::q) ≠ 45 from hc)] at h
    cases h
  · simp only [item, if_pos h45, if_pos hdig] at h
    cases h

/-! ## The list -/

omit h0 hL in
/-- The items behind one that ends at `p` -/
def Rest (p : List UInt8) (is : List Item) : Prop :=
  head p = 0 ∧ is = [] ∨ head p = 44 ∧ Listed p.tail is

theorem listed_item (p : List UInt8) (is : List Item) (h : Listed p is) :
    ∃ i js p', is = i::js ∧ item L p = some (bounds L i, p') ∧ Rest p' js := by
  rcases h with ⟨w,rest,i,hw,hr⟩ | ⟨w,t,i,js,hw,ht⟩
  · exact ⟨i,[],rest,rfl,item_written h0 hL w rest i hw (.inr hr),.inl ⟨hr,rfl⟩⟩
  · exact ⟨i,js,44::t,rfl,item_written h0 hL w _ i hw (.inl rfl),.inr ⟨rfl,ht⟩⟩

theorem item_listed (p p' : List UInt8) (r : ℤ × ℤ) (h : item L p = some (r, p')) :
    ∃ i, r = bounds L i ∧ Separated p' ∧ p'.length < p.length ∧
      ∀ is, Rest p' is → Listed p (i::is) := by
  obtain ⟨w,i,rfl,hw,hsep,rfl⟩ := item_split h0 hL p p' r h
  refine ⟨i,rfl,hsep,?_,fun is hr => ?_⟩
  · have : 0 < w.length := by
      rcases hw with ⟨a,ds,b,c,-⟩ | ⟨a,ds,b,c,es,d,-⟩ | ⟨a,es,d,-⟩
      all_goals
        simp only [List.length_append, List.length_cons]
        omega
    rw [List.length_append]
    omega
  · rcases hr with ⟨hz,rfl⟩ | ⟨hc,his⟩
    · exact .last w p' i hw hz
    rcases p' with _ | ⟨c,t⟩
    · exact absurd hc (by decide)
    have hc' : c = 44 := hc
    subst hc'
    exact .more w t i is hw his

end Items

section Loop
variable {L : ℤ}

theorem kept_cons (i : Item) (is : List Item) : kept L (i::is) =
    if (bounds L i).1 < (bounds L i).2 then bounds L i::kept L is else kept L is := by
  rw [kept, List.map_cons, List.filter_cons]
  simp only [decide_eq_true_eq]
  rfl

theorem finish_ok (size : ℤ) (stored : List (ℤ × ℤ)) :
    finish L size stored = .ok ↔ stored ≠ [] ∧ size ≤ L := by
  rw [finish]
  split_ifs with h1 h2
  · simp [h1]
  · simp [h2]
  · exact ⟨fun _ => ⟨h1,not_lt.mp h2⟩,fun _ => rfl⟩

def Served (L : ℤ) (ranges pushes : ℕ) (stored : List (ℤ × ℤ)) (s : ℤ) (is : List Item)
    (out : List (ℤ × ℤ)) : Prop :=
  out = stored++kept L is ∧ (kept L is).length ≤ ranges ∧ (kept L is).length ≤ pushes ∧
    out ≠ [] ∧ offT (s+total (kept L is)) ≤ L

theorem loop_item (fuel ranges pushes : ℕ) (stored : List (ℤ × ℤ)) (s : ℤ) (p p' : List UInt8)
    (r : ℤ × ℤ) (h : item L p = some (r, p')) :
    loop L (fuel+1) ranges pushes stored (offT s) p =
      if r.1 < r.2 then
        if pushes = 0 then some (.error, stored)
        else if ranges = 0 then some (.declined, stored++[r])
        else if head p' = 44 then
          loop L fuel (ranges-1) (pushes-1) (stored++[r]) (offT (s+(r.2-r.1))) p'.tail
        else some (finish L (offT (s+(r.2-r.1))) (stored++[r]), stored++[r])
      else if head p' = 44 then loop L fuel ranges pushes stored (offT s) p'.tail
      else some (finish L (offT s) stored, stored) := by
  rw [loop, h]
  rcases pushes with _ | k
  · simp only [if_true]
  · simp only [off_off_add, Nat.add_sub_cancel, Nat.succ_ne_zero, if_false]

theorem served_nil (ranges pushes : ℕ) (stored : List (ℤ × ℤ)) (s : ℤ) (out : List (ℤ × ℤ)) :
    Served L ranges pushes stored s [] out ↔ out = stored ∧ finish L (offT s) stored = .ok := by
  rw [finish_ok]
  simp only [Served, kept, List.map_nil, List.filter_nil, total, List.sum_nil, add_zero,
    List.append_nil, List.length_nil]
  constructor
  · rintro ⟨rfl,-,-,h3,h4⟩
    exact ⟨rfl,h3,h4⟩
  · rintro ⟨rfl,h3,h4⟩
    exact ⟨rfl,by omega,by omega,h3,h4⟩

theorem served_cons (ranges pushes : ℕ) (stored : List (ℤ × ℤ)) (s : ℤ) (i : Item)
    (is : List Item) (out : List (ℤ × ℤ)) : Served L ranges pushes stored s (i::is) out ↔
    if (bounds L i).1 < (bounds L i).2 then
      ranges ≠ 0 ∧ pushes ≠ 0 ∧ Served L (ranges-1) (pushes-1) (stored++[bounds L i])
        (s+((bounds L i).2-(bounds L i).1)) is out
    else Served L ranges pushes stored s is out := by
  rw [Served, kept_cons]
  split_ifs with h
  · simp only [Served, total, List.map_cons, List.sum_cons, List.length_cons, List.append_assoc,
      List.singleton_append, add_assoc]
    constructor
    · rintro ⟨rfl,h1,h2,h3,h4⟩
      exact ⟨by omega,by omega,rfl,by omega,by omega,h3,h4⟩
    · rintro ⟨h1,h2,rfl,h3,h4,h5,h6⟩
      exact ⟨rfl,by omega,by omega,h5,h6⟩
  · rfl

/-- A result that is good just when some of the lists is served, and then what that list is
served -/
def Answers (L : ℤ) (ranges pushes : ℕ) (stored : List (ℤ × ℤ)) (s : ℤ)
    (lists : List Item → Prop) (result : Option (Rc × List (ℤ × ℤ))) : Prop :=
  ∃ rc out, result = some (rc, out) ∧
    (rc = .ok → ∃ is, lists is ∧ Served L ranges pushes stored s is out) ∧
    ∀ is out', lists is → Served L ranges pushes stored s is out' → rc = .ok ∧ out = out'

theorem answers_rest (fuel ranges pushes : ℕ) (stored : List (ℤ × ℤ)) (s : ℤ) (p : List UInt8)
    (hp : Separated p) (ih : Answers L ranges pushes stored s (Listed p.tail)
      (loop L fuel ranges pushes stored (offT s) p.tail)) :
    Answers L ranges pushes stored s (Rest p)
      (if head p = 44 then loop L fuel ranges pushes stored (offT s) p.tail
        else some (finish L (offT s) stored, stored)) := by
  by_cases hc : head p = 44
  · rw [if_pos hc]
    obtain ⟨rc,out,hrun,hok,hall⟩ := ih
    refine ⟨rc,out,hrun,fun h => ?_,fun is out' hr hs => ?_⟩
    · obtain ⟨is,hl,hs⟩ := hok h
      exact ⟨is,.inr ⟨hc,hl⟩,hs⟩
    · rcases hr with ⟨hz,-⟩ | ⟨-,hl⟩
      · rw [hc] at hz
        exact absurd hz (by decide)
      · exact hall is out' hl hs
  rw [if_neg hc]
  refine ⟨_,_,rfl,fun h => ?_,fun is out' hr hs => ?_⟩
  · exact ⟨[],.inl ⟨hp.resolve_left hc,rfl⟩,(served_nil ranges pushes stored s stored).mpr ⟨rfl,h⟩⟩
  · rcases hr with ⟨-,rfl⟩ | ⟨h,-⟩
    · obtain ⟨rfl,hfin⟩ := (served_nil ranges pushes stored s out').mp hs
      exact ⟨hfin,rfl⟩
    · exact absurd h hc

theorem loop_answers (h0 : 0 ≤ L) (hL : L < 2^63) (fuel ranges pushes : ℕ)
    (stored : List (ℤ × ℤ)) (s : ℤ) (p : List UInt8) (hf : p.length < fuel) :
    Answers L ranges pushes stored s (Listed p)
      (loop L fuel ranges pushes stored (offT s) p) := by
  induction fuel generalizing ranges pushes stored s p with
  | zero => omega
  | succ fuel ih =>
    rcases hitem : item L p with _ | ⟨r,p'⟩
    · refine ⟨.notSatisfiable,stored,by rw [loop, hitem],fun h => (by cases h),
        fun is out' h => ?_⟩
      obtain ⟨i,js,p',-,hi,-⟩ := listed_item h0 hL p is h
      rw [hitem] at hi
      cases hi
    rw [loop_item fuel ranges pushes stored s p p' r hitem]
    obtain ⟨i,rfl,hsep,hlen,hmore⟩ := item_listed h0 hL p p' r hitem
    have hrest {is : List Item} (h : Listed p is) :
        ∃ j js, is = j::js ∧ bounds L j = bounds L i ∧ Rest p' js := by
      obtain ⟨j,js,q,rfl,hj,hq⟩ := listed_item h0 hL p is h
      obtain ⟨hb,rfl⟩ := Prod.mk.inj (Option.some.inj (hj.symm.trans hitem))
      exact ⟨j,js,rfl,hb,hq⟩
    have hlen' : p'.tail.length < fuel := by
      rw [List.length_tail]
      omega
    -- the item is kept or not, and then the rest is served
    by_cases hk : (bounds L i).1 < (bounds L i).2
    · simp only [if_pos hk]
      have hserved {is : List Item} {out : List (ℤ × ℤ)} (h : Listed p is)
          (hs : Served L ranges pushes stored s is out) :
          ranges ≠ 0 ∧ pushes ≠ 0 ∧ ∃ js, Rest p' js ∧ Served L (ranges-1) (pushes-1)
            (stored++[bounds L i]) (s+((bounds L i).2-(bounds L i).1)) js out := by
        obtain ⟨j,js,rfl,hb,hr⟩ := hrest h
        rw [served_cons, hb, if_pos hk] at hs
        exact ⟨hs.1,hs.2.1,js,hr,hs.2.2⟩
      by_cases hp0 : pushes = 0
      · rw [if_pos hp0]
        exact ⟨_,_,rfl,fun h => (by cases h),fun is out' h hs => absurd hp0 (hserved h hs).2.1⟩
      by_cases hr0 : ranges = 0
      · rw [if_neg hp0, if_pos hr0]
        exact ⟨_,_,rfl,fun h => (by cases h),fun is out' h hs => absurd hr0 (hserved h hs).1⟩
      rw [if_neg hp0, if_neg hr0]
      obtain ⟨rc,out,hrun,hok,hall⟩ := answers_rest fuel (ranges-1) (pushes-1)
        (stored++[bounds L i]) (s+((bounds L i).2-(bounds L i).1)) p' hsep (ih _ _ _ _ _ hlen')
      refine ⟨rc,out,hrun,fun h => ?_,fun is out' h hs => ?_⟩
      · obtain ⟨js,hr,hs⟩ := hok h
        refine ⟨i::js,hmore js hr,?_⟩
        rw [served_cons, if_pos hk]
        exact ⟨hr0,hp0,hs⟩
      · obtain ⟨-,-,js,hr,hs'⟩ := hserved h hs
        exact hall js out' hr hs'
    simp only [if_neg hk]
    obtain ⟨rc,out,hrun,hok,hall⟩ := answers_rest fuel ranges pushes stored s p' hsep
      (ih _ _ _ _ _ hlen')
    refine ⟨rc,out,hrun,fun h => ?_,fun is out' h hs => ?_⟩
    · obtain ⟨js,hr,hs⟩ := hok h
      refine ⟨i::js,hmore js hr,?_⟩
      rw [served_cons, if_neg hk]
      exact hs
    · obtain ⟨j,js,rfl,hb,hr⟩ := hrest h
      rw [served_cons, hb, if_neg hk] at hs
      exact hall js out' hr hs

end Loop

/-! ## The bounds -/

theorem bounds_end (L : ℤ) (i : Item) : (bounds L i).2 ≤ L := by
  have hlast (z : ℤ) : lastBound L z ≤ L := by
    rw [lastBound]
    split_ifs <;> omega
  rcases i with n | ⟨n,m⟩ | n
  · simp only [bounds, le_refl]
  · simp only [bounds, hlast]
  · simp only [bounds, le_refl]

theorem negative_iff (L : ℤ) (i : Item) : Negative L i ↔ (bounds L i).1 < 0 := by
  have hneg (z : ℤ) : 2^63 ≤ z%2^64 ↔ offT z < 0 := by
    have := off_nonneg_iff z
    omega
  rcases i with n | ⟨n,m⟩ | n
  · simp only [Negative, bounds, hneg]
  · simp only [Negative, bounds, hneg]
  · simp only [Negative, bounds, hneg]

theorem mem_kept (L : ℤ) (is : List Item) (r : ℤ × ℤ) :
    r ∈ kept L is ↔ ∃ i ∈ is, bounds L i = r ∧ r.1 < r.2 := by
  simp only [kept, List.mem_filter, List.mem_map, decide_eq_true_eq]
  constructor
  · rintro ⟨⟨i,hi,rfl⟩,h⟩
    exact ⟨i,hi,rfl,h⟩
  · rintro ⟨i,hi,rfl,h⟩
    exact ⟨⟨i,hi,rfl⟩,h⟩

theorem total_nonneg (L : ℤ) (is : List Item) : 0 ≤ total (kept L is) := by
  apply List.sum_nonneg
  intro z hz
  obtain ⟨r,hr,rfl⟩ := List.mem_map.mp hz
  obtain ⟨-,-,-,h⟩ := (mem_kept L is r).mp hr
  omega

theorem within_iff {L : ℤ} (hL : L < 2^63) (is : List Item) (h : offT (total (kept L is)) ≤ L) :
    Within L (kept L is) ↔ Sound L is := by
  constructor
  · intro hw
    refine ⟨fun i hi hk => ?_,by have := hw.2; omega⟩
    rw [negative_iff, not_lt]
    exact (hw.1 _ ((mem_kept L is _).mpr ⟨i,hi,rfl,hk⟩)).1
  · intro hs
    have ht := hs.2
    have h0 := total_nonneg L is
    rw [off_eq (by omega) ht] at h
    refine ⟨fun r hr => ?_,h⟩
    obtain ⟨i,hi,rfl,hk⟩ := (mem_kept L is r).mp hr
    have := hs.1 i hi hk
    rw [negative_iff, not_lt] at this
    exact ⟨this,hk,bounds_end L i⟩

/-- Parsing ends, and its bounds hold if and only if every list the header may be read as is
refused or sound. -/
theorem range_parse_bounds (L : ℤ) (h0 : 0 ≤ L) (hL : L < 2^63) (ranges pushes : ℕ)
    (value : List UInt8) :
    (∃ rc stored, ngxHttpRangeParse L ranges pushes value = some (rc, stored)) ∧
    ((∀ stored, ngxHttpRangeParse L ranges pushes value = some (.ok, stored) → Within L stored) ↔
      ∀ is, Listed (value.drop 6) is → Refused L ranges pushes is ∨ Sound L is) := by
  obtain ⟨rc,out,hrun,hok,hall⟩ := loop_answers h0 hL (value.length+1) ranges pushes [] 0
    (value.drop 6) (by rw [List.length_drop]; omega)
  rw [off_eq (by decide) (by decide)] at hrun
  have hparse : ngxHttpRangeParse L ranges pushes value = some (rc, out) := hrun
  refine ⟨⟨rc,out,hparse⟩,?_⟩
  rw [hparse]
  constructor
  · intro hw is hl
    by_cases hr : Refused L ranges pushes is
    · exact .inl hr
    refine .inr ?_
    simp only [Refused, not_or, not_lt] at hr
    obtain ⟨hne,hranges,hpushes,htotal⟩ := hr
    obtain ⟨rfl,rfl⟩ := hall is (kept L is) hl
      ⟨rfl,hranges,hpushes,hne,by rw [zero_add]; exact htotal⟩
    exact (within_iff hL is htotal).mp (hw _ rfl)
  · intro hsound stored h
    obtain ⟨rfl,rfl⟩ := Prod.mk.inj (Option.some.inj h)
    obtain ⟨is,hl,hout,hranges,hpushes,hne,htotal⟩ := hok rfl
    rw [List.nil_append] at hout
    subst hout
    rw [zero_add] at htotal
    refine (within_iff hL is htotal).mpr ((hsound is hl).resolve_left ?_)
    simp only [Refused, not_or, not_lt]
    exact ⟨hne,hranges,hpushes,htotal⟩

/-- `bytes=2-5,-3` of ten bytes -/
theorem range_parse_bounds_two :
    (∃ rc stored, ngxHttpRangeParse 10 2 2 [98,121,116,101,115,61,50,45,53,44,45,51] =
      some (rc, stored)) ∧
    ((∀ stored, ngxHttpRangeParse 10 2 2 [98,121,116,101,115,61,50,45,53,44,45,51] =
        some (.ok, stored) → Within 10 stored) ↔
      ∀ is, Listed [50,45,53,44,45,51] is → Refused 10 2 2 is ∨ Sound 10 is) :=
  range_parse_bounds 10 (by decide) (by decide) 2 2 _

/-- `bytes=18446744073709551615-5` of ten bytes: a range that begins before the content -/
theorem range_below_zero :
    ¬∀ stored, ngxHttpRangeParse 10 1 1 [98,121,116,101,115,61,49,56,52,52,54,55,52,
      52,48,55,51,55,48,57,53,53,49,54,49,53,45,53] = some (.ok, stored) →
        Within 10 stored := by
  intro h
  have hrun := h [(-1, 6)] (by decide +kernel)
  exact absurd (hrun.1 (-1, 6) (by simp)).1 (by decide)

end Nginx.RangeParseLaw
