import Nginx.GzipAccept

/-!
# Arguments of a request by name

A pointer is what the arguments hold from it on, with the byte before it, and `none` is a
read beyond them. The search looks for the name anywhere, in any case, and the caller asks
whether it stands at the beginning of a field and in front of `=`.
-/

set_option autoImplicit false

namespace Nginx.QueryArg
open Nginx.HeaderHash Nginx.GzipAccept

/-! The code -/

/-- `cut` is how far `last` is from the end of the arguments; `some none` is the null pointer. -/
@[grind =] def ngxStrlcasestrn (cut : ℕ) (c2 : UInt8) (s2 : List UInt8) :
    Option UInt8 → List UInt8 → Option (Option Pointer)
  | _, [] => some none
  | b, c1::s1 =>
    if s1.length+1 ≤ cut+s2.length then some none
    else if ngxTolower c1 ≠ ngxTolower c2 then ngxStrlcasestrn cut c2 s2 (some c1) s1
    else (ngxStrncasecmp s1 s2).bind fun equal =>
      if equal then some (some ⟨b,c1::s1⟩) else ngxStrlcasestrn cut c2 s2 (some c1) s1

/-- `data` is what memory holds from the value on; the length is as before its conversion. -/
inductive Answer where
  | declined
  | ok (data : List UInt8) (len : ℤ)
  deriving DecidableEq, Repr

/-- How far the first `&` from the pointer on is away, or the end without one -/
def ampersand (p : Pointer) : ℕ := (p.rest.takeWhile (· ≠ 38)).length

@[grind =] def argLoop (c : UInt8) (name : List UInt8) : ℕ → Pointer → Option Answer
  | 0, _ => none
  | fuel+1, p =>
    if p.rest = [] then some .declined
    else (ngxStrlcasestrn 1 c name p.back p.rest).bind fun
      | none => some .declined
      | some p =>
        if p.back = none ∨ p.back = some 38 then
          p.rest[name.length+1]?.bind fun e =>
            if e = 61 then some (.ok (p.rest.drop (name.length+2)) (ampersand p-(name.length+2)))
            else argLoop c name fuel (p.add 1)
        else argLoop c name fuel (p.add 1)

def ngxHttpArg (args : List UInt8) (c : UInt8) (name : List UInt8) : Option Answer :=
  if args = [] then some .declined else argLoop c name (args.length+1) ⟨none,args⟩

/-! Fields -/

def fieldValue (name field : List UInt8) : Option (List UInt8) :=
  if ngxStrlow (field.take name.length) = ngxStrlow name ∧ field[name.length]? = some 61 then
    some (field.drop (name.length+1))
  else none

def argValue (name args : List UInt8) : Option (List UInt8) :=
  (args.splitOn 38).findSome? (fieldValue name)

@[grind =] def firstPlace (name : List UInt8) : Option UInt8 → List UInt8 → Option Pointer
  | _, [] => none
  | b, x::s =>
    if (b = none ∨ b = some 38) ∧ (fieldValue name (x::s)).isSome then some ⟨b,x::s⟩
    else firstPlace name (some x) s

def answer (name : List UInt8) : Option Pointer → Answer
  | none => .declined
  | some p => .ok (p.rest.drop (name.length+1)) (ampersand p-(name.length+1))

variable (name : List UInt8)

theorem field_value (field value : List UInt8) :
    fieldValue name field = some value ↔
      ∃ n, field = n++61::value ∧ ngxStrlow n = ngxStrlow name := by
  unfold fieldValue
  split
  · rename_i h
    have ⟨hlow,he⟩ := h
    obtain ⟨hlen,hget⟩ := List.getElem?_eq_some_iff.mp he
    have hsplit : field = field.take name.length++61::field.drop (name.length+1) := by
      rw [← hget, List.getElem_cons_drop, List.take_append_drop]
    constructor
    · intro hv
      cases hv
      exact ⟨_,hsplit,hlow⟩
    · rintro ⟨n,rfl,hn⟩
      have hl : n.length = name.length := by simpa [ngxStrlow] using congrArg List.length hn
      simp [← hl]
  · rename_i h
    constructor
    · intro hv
      cases hv
    · rintro ⟨n,rfl,hn⟩
      have hl : n.length = name.length := by simpa [ngxStrlow] using congrArg List.length hn
      exact absurd ⟨by simpa [← hl] using hn,by simp [← hl]⟩ h

/-! ## The search -/

variable (c : UInt8)

theorem tolower_low {d : UInt8} (hd : d < 65) : ngxTolower c = d ↔ c = d := by
  unfold ngxTolower
  split
  · rename_i h
    have hc : 65 ≤ c.toNat := UInt8.le_iff_toNat_le.mp h.1
    have ho : c.toNat ≤ (c ||| 0x20).toNat := by
      rw [UInt8.toNat_or]
      exact Nat.left_le_or
    have hd : d.toNat < 65 := UInt8.lt_iff_toNat_lt.mp hd
    constructor
    · rintro rfl
      omega
    · rintro rfl
      omega
  · rfl

theorem strncasecmp_answers (s1 s2 : List UInt8) (h : s2.length ≤ s1.length) :
    ∃ equal, ngxStrncasecmp s1 s2 = some equal := by
  induction s2 generalizing s1 with
  | nil => exact ⟨true,by cases s1 <;> rfl⟩
  | cons c2 s2 ih =>
    rcases s1 with _ | ⟨c1,s1⟩
    · cases h
    rw [ngxStrncasecmp]
    split
    · split
      · exact ih s1 (Nat.le_of_succ_le_succ h)
      · exact ⟨true,rfl⟩
    · exact ⟨false,rfl⟩

theorem strncasecmp_prefix (s1 s2 : List UInt8) (h : s2.length ≤ s1.length) (h0 : 0 ∉ s2) :
    ngxStrncasecmp s1 s2 =
      some (decide (ngxStrlow (s1.take s2.length) = ngxStrlow s2)) := by
  induction s2 generalizing s1 with
  | nil => cases s1 <;> simp [ngxStrncasecmp, ngxStrlow]
  | cons c2 s2 ih =>
    rcases s1 with _ | ⟨c1,s1⟩
    · cases h
    have hi := ih s1 (Nat.le_of_succ_le_succ h) fun hm => h0 (by simp [hm])
    rw [ngxStrncasecmp]
    by_cases hc : ngxTolower c1 = ngxTolower c2
    · have hz : c1 ≠ 0 := by
        rintro rfl
        have h2 : c2 = 0 := (tolower_low c2 (by decide)).mp hc.symm
        exact h0 (by simp [h2])
      rw [if_pos hc, if_pos hz, hi]
      simp [ngxStrlow, hc]
    · rw [if_neg hc]
      simp [ngxStrlow, hc]

theorem search_answers (cut : ℕ) (c2 : UInt8) (s2 : List UInt8) (b : Option UInt8)
    (s1 : List UInt8) : ∃ found, ngxStrlcasestrn cut c2 s2 b s1 = some found ∧
      ∀ p ∈ found, cut+s2.length < p.rest.length ∧ p.rest.length ≤ s1.length := by
  induction s1 generalizing b with
  | nil => exact ⟨none,rfl,by simp⟩
  | cons c1 s1 ih =>
    obtain ⟨found,hrun,hp⟩ := ih (some c1)
    have hnext : ∀ p ∈ found, cut+s2.length < p.rest.length ∧ p.rest.length ≤ s1.length+1 :=
      fun p hm => ⟨(hp p hm).1,Nat.le_succ_of_le (hp p hm).2⟩
    rw [ngxStrlcasestrn]
    split
    · exact ⟨none,rfl,by simp⟩
    rename_i hlen
    split
    · exact ⟨found,hrun,hnext⟩
    obtain ⟨equal,he⟩ := strncasecmp_answers s1 s2 (by omega)
    rw [he, Option.bind_some]
    split
    · refine ⟨_,rfl,fun p hm => ?_⟩
      cases hm
      exact ⟨by simpa using hlen,le_rfl⟩
    · exact ⟨found,hrun,hnext⟩

variable (s : List UInt8)

theorem value_short (h : s.length ≤ name.length) : fieldValue name s = none := by
  rw [fieldValue, if_neg]
  rintro ⟨-,he⟩
  rw [List.getElem?_eq_none h] at he
  cases he

variable (b : Option UInt8)

theorem place_short (s : List UInt8) (h : s.length ≤ name.length) : firstPlace name b s = none := by
  induction s generalizing b with
  | nil => rfl
  | cons x s ih =>
    rw [firstPlace, value_short name _ h, if_neg (by simp)]
    exact ih (some x) (Nat.le_of_succ_le h)

theorem place_next (x : UInt8) (s : List UInt8)
    (h : ngxStrlow ((x::s).take name.length) ≠ ngxStrlow name) :
    firstPlace name b (x::s) = firstPlace name (some x) s := by
  have hv : fieldValue name (x::s) = none := by
    rw [fieldValue, if_neg fun hl => h hl.1]
  rw [firstPlace, hv, if_neg (by simp)]

theorem search_first (name : List UInt8) (h0 : 0 ∉ name) (b : Option UInt8) (s : List UInt8) :
    ∃ found, ngxStrlcasestrn 1 c name b s = some found ∧
      firstPlace (c::name) b s = found.bind (fun p => firstPlace (c::name) p.back p.rest) ∧
      ∀ p ∈ found, ngxStrlow (p.rest.take (c::name).length) = ngxStrlow (c::name) := by
  induction s generalizing b with
  | nil => exact ⟨none,rfl,rfl,by simp⟩
  | cons x s ih =>
    obtain ⟨found,hrun,hfirst,hlow⟩ := ih (some x)
    rw [ngxStrlcasestrn]
    split
    · rename_i hlen
      exact ⟨none,rfl,place_short _ b _ (by simp; omega),by simp⟩
    rename_i hlen
    by_cases hc : ngxTolower x = ngxTolower c
    · rw [if_neg (by simp [hc]), strncasecmp_prefix s name (by omega) h0, Option.bind_some]
      by_cases he : ngxStrlow (s.take name.length) = ngxStrlow name
      · refine ⟨some ⟨b,x::s⟩,by simp [he],rfl,fun p hm => ?_⟩
        cases hm
        simpa [ngxStrlow, hc] using he
      · refine ⟨found,by simp [he, hrun],?_,hlow⟩
        rw [place_next _ b x s (by simpa [ngxStrlow, hc] using he), hfirst]
    · refine ⟨found,by simp [hc, hrun],?_,hlow⟩
      rw [place_next _ b x s (by simp [ngxStrlow, hc]), hfirst]

theorem loop_answers (name : List UInt8) (fuel : ℕ) (p : Pointer) (h : p.rest.length < fuel) :
    ∃ a, argLoop c name fuel p = some a := by
  induction fuel generalizing p with
  | zero => cases h
  | succ fuel ih =>
    rw [argLoop]
    split
    · exact ⟨.declined,rfl⟩
    obtain ⟨found,hrun,hp⟩ := search_answers 1 c name p.back p.rest
    rw [hrun, Option.bind_some]
    rcases found with _ | q
    · exact ⟨.declined,rfl⟩
    obtain ⟨hlong,hshort⟩ := hp q rfl
    have hnext := ih (q.add 1) (by simp [Pointer.add]; omega)
    dsimp only
    split
    · rw [List.getElem?_eq_getElem (by omega), Option.bind_some]
      split
      · exact ⟨_,rfl⟩
      · exact hnext
    · exact hnext

theorem loop_first (name : List UInt8) (h0 : 0 ∉ name) (fuel : ℕ) (p : Pointer)
    (h : p.rest.length < fuel) :
    argLoop c name fuel p = some (answer (c::name) (firstPlace (c::name) p.back p.rest)) := by
  induction fuel generalizing p with
  | zero => cases h
  | succ fuel ih =>
    rw [argLoop]
    split
    · rename_i hnil
      rw [hnil]
      rfl
    obtain ⟨found,hrun,hfirst,hlow⟩ := search_first c name h0 p.back p.rest
    obtain ⟨found',hrun',hp⟩ := search_answers 1 c name p.back p.rest
    cases hrun.symm.trans hrun'
    rw [hrun, hfirst, Option.bind_some]
    rcases found with _ | q
    · rfl
    obtain ⟨hlong,hshort⟩ := hp q rfl
    have hl := hlow q rfl
    rcases q with ⟨b,_ | ⟨x,s⟩⟩
    · cases hlong
    have hnext := ih (Pointer.add ⟨b,x::s⟩ 1) (by simpa [Pointer.add] using hshort.trans_lt h)
    have hlen : name.length+1 < (x::s).length := by simpa [add_comm] using hlong
    have hget : (x::s)[name.length+1]? = some (x::s)[name.length+1] :=
      List.getElem?_eq_getElem hlen
    dsimp only [Option.bind_some]
    rw [firstPlace, hget, Option.bind_some]
    by_cases hb : b = none ∨ b = some 38
    · rw [if_pos hb]
      by_cases he : (x::s)[name.length+1] = 61
      · have hv : fieldValue (c::name) (x::s) = some (s.drop (name.length+1)) := by
          rw [fieldValue, if_pos ⟨hl,by rw [List.length_cons, hget, he]⟩]
          rfl
        rw [if_pos he, if_pos ⟨hb,by rw [hv]; rfl⟩]
        simp [answer, add_assoc]
      have hv : fieldValue (c::name) (x::s) = none := by
        rw [fieldValue, if_neg]
        rintro ⟨-,h2⟩
        rw [List.length_cons, hget] at h2
        exact he (Option.some.inj h2)
      rw [if_neg he, if_neg (by simp [hv]), hnext]
      rfl
    · rw [if_neg hb, if_neg fun h => hb h.1, hnext]
      rfl

/-! ## The fields -/

variable (f : List UInt8)

theorem value_field (t : List UInt8) (ha : 38 ∉ name) :
    fieldValue name (f++38::t) = (fieldValue name f).map (·++38::t) := by
  rcases lt_or_ge name.length f.length with hlen | hlen
  · unfold fieldValue
    rw [List.take_append_of_le_length hlen.le, List.getElem?_append_left hlen,
      List.drop_append_of_le_length hlen]
    split
    · rfl
    · rfl
  rw [value_short name f hlen, fieldValue, if_neg]
  · rfl
  rintro ⟨hlow,he⟩
  rcases hlen.eq_or_lt with hlen | hlen
  · rw [← hlen, List.getElem?_append_right le_rfl, Nat.sub_self] at he
    cases he
  -- the name would hold the separator
  · have hm : ngxTolower 38 ∈ ngxStrlow ((f++38::t).take name.length) := by
      obtain ⟨k,hk⟩ : ∃ k, name.length-f.length = k+1 := ⟨name.length-f.length-1,by omega⟩
      refine List.mem_map_of_mem ?_
      rw [List.take_append, hk, List.take_succ_cons]
      simp
    rw [hlow, ngxStrlow] at hm
    obtain ⟨d,hd,heq⟩ := List.mem_map.mp hm
    have hd38 : d = 38 := (tolower_low d (by decide)).mp heq
    exact ha (hd38 ▸ hd)

theorem place_skipped (t : List UInt8) (c : UInt8) (hc : c ≠ 38) (hf : 38 ∉ f) :
    firstPlace name (some c) (f++38::t) = firstPlace name (some 38) t := by
  induction f generalizing c with
  | nil => simp [firstPlace, hc]
  | cons x f ih =>
    rw [List.mem_cons, not_or] at hf
    rw [List.cons_append, firstPlace, if_neg (by simp [hc])]
    exact ih x (Ne.symm hf.1) hf.2

theorem place_skipped_last (c : UInt8) (hc : c ≠ 38) (hf : 38 ∉ f) :
    firstPlace name (some c) f = none := by
  induction f generalizing c with
  | nil => rfl
  | cons x f ih =>
    rw [List.mem_cons, not_or] at hf
    rw [firstPlace, if_neg (by simp [hc])]
    exact ih x (Ne.symm hf.1) hf.2

theorem place_field (t : List UInt8) (b : Option UInt8) (hb : b = none ∨ b = some 38)
    (ha : 38 ∉ name) (hf : 38 ∉ f) :
    firstPlace name b (f++38::t) =
      if (fieldValue name f).isSome then some ⟨b,f++38::t⟩ else firstPlace name (some 38) t := by
  have hv := value_field name f t ha
  rcases f with _ | ⟨x,f⟩
  · rw [value_short name [] (Nat.zero_le _)] at hv ⊢
    rw [List.nil_append, firstPlace, ← List.nil_append (38::t), hv]
    simp
  rw [List.cons_append] at hv ⊢
  rw [firstPlace, hv, Option.isSome_map]
  rw [List.mem_cons, not_or] at hf
  simp only [hb, true_and, place_skipped name f t x (Ne.symm hf.1) hf.2]

theorem place_last (b : Option UInt8) (hb : b = none ∨ b = some 38) (hf : 38 ∉ f) :
    firstPlace name b f = if (fieldValue name f).isSome then some ⟨b,f⟩ else none := by
  rcases f with _ | ⟨x,f⟩
  · rw [value_short name [] (Nat.zero_le _)]
    rfl
  rw [List.mem_cons, not_or] at hf
  rw [firstPlace, place_skipped_last name f x (Ne.symm hf.1) hf.2]
  simp only [hb, true_and]

/-- What the first field with the name leaves: its text, and behind it nothing or `&`. -/
structure Found (name value : List UInt8) (p : Pointer) where
  field : List UInt8
  behind : List UInt8
  rest : p.rest = field++behind
  ends : behind = [] ∨ behind.head? = some 38
  alone : 38 ∉ field
  valued : fieldValue name field = some value

theorem place_value (ha : 38 ∉ name) (s : List UInt8) (b : Option UInt8)
    (hb : b = none ∨ b = some 38) :
    (argValue name s = none ∧ firstPlace name b s = none) ∨
    ∃ value p, argValue name s = some value ∧ firstPlace name b s = some p ∧
      Nonempty (Found name value p) ∧ p.rest <:+ s := by
  induction hn : s.length using Nat.strong_induction_on generalizing s b with
  | _ n ih =>
    by_cases hs : 38 ∈ s
    · obtain ⟨f,t,rfl,hf⟩ := List.eq_append_cons_of_mem hs
      have hsplit : argValue name (f++38::t) = (fieldValue name f).or (argValue name t) := by
        rw [argValue, List.splitOn_eq_splitOnP,
          List.splitOnP_append_cons_of_forall_mem _ _ (by simp), List.findSome?_cons]
        · cases fieldValue name f <;> rfl
        · intro x hx
          simp only [beq_eq_false_iff_ne]
          rintro rfl
          exact hf hx
      rw [hsplit, place_field name f t b hb ha hf]
      cases hv : fieldValue name f with
      | some value =>
        exact .inr ⟨value,_,rfl,rfl,⟨⟨f,38::t,rfl,.inr rfl,hf,hv⟩⟩,List.suffix_rfl⟩
      | none =>
        have hlt : t.length < n := by simp [← hn]; omega
        rcases ih t.length hlt t (some 38) (.inr rfl) rfl with ⟨h1,h2⟩ | ⟨v,p,h1,h2,h3,h4⟩
        · exact .inl ⟨h1,h2⟩
        · exact .inr ⟨v,p,h1,h2,h3,
            h4.trans ((List.suffix_cons 38 t).trans (List.suffix_append f _))⟩
    have hsplit : argValue name s = fieldValue name s := by
      rw [argValue, List.splitOn_eq_singleton hs, List.findSome?_cons]
      cases fieldValue name s <;> rfl
    rw [hsplit, place_last name s b hb hs]
    cases hv : fieldValue name s with
    | some value =>
      exact .inr ⟨value,_,rfl,rfl,⟨⟨s,[],by simp,.inl rfl,hs,hv⟩⟩,List.suffix_rfl⟩
    | none => exact .inl ⟨rfl,rfl⟩

theorem answer_found (value : List UInt8) (p : Pointer) (h : Found name value p) :
    ∃ behind, answer name (some p) = .ok (value++behind) value.length ∧
      value++behind <:+ p.rest := by
  obtain ⟨n,hfield,hn⟩ := (field_value name h.field value).mp h.valued
  have hl : n.length = name.length := by simpa [ngxStrlow] using congrArg List.length hn
  have hamp : ampersand p = h.field.length := by
    rw [ampersand, h.rest, List.takeWhile_append_of_pos]
    · rcases h.ends with hb | hb
      · simp [hb]
      cases hbehind : h.behind with
      | nil => simp
      | cons x t =>
        rw [hbehind] at hb
        cases hb
        simp
    · intro x hx
      have : x ≠ 38 := fun he => h.alone (he ▸ hx)
      simpa using this
  have hdrop : p.rest.drop (name.length+1) = value++h.behind := by
    rw [h.rest, hfield, ← hl]
    simp
  refine ⟨h.behind,?_,hdrop ▸ List.drop_suffix _ _⟩
  have hlen : h.field.length = name.length+1+value.length := by
    rw [hfield, ← hl]
    simp
    omega
  rw [answer, hamp, hdrop, hlen]
  congr 1
  push_cast
  omega

/-- No read is beyond the arguments. A name without `&` and zero bytes is found where the first
field with it begins, and the value ends where the field does. -/
theorem http_arg_value (c : UInt8) (name args : List UInt8) :
    (∃ a, ngxHttpArg args c name = some a) ∧
    (38 ∉ c::name → 0 ∉ c::name →
      match argValue (c::name) args with
      | none => ngxHttpArg args c name = some .declined
      | some value => ∃ behind, value++behind <:+ args ∧
          ngxHttpArg args c name = some (.ok (value++behind) value.length)) := by
  unfold ngxHttpArg
  split
  · rename_i hnil
    subst hnil
    refine ⟨⟨_,rfl⟩,fun ha h0 => ?_⟩
    simp [argValue, value_short]
  refine ⟨loop_answers c name _ _ (Nat.lt_succ_self _),fun ha h0 => ?_⟩
  have h0 : 0 ∉ name := fun h => h0 (List.mem_cons_of_mem _ h)
  rw [loop_first c name h0 _ ⟨none,args⟩ (Nat.lt_succ_self _)]
  rcases place_value (c::name) ha args none (.inl rfl) with ⟨h1,h2⟩ | ⟨v,p,h1,h2,⟨h3⟩,h4⟩
  · rw [h1, h2]
    rfl
  obtain ⟨behind,hanswer,hsuffix⟩ := answer_found (c::name) v p h3
  rw [h1, h2, hanswer]
  exact ⟨behind,hsuffix.trans h4,rfl⟩

theorem http_arg_value_second : ∃ behind, [50]++behind <:+ [120,97,61,49,38,65,61,50] ∧
    ngxHttpArg [120,97,61,49,38,65,61,50] 97 [] = some (.ok ([50]++behind) 1) :=
  (http_arg_value 97 [] [120,97,61,49,38,65,61,50]).2 (by decide) (by decide)

/-- The name `a&b` is found in `a&b=c`, where the fields are `a` and `b=c`. -/
theorem ampersand_in_name :
    ngxHttpArg [97,38,98,61,99] 97 [38,98] = some (.ok [99] (-3)) ∧
    argValue [97,38,98] [97,38,98,61,99] = none := by
  decide

end Nginx.QueryArg
