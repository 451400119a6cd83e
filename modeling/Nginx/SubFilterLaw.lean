import Nginx.SubFilterBytes

/-!
# When the substitution filter replaces every occurrence

The filter tries the match string at one position after the other. A trial that
fails behind `k` matching bytes is followed by one that begins where it failed,
so an occurrence that begins inside the trial is missed. The bytes of a trial are
lost when it fails with the first byte of a buffer, this byte begins another
trial and the other trial does not fail in the same buffer, and they are lost at
the end of the body. Nothing else goes wrong, except that a match string of one
byte is never found.
-/

set_option autoImplicit false

namespace Nginx.SubFilterLaw
open Nginx.SubFilter Nginx.SubFilterBytes

def StartsWith (value body : List UInt8) : Prop :=
  (body.take value.length).map ngxTolower = value.map ngxTolower

instance (value body : List UInt8) : Decidable (StartsWith value body) :=
  inferInstanceAs (Decidable (_ = _))

/-- The first `skip` bytes belong to an occurrence. -/
@[grind =] def replaceFrom (value sub : List UInt8) : ℕ → List UInt8 → List UInt8
  | _, [] => []
  | skip+1, _::cs => replaceFrom value sub skip cs
  | 0, c::cs =>
    if StartsWith value (c::cs) then sub++replaceFrom value sub (value.length-1) cs
    else c::replaceFrom value sub 0 cs

/-- The body with its leftmost occurrences replaced, without regard to case. -/
def replaceAll (value sub body : List UInt8) : List UInt8 := replaceFrom value sub 0 body

@[grind =] def marksFrom (value : List UInt8) : ℕ → List UInt8 → List (Option UInt8)
  | _, [] => []
  | skip+1, _::cs => marksFrom value skip cs
  | 0, c::cs =>
    if StartsWith value (c::cs) then none::marksFrom value (value.length-1) cs
    else some c::marksFrom value 0 cs

@[grind =] def matched : List UInt8 → List UInt8 → ℕ
  | v::vs, c::cs => if ngxTolower c = ngxTolower v then matched vs cs+1 else 0
  | _, _ => 0

def bytes (bs : List (Bool × UInt8)) : List UInt8 := bs.map Prod.snd

def unmarked (bs : List (Bool × UInt8)) : Bool := bs.all (fun b => !b.1)

def retried (value : List UInt8) : List (Bool × UInt8) → Bool
  | [] => false
  | b::bs => b.1 && matched value (bytes (b::bs)) != 0

/-- Of the bytes from `skip` on: no trial runs into the end of the body or hides
an occurrence, and a trial at the beginning of a buffer after one that failed
there (for the first trial, if `atRisk`) fails in this buffer. -/
def Clean (value : List UInt8) : ℕ → Bool → List (Bool × UInt8) → Prop
  | _, atRisk, [] => atRisk = false
  | skip+1, atRisk, _::bs => Clean value skip atRisk bs
  | 0, atRisk, b::bs =>
    let k := matched value (bytes (b::bs))
    if k = 0 then Clean value 0 false bs
    else if k = value.length then atRisk = false ∧ Clean value (k-1) false bs
    else k ≤ bs.length ∧ (atRisk = true → unmarked (bs.take k) = true) ∧
      (∀ t < k, 0 < t → ¬ StartsWith value (bytes ((b::bs).drop t))) ∧
      Clean value (k-1) (retried value (bs.drop (k-1))) bs

instance cleanDecidable (value : List UInt8) :
    ∀ (skip : ℕ) (atRisk : Bool) (bs : List (Bool × UInt8)), Decidable (Clean value skip atRisk bs)
  | 0, atRisk, [] => inferInstanceAs (Decidable (atRisk = false))
  | _+1, atRisk, [] => inferInstanceAs (Decidable (atRisk = false))
  | skip+1, atRisk, _::bs => cleanDecidable value skip atRisk bs
  | 0, atRisk, b::bs =>
    have := fun skip atRisk => cleanDecidable value skip atRisk bs
    decidable_of_iff (if matched value (bytes (b::bs)) = 0 then Clean value 0 false bs
      else if matched value (bytes (b::bs)) = value.length then
        atRisk = false ∧ Clean value (matched value (bytes (b::bs))-1) false bs
      else matched value (bytes (b::bs)) ≤ bs.length ∧
        (atRisk = true → unmarked (bs.take (matched value (bytes (b::bs)))) = true) ∧
        (∀ t < matched value (bytes (b::bs)), 0 < t →
          ¬ StartsWith value (bytes ((b::bs).drop t))) ∧
        Clean value (matched value (bytes (b::bs))-1)
          (retried value (bs.drop (matched value (bytes (b::bs))-1))) bs) (by rw [Clean])

theorem render_marks (value sub : List UInt8) (skip : ℕ) (body : List UInt8) :
    render sub (marksFrom value skip body) = replaceFrom value sub skip body := by
  induction body generalizing skip with
  | nil => cases skip <;> rfl
  | cons c cs ih =>
    cases skip with
    | succ skip => exact ih skip
    | zero =>
      rw [marksFrom, replaceFrom]
      split_ifs
      · rw [render, List.flatMap_cons, ← render, ih]
        rfl
      · rw [render, List.flatMap_cons, ← render, ih]
        rfl

theorem render_injective (ts us : List (Option UInt8)) (h : ∀ sub, render sub ts = render sub us) :
    ts = us := by
  induction ts generalizing us with
  | nil =>
    rcases us with _ | ⟨u,us⟩
    · rfl
    · have := h [0]
      cases u <;> simp [render] at this
  | cons t ts ih =>
    rcases us with _ | ⟨u,us⟩
    · have := h [0]
      cases t <;> simp [render] at this
    have hcons : ∀ (sub : List UInt8) t ts, render sub (t::ts) =
        t.elim sub (fun c => [c])++render sub ts := fun _ _ _ => List.flatMap_cons
    have h0 := h [0]
    have h1 := h [1]
    rw [hcons, hcons] at h0 h1
    have htu : t = u := by
      cases t with
      | none => cases u with
        | none => rfl
        | some c =>
          simp only [Option.elim, List.singleton_append, List.cons.injEq] at h0 h1
          have := h0.1.trans h1.1.symm
          simp at this
      | some d => cases u with
        | none =>
          simp only [Option.elim, List.singleton_append, List.cons.injEq] at h0 h1
          have := h0.1.symm.trans h1.1
          simp at this
        | some c =>
          simp only [Option.elim, List.singleton_append, List.cons.injEq] at h0
          rw [h0.1]
    subst htu
    congr 1
    refine ih us (fun sub => ?_)
    have := h sub
    rw [hcons, hcons] at this
    exact List.append_cancel_left this

theorem marks_skip (value : List UInt8) (skip : ℕ) (body : List UInt8) :
    marksFrom value skip body = marksFrom value 0 (body.drop skip) := by
  induction skip generalizing body with
  | zero => rfl
  | succ skip ih =>
    rcases body with _ | ⟨c,cs⟩
    · rfl
    · exact ih cs

theorem clean_skip (value : List UInt8) (skip : ℕ) (atRisk : Bool) (bs : List (Bool × UInt8)) :
    Clean value skip atRisk bs = Clean value 0 atRisk (bs.drop skip) := by
  induction skip generalizing bs with
  | zero => rfl
  | succ skip ih =>
    rcases bs with _ | ⟨b,bs⟩
    · rfl
    · exact ih bs

theorem matched_le (value body : List UInt8) :
    matched value body ≤ value.length ∧ matched value body ≤ body.length := by
  induction value generalizing body with
  | nil => cases body <;> simp [matched]
  | cons v vs ih =>
    rcases body with _ | ⟨c,cs⟩
    · simp [matched]
    have := ih cs
    rw [matched]
    split_ifs
    · simp only [List.length_cons]
      omega
    · simp

theorem starts_with_iff (value body : List UInt8) :
    StartsWith value body ↔ matched value body = value.length := by
  induction value generalizing body with
  | nil => cases body <;> simp [StartsWith, matched]
  | cons v vs ih =>
    rcases body with _ | ⟨c,cs⟩
    · simp [StartsWith, matched]
    have := ih cs
    rw [StartsWith] at this ⊢
    rw [matched, List.length_cons, List.take_succ_cons, List.map_cons, List.map_cons,
      List.cons.injEq, this]
    split_ifs with hc <;> simp [hc]

structure Spells (m : NgxStr) (value : List UInt8) : Prop where
  len : m.len = value.length
  data : ∀ (k : ℕ) (h : k < value.length), m.data k = ngxTolower value[k]

theorem new_spells (value : List UInt8) (behind : ℕ → UInt8) :
    Spells (newCtx value behind).match' value :=
  ⟨rfl,fun k h => by simp [newCtx, h]⟩

theorem emitted_trial (m : NgxStr) (value : List UInt8) (hm : Spells m value)
    (bs : List (Bool × UInt8)) (looked held : List UInt8) (hl : looked ≠ [])
    (hlen : looked.length < value.length) (k : ℕ)
    (hk : matched (value.drop looked.length) (bytes bs) = k) :
    emitted m ⟨looked,held⟩ bs =
      if looked.length+k = value.length then none::emitted m .idle (bs.drop k)
      else emitted m ⟨looked++bytes (bs.take k),
        if unmarked (bs.take k) then held else []⟩ (bs.drop k) := by
  induction bs generalizing looked held k with
  | nil =>
    have hz : k = 0 := by
      have := (matched_le (value.drop looked.length) (bytes [])).2
      simp only [bytes, List.map_nil, List.length_nil] at this hk
      omega
    rw [hz, if_neg (by omega)]
    rfl
  | cons b bs ih =>
    obtain ⟨first,c⟩ := b
    have hdrop : value.drop looked.length =
        value[looked.length]::value.drop (looked.length+1) := List.drop_eq_getElem_cons hlen
    rw [hdrop, bytes, List.map_cons, ← bytes, matched, ← hm.data _ hlen] at hk
    by_cases hc : ngxTolower c = m.data looked.length
    · rw [if_pos hc] at hk
      obtain ⟨j,rfl⟩ : ∃ j, k = j+1 := ⟨_,hk.symm⟩
      rw [Nat.add_right_cancel_iff] at hk
      rw [emitted]
      by_cases hend : looked.length+1 = value.length
      · have hj : j = 0 := by
          have := (matched_le (value.drop (looked.length+1)) (bytes bs)).1
          rw [hk, hend, List.drop_length] at this
          exact Nat.le_zero.mp this
        rw [step_found m c first looked held hl hc (hend.trans hm.len.symm), hj, if_pos hend]
        rfl
      rw [step_longer m c first looked held hl hc (by rwa [hm.len])]
      have hnext := ih (looked++[c]) (if first then [] else held) (by simp) (by simp; omega) j
        (by simpa using hk)
      rw [List.nil_append, hnext]
      have hsum : (looked++[c]).length+j = looked.length+(j+1) := by simp; omega
      have hbytes : looked++[c]++bytes (bs.take j) = looked++bytes (((first, c)::bs).take (j+1)) := by
        simp [bytes]
      have hheld : (if unmarked (bs.take j) then (if first then [] else held) else []) =
          if unmarked (((first, c)::bs).take (j+1)) then held else [] := by
        rw [List.take_succ_cons, unmarked, unmarked, List.all_cons]
        cases first <;> cases (bs.take j).all (fun b => !b.1) <;> rfl
      rw [hsum, hbytes, hheld, List.drop_succ_cons]
    rw [if_neg hc] at hk
    rw [← hk, if_neg (by omega)]
    simp [bytes, unmarked]

section Trial
variable (m : NgxStr) (value : List UInt8) (hm : Spells m value) (hlen : 2 ≤ value.length)
  (held : List UInt8) (b : Bool × UInt8) (bs : List (Bool × UInt8))

include hm hlen

theorem matched_cons : matched value (bytes (b::bs)) =
    if ngxTolower b.2 = m.data 0 then matched (value.drop 1) (bytes bs)+1 else 0 := by
  rcases value with _ | ⟨v,vs⟩
  · simp at hlen
  · rw [bytes, List.map_cons, ← bytes, matched, hm.data 0 (by simp)]
    rfl

theorem emitted_unmatched (h : matched value (bytes (b::bs)) = 0) :
    emitted m ⟨[],held⟩ (b::bs) = (held++[b.2]).map some++emitted m .idle bs := by
  rw [matched_cons m value hm hlen] at h
  have hb : ngxTolower b.2 ≠ m.data 0 := by
    intro hb
    rw [if_pos hb] at h
    omega
  rw [emitted, step_plain m b.2 b.1 held hb]

theorem emitted_matched (k : ℕ) (hk : matched value (bytes (b::bs)) = k+1) :
    emitted m ⟨[],held⟩ (b::bs) =
      if k+1 = value.length then none::emitted m .idle (bs.drop k)
      else emitted m ⟨bytes ((b::bs).take (k+1)),
        if unmarked (bs.take k) then held else []⟩ (bs.drop k) := by
  rw [matched_cons m value hm hlen] at hk
  have hb : ngxTolower b.2 = m.data 0 := by
    by_contra hb
    rw [if_neg hb] at hk
    omega
  rw [if_pos hb, Nat.add_right_cancel_iff] at hk
  rw [emitted, step_begin m b.2 b.1 held hb, List.nil_append,
    emitted_trial m value hm bs [b.2] held (by simp) hlen k hk,
    List.length_singleton, Nat.add_comm 1 k]
  rfl

theorem emitted_failed (looked : List UInt8) (hl : looked ≠ [])
    (hb : ngxTolower b.2 ≠ m.data looked.length) :
    emitted m ⟨looked,held⟩ (b::bs) =
      if retried value (b::bs) then emitted m ⟨[],looked⟩ (b::bs)
      else ((if b.1 then [] else held)++looked).map some++emitted m .idle (b::bs) := by
  have hr : retried value (b::bs) = (b.1 && decide (ngxTolower b.2 = m.data 0)) := by
    rw [retried, matched_cons m value hm hlen]
    split_ifs with h <;> simp [h]
  rw [hr]
  obtain ⟨first,c⟩ := b
  by_cases hz : ngxTolower c = m.data 0
  · have hbegin : ∀ h, emitted m ⟨[],h⟩ ((first, c)::bs) = emitted m ⟨[c],h⟩ bs := by
      intro h
      rw [emitted, step_begin m c first h hz]
      rfl
    rw [hbegin, Waiting.idle, hbegin, emitted, step_again m c first looked held hl hb hz]
    cases first <;> simp [hz]
  have hplain : emitted m .idle ((first, c)::bs) = some c::emitted m .idle bs := by
    rw [emitted, Waiting.idle, step_plain m c first [] hz]
    rfl
  rw [hplain, emitted, step_fail m c first looked held hl hb hz]
  simp [hz]

end Trial

@[grind =] def weight (len : ℕ) : List (Option UInt8) → ℕ
  | [] => 0
  | none::ts => len+weight len ts
  | some _::ts => 1+weight len ts

theorem weight_append (len : ℕ) (ts us : List (Option UInt8)) :
    weight len (ts++us) = weight len ts+weight len us := by
  induction ts with
  | nil => exact (Nat.zero_add _).symm
  | cons t ts ih =>
    cases t <;> simp only [List.cons_append, weight, ih] <;> omega

theorem weight_bytes (len : ℕ) (cs : List UInt8) : weight len (cs.map some) = cs.length := by
  induction cs with
  | nil => rfl
  | cons c cs ih =>
    rw [List.map_cons, weight, ih, List.length_cons, Nat.add_comm]

theorem weight_marks (value : List UInt8) (hv : value ≠ []) (skip : ℕ) (body : List UInt8)
    (h : skip ≤ body.length) :
    weight value.length (marksFrom value skip body)+skip = body.length := by
  induction body generalizing skip with
  | nil =>
    rw [Nat.le_zero.mp h]
    rfl
  | cons c cs ih =>
    cases skip with
    | succ skip =>
      have := ih skip (Nat.le_of_succ_le_succ h)
      rw [marksFrom, List.length_cons]
      omega
    | zero =>
      rw [marksFrom]
      split_ifs with hs
      · have hle := (matched_le value (c::cs)).2
        have hpos := List.length_pos_iff.mpr hv
        rw [(starts_with_iff value (c::cs)).mp hs, List.length_cons] at hle
        have := ih (value.length-1) (by omega)
        rw [weight, List.length_cons]
        omega
      · have := ih 0 (Nat.zero_le _)
        rw [weight, List.length_cons]
        omega

theorem weight_step (m : NgxStr) (w : Waiting) (b : Bool × UInt8) :
    weight m.len (step m w b).2+((step m w b).1.looked.length+(step m w b).1.held.length) ≤
      w.looked.length+w.held.length+1 := by
  obtain ⟨looked,held⟩ := w
  obtain ⟨first,c⟩ := b
  by_cases hl : looked = []
  · subst hl
    by_cases hz : ngxTolower c = m.data 0
    · rw [step_begin m c first held hz]
      simp only [weight, List.length_nil, List.length_singleton]
      omega
    · rw [step_plain m c first held hz, weight_bytes]
      simp [Waiting.idle]
  by_cases hc : ngxTolower c = m.data looked.length
  · by_cases hlen : looked.length+1 = m.len
    · rw [step_found m c first looked held hl hc hlen]
      simp only [weight, Waiting.idle, List.length_nil]
      omega
    rw [step_longer m c first looked held hl hc hlen]
    cases first
    · simp only [weight, List.length_append, List.length_singleton, Bool.false_eq_true, if_false]
      omega
    · simp only [weight, List.length_append, List.length_singleton, if_true, List.length_nil]
      omega
  by_cases hz : ngxTolower c = m.data 0
  · rw [step_again m c first looked held hl hc hz]
    cases first
    · rw [if_neg Bool.false_ne_true, weight_bytes]
      simp only [List.length_append, List.length_singleton, List.length_nil]
      omega
    · simp only [if_true, weight, List.length_singleton]
      omega
  rw [step_fail m c first looked held hl hc hz, weight_bytes]
  cases first
  · simp only [Waiting.idle, List.length_append, List.length_singleton, List.length_nil,
      Bool.false_eq_true, if_false]
    omega
  · simp only [Waiting.idle, List.length_append, List.length_singleton, List.length_nil,
      if_true]
    omega

theorem weight_emitted (m : NgxStr) (w : Waiting) (bs : List (Bool × UInt8)) :
    weight m.len (emitted m w bs) ≤ w.looked.length+w.held.length+bs.length := by
  induction bs generalizing w with
  | nil => exact Nat.zero_le _
  | cons b bs ih =>
    have hstep := weight_step m w b
    have hrest := ih (step m w b).1
    rw [emitted, weight_append, List.length_cons]
    omega

theorem held_first_or_lost (m : NgxStr) (w : Waiting) (bs : List (Bool × UInt8)) :
    (∃ ts, emitted m w bs = w.held.map some++ts) ∨
      weight m.len (emitted m w bs) < w.looked.length+w.held.length+bs.length := by
  by_cases hh : w.held = []
  · exact Or.inl ⟨emitted m w bs,by rw [hh]; rfl⟩
  have hpos := List.length_pos_iff.mpr hh
  induction bs generalizing w with
  | nil =>
    refine Or.inr ?_
    simp only [emitted, weight]
    omega
  | cons b bs ih =>
    obtain ⟨looked,held⟩ := w
    obtain ⟨first,c⟩ := b
    have hlost : ∀ v : Waiting, (step m ⟨looked,held⟩ (first, c)) = (v, []) → v.held = held →
        v.looked.length ≤ looked.length+1 →
        (∃ ts, emitted m ⟨looked,held⟩ ((first, c)::bs) = held.map some++ts) ∨
          weight m.len (emitted m ⟨looked,held⟩ ((first, c)::bs)) <
            looked.length+held.length+((first, c)::bs).length := by
      intro v hv hvh hvl
      rw [emitted, hv, List.nil_append]
      rcases ih v (by rwa [hvh]) (by rwa [hvh]) with h | h
      · rw [hvh] at h
        exact Or.inl h
      rw [hvh] at h
      refine Or.inr ?_
      rw [List.length_cons]
      show weight m.len (emitted m v bs) < _
      omega
    by_cases hl : looked = []
    · subst hl
      by_cases hz : ngxTolower c = m.data 0
      · exact hlost ⟨[c],held⟩ (step_begin m c first held hz) rfl (Nat.le_refl _)
      refine Or.inl ⟨some c::emitted m .idle bs,?_⟩
      rw [emitted, step_plain m c first held hz]
      simp
    cases first with
    | true =>
      have hstep : step m ⟨looked,held⟩ (true, c) = step m ⟨looked,[]⟩ (true, c) := by
        simp only [step, if_neg hl, if_true]
      have hle := weight_emitted m ⟨looked,[]⟩ ((true, c)::bs)
      rw [emitted, ← hstep, ← emitted, List.length_nil] at hle
      refine Or.inr ?_
      have : 0 < held.length := hpos
      show _ < looked.length+held.length+_
      have hle' : _ ≤ looked.length+0+((true, c)::bs).length := hle
      omega
    | false =>
      by_cases hc : ngxTolower c = m.data looked.length
      · by_cases hlen : looked.length+1 = m.len
        · have hle := weight_emitted m .idle bs
          refine Or.inr ?_
          rw [emitted, step_found m c false looked held hl hc hlen]
          simp only [List.singleton_append, weight, List.length_cons]
          have hle' : weight m.len (emitted m .idle bs) ≤ 0+0+bs.length := hle
          have hpos' : 0 < held.length := hpos
          omega
        refine hlost ⟨looked++[c],held⟩ ?_ rfl (by simp)
        rw [step_longer m c false looked held hl hc hlen]
        rfl
      by_cases hz : ngxTolower c = m.data 0
      · refine Or.inl ⟨looked.map some++emitted m ⟨[c],[]⟩ bs,?_⟩
        rw [emitted, step_again m c false looked held hl hc hz]
        simp
      refine Or.inl ⟨(looked++[c]).map some++emitted m .idle bs,?_⟩
      rw [emitted, step_fail m c false looked held hl hc hz]
      simp

theorem marks_plain (value : List UInt8) (k : ℕ) (body : List UInt8) (hk : k ≤ body.length)
    (h : ∀ t < k, ¬ StartsWith value (body.drop t)) :
    marksFrom value 0 body = (body.take k).map some++marksFrom value 0 (body.drop k) := by
  induction k generalizing body with
  | zero => rfl
  | succ k ih =>
    rcases body with _ | ⟨c,cs⟩
    · exact absurd hk (Nat.not_succ_le_zero k)
    have hrest := ih cs (Nat.le_of_succ_le_succ hk) (fun t ht => h (t+1) (Nat.succ_lt_succ ht))
    have hs : ¬ StartsWith value (c::cs) := h 0 (Nat.succ_pos k)
    rw [marksFrom, if_neg hs, hrest]
    rfl

theorem marks_hidden (value : List UInt8) (k : ℕ) (body : List UInt8) (hk : k ≤ body.length)
    (h : ∃ t < k, StartsWith value (body.drop t)) :
    ∃ t < k, ∃ ts, marksFrom value 0 body = (body.take t).map some++none::ts := by
  induction k generalizing body with
  | zero =>
    obtain ⟨t,ht,-⟩ := h
    exact absurd ht (Nat.not_lt_zero t)
  | succ k ih =>
    rcases body with _ | ⟨c,cs⟩
    · exact absurd hk (Nat.not_succ_le_zero k)
    by_cases hs : StartsWith value (c::cs)
    · exact ⟨0,Nat.succ_pos k,_,by rw [marksFrom, if_pos hs]; rfl⟩
    obtain ⟨t,ht,hst⟩ := h
    rcases t with _ | t
    · exact absurd hst hs
    obtain ⟨t',ht',ts,hts⟩ := ih cs (Nat.le_of_succ_le_succ hk)
      ⟨t,Nat.lt_of_succ_lt_succ ht,hst⟩
    refine ⟨t'+1,Nat.succ_lt_succ ht',ts,?_⟩
    rw [marksFrom, if_neg hs, hts]
    rfl

theorem bytes_ne_hidden (looked body : List UInt8) (ts us : List (Option UInt8)) (t : ℕ)
    (ht : t < looked.length) (hb : t ≤ body.length) :
    looked.map some++ts ≠ (body.take t).map some++none::us := by
  intro h
  have hl : (looked.map some++ts)[t]? = some (some looked[t]) := by
    rw [List.getElem?_append_left (by simpa using ht)]
    simp [ht]
  have hr : ((body.take t).map some++none::us)[t]? = some none := by
    have hlen : ((body.take t).map some).length = t := by simp [hb]
    rw [List.getElem?_append_right (Nat.le_of_eq hlen), hlen, Nat.sub_self]
    rfl
  rw [h, hr] at hl
  simp at hl

theorem matched_stops (value body : List UInt8) (c : UInt8) (rest : List UInt8)
    (h : matched value body < value.length) (hrest : body.drop (matched value body) = c::rest) :
    ngxTolower c ≠ ngxTolower value[matched value body] := by
  induction value generalizing body with
  | nil => simp at h
  | cons v vs ih =>
    rcases body with _ | ⟨d,ds⟩
    · simp at hrest
    by_cases hd : ngxTolower d = ngxTolower v
    · have hm : matched (v::vs) (d::ds) = matched vs ds+1 := by rw [matched, if_pos hd]
      simp only [hm, List.length_cons, List.drop_succ_cons, List.getElem_cons_succ] at h hrest ⊢
      exact ih ds (Nat.lt_of_succ_lt_succ h) hrest
    have hm : matched (v::vs) (d::ds) = 0 := by rw [matched, if_neg hd]
    simp only [hm, List.drop_zero, List.cons.injEq, List.getElem_cons_zero] at hrest ⊢
    rw [← hrest.1]
    exact hd

section Failed
variable (value : List UInt8) (b : Bool × UInt8) (bs : List (Bool × UInt8)) (k : ℕ)
  (hk : matched value (bytes (b::bs)) = k+1)

include hk

theorem failed_split : (b::bs).drop (k+1) = bs.drop k ∧
    (bytes ((b::bs).take (k+1))).length = k+1 ∧
    (b::bs).length = k+1+(bs.drop k).length := by
  have hle := (matched_le value (bytes (b::bs))).2
  rw [hk, bytes, List.length_map, List.length_cons] at hle
  refine ⟨rfl,?_,?_⟩
  · rw [bytes, List.length_map, List.length_take, List.length_cons]
    omega
  · rw [List.length_cons, List.length_drop]
    omega

theorem weight_expected (held : List UInt8) (hlen : 2 ≤ value.length) : weight value.length
    (held.map some++marksFrom value 0 (bytes (b::bs))) =
      held.length+(k+1)+(bs.drop k).length := by
  have hv : value ≠ [] := by
    rintro rfl
    simp at hlen
  have := weight_marks value hv 0 (bytes (b::bs)) (Nat.zero_le _)
  obtain ⟨-,-,hsplit⟩ := failed_split value b bs k hk
  rw [bytes, List.length_map, ← bytes] at this
  rw [weight_append, weight_bytes]
  omega

theorem expected_plain (hs : ∀ t < k+1, 0 < t → ¬ StartsWith value (bytes ((b::bs).drop t)))
    (hne : k+1 ≠ value.length) :
    marksFrom value 0 (bytes (b::bs)) =
      (bytes ((b::bs).take (k+1))).map some++marksFrom value 0 (bytes (bs.drop k)) := by
  have hle := (matched_le value (bytes (b::bs))).2
  rw [hk] at hle
  rw [marks_plain value (k+1) (bytes (b::bs)) hle ?_]
  · simp only [bytes, List.map_take, List.map_drop, List.map_cons, List.drop_succ_cons]
  · intro t ht
    rcases t with _ | t
    · rw [List.drop_zero, starts_with_iff, hk]
      exact hne
    · rw [bytes, ← List.map_drop]
      exact hs (t+1) ht (Nat.succ_pos t)

theorem expected_hidden
    (hs : ¬ ∀ t < k+1, 0 < t → ¬ StartsWith value (bytes ((b::bs).drop t))) :
    ∃ t < k+1, ∃ ts, marksFrom value 0 (bytes (b::bs)) =
      ((bytes (b::bs)).take t).map some++none::ts := by
  have hle := (matched_le value (bytes (b::bs))).2
  rw [hk] at hle
  simp only [not_forall, not_not] at hs
  obtain ⟨t,ht,-,hst⟩ := hs
  refine marks_hidden value (k+1) (bytes (b::bs)) hle ⟨t,ht,?_⟩
  rwa [bytes, ← List.map_drop]

theorem emitted_iff_failed (m : NgxStr) (hm : Spells m value) (hlen : 2 ≤ value.length)
    (held : List UInt8) (hne : k+1 ≠ value.length)
    (hrest : ∀ held, emitted m ⟨[],held⟩ (bs.drop k) =
        held.map some++marksFrom value 0 (bytes (bs.drop k)) ↔
      Clean value 0 (!held.isEmpty) (bs.drop k)) :
    emitted m ⟨[],held⟩ (b::bs) = held.map some++marksFrom value 0 (bytes (b::bs)) ↔
      k+1 ≤ bs.length ∧ (held ≠ [] → unmarked (bs.take (k+1)) = true) ∧
        (∀ t < k+1, 0 < t → ¬ StartsWith value (bytes ((b::bs).drop t))) ∧
        Clean value 0 (retried value (bs.drop k)) (bs.drop k) := by
  obtain ⟨-,hlooked,hsplit⟩ := failed_split value b bs k hk
  have hweight := weight_expected value b bs k hk held hlen
  obtain ⟨hle,hle'⟩ := matched_le value (bytes (b::bs))
  have hl : bytes ((b::bs).take (k+1)) ≠ [] := List.ne_nil_of_length_eq_add_one hlooked
  have hhidden := expected_hidden value b bs k hk
  have hplain := fun hs => expected_plain value b bs k hk hs hne
  have hstop := matched_stops value (bytes (b::bs))
  rw [hk] at hle hle' hstop
  rw [emitted_matched m value hm hlen held b bs k hk, if_neg hne]
  generalize hbody : bytes (b::bs) = body at *
  generalize hL : bytes ((b::bs).take (k+1)) = L at *
  rcases hrem : bs.drop k with _ | ⟨r,rs⟩
  · have hend : ¬ k+1 ≤ bs.length := by
      have := congrArg List.length hrem
      rw [List.length_drop, List.length_nil] at this
      omega
    refine iff_of_false (fun h => ?_) (fun h => hend h.1)
    rw [← h] at hweight
    simp only [emitted, weight] at hweight
    omega
  have hk1 : k+1 ≤ bs.length := by
    have := congrArg List.length hrem
    rw [List.length_drop, List.length_cons] at this
    omega
  have hunmarked : unmarked (bs.take (k+1)) = (unmarked (bs.take k) && !r.1) := by
    have htake : bs.take (k+1) = bs.take k++[r] := by
      rw [List.take_add, hrem]
      rfl
    rw [htake, unmarked, List.all_append, ← unmarked]
    simp
  rw [hrem, ← hm.len] at hweight
  rw [hrem] at hrest hplain
  have hr : ngxTolower r.2 ≠ m.data L.length := by
    have hdrop : body.drop (k+1) = r.2::bytes rs := by
      rw [← hbody, bytes, List.map_cons, List.drop_succ_cons, ← List.map_drop, hrem]
      rfl
    have hlt : k+1 < value.length := Nat.lt_of_le_of_ne hle hne
    rw [hlooked, hm.data (k+1) hlt]
    exact hstop r.2 (bytes rs) hlt hdrop
  rw [emitted_failed m value hm hlen _ r rs L hl hr]
  have hheavy : ∀ h : List UInt8, weight m.len (emitted m ⟨[],h⟩ (r::rs)) ≤
      h.length+(r::rs).length := by
    intro h
    have := weight_emitted m ⟨[],h⟩ (r::rs)
    rwa [List.length_nil, Nat.zero_add] at this
  by_cases hretry : retried value (r::rs)
  · have hmark : unmarked (bs.take (k+1)) = false := by
      rw [retried, Bool.and_eq_true] at hretry
      rw [hunmarked, hretry.1]
      simp
    rw [if_pos hretry, hretry]
    by_cases hh : held = []
    · subst hh
      by_cases hs : ∀ t < k+1, 0 < t → ¬ StartsWith value (bytes ((b::bs).drop t))
      · have hL1 : (!L.isEmpty) = true := by
          cases L with
          | nil => exact absurd rfl hl
          | cons c cs => rfl
        have := hrest L
        rw [hL1] at this
        rw [hplain hs, List.map_nil, List.nil_append, this]
        exact ⟨fun h => ⟨hk1,fun hne => absurd rfl hne,hs,h⟩,fun h => h.2.2.2⟩
      obtain ⟨t,ht,ts,hts⟩ := hhidden hs
      refine iff_of_false (fun h => ?_) (fun h => hs h.2.2.1)
      rcases held_first_or_lost m ⟨[],L⟩ (r::rs) with ⟨us,hus⟩ | hlost
      · rw [hus, hts, List.map_nil, List.nil_append] at h
        exact bytes_ne_hidden L body us ts t (by omega) (by omega) h
      rw [← h] at hweight
      simp only [List.length_nil, Nat.zero_add] at hlost hweight
      omega
    have hpos := List.length_pos_iff.mpr hh
    refine iff_of_false (fun h => ?_) (fun h => ?_)
    · have := hheavy L
      rw [← h] at hweight
      omega
    · have := h.2.1 hh
      rw [hmark] at this
      exact Bool.false_ne_true this
  have hkept : (if r.1 then [] else if unmarked (bs.take k) then held else []) =
      if unmarked (bs.take (k+1)) then held else [] := by
    rw [hunmarked]
    cases r.1 <;> cases unmarked (bs.take k) <;> rfl
  rw [if_neg hretry, hkept, Bool.not_eq_true] at *
  rw [hretry]
  by_cases hu : held ≠ [] ∧ unmarked (bs.take (k+1)) = false
  · have hpos := List.length_pos_iff.mpr hu.1
    refine iff_of_false (fun h => ?_) (fun h => ?_)
    · have := hheavy []
      rw [← h, hu.2, weight_append, weight_bytes] at hweight
      simp only [Bool.false_eq_true, if_false, List.nil_append, List.length_nil,
        Nat.zero_add] at hweight this
      rw [Waiting.idle] at hweight
      omega
    · have := h.2.1 hu.1
      rw [hu.2] at this
      exact Bool.false_ne_true this
  have hk' : (if unmarked (bs.take (k+1)) then held else []) = held := by
    by_cases hh : held = []
    · rw [hh, ite_self]
    have : unmarked (bs.take (k+1)) = true := by
      by_contra hf
      exact hu ⟨hh,by simpa using hf⟩
    rw [if_pos this]
  have hall : held ≠ [] → unmarked (bs.take (k+1)) = true := by
    intro hh
    by_contra hf
    exact hu ⟨hh,by simpa using hf⟩
  rw [hk', List.map_append, List.append_assoc, List.append_cancel_left_eq]
  by_cases hs : ∀ t < k+1, 0 < t → ¬ StartsWith value (bytes ((b::bs).drop t))
  · have := hrest []
    rw [List.map_nil, List.nil_append] at this
    rw [hplain hs, List.append_cancel_left_eq, Waiting.idle, this]
    exact ⟨fun h => ⟨hk1,hall,hs,h⟩,fun h => h.2.2.2⟩
  obtain ⟨t,ht,ts,hts⟩ := hhidden hs
  refine iff_of_false (fun h => ?_) (fun h => hs h.2.2.1)
  rw [hts] at h
  exact bytes_ne_hidden L body _ ts t (by omega) (by omega) h

end Failed

/-- From a position where a trial may begin, the filter puts out what it should
exactly when the rest is clean. -/
theorem emitted_iff (m : NgxStr) (value : List UInt8) (hm : Spells m value)
    (hlen : 2 ≤ value.length) (bs : List (Bool × UInt8)) (held : List UInt8) :
    emitted m ⟨[],held⟩ bs = held.map some++marksFrom value 0 (bytes bs) ↔
      Clean value 0 (!held.isEmpty) bs := by
  induction hn : bs.length using Nat.strongRecOn generalizing bs held with
  | ind n ih =>
    rcases bs with _ | ⟨b,bs⟩
    · cases held <;> simp [emitted, marksFrom, bytes, Clean]
    rw [List.length_cons] at hn
    have hrest : ∀ k held, emitted m ⟨[],held⟩ (bs.drop k) =
        held.map some++marksFrom value 0 (bytes (bs.drop k)) ↔
          Clean value 0 (!held.isEmpty) (bs.drop k) := fun k held =>
      ih _ (by rw [List.length_drop]; omega) (bs.drop k) held rfl
    rw [Clean]
    rcases hk : matched value (bytes (b::bs)) with _ | k
    · have hs : ¬ StartsWith value (b.2::bytes bs) := by
        have hm0 : matched value (b.2::bytes bs) = 0 := hk
        rw [starts_with_iff, hm0]
        omega
      have hnext := hrest 0 []
      rw [List.drop_zero, List.map_nil, List.nil_append] at hnext
      rw [emitted_unmatched m value hm hlen held b bs hk, bytes, List.map_cons, ← bytes,
        marksFrom, if_neg hs, Waiting.idle]
      simp only [List.map_append, List.map_cons, List.map_nil, List.append_assoc,
        List.singleton_append, List.append_cancel_left_eq, List.cons.injEq, true_and, hnext]
      rfl
    simp only [Nat.succ_ne_zero, if_false]
    by_cases hend : k+1 = value.length
    · have hs : StartsWith value (b.2::bytes bs) := by
        rw [starts_with_iff]
        exact hk.trans hend
      have hnext := hrest k []
      rw [List.map_nil, List.nil_append] at hnext
      rw [emitted_matched m value hm hlen held b bs k hk, if_pos hend, if_pos hend, bytes,
        List.map_cons, ← bytes, marksFrom, if_pos hs, marks_skip, ← hend, clean_skip,
        Nat.add_sub_cancel, Waiting.idle]
      cases held with
      | nil =>
        rw [List.map_nil, List.nil_append, List.cons.injEq, bytes, ← List.map_drop, ← bytes,
          hnext]
        simp
      | cons c cs => simp
    rw [emitted_iff_failed value b bs k hk m hm hlen held hend (hrest k), if_neg hend,
      Nat.add_sub_cancel, clean_skip value k]
    cases held <;> simp

theorem step_single (m : NgxStr) (h : m.len = 1) (w : Waiting) (b : Bool × UInt8) :
    none ∉ (step m w b).2 := by
  obtain ⟨looked,held⟩ := w
  obtain ⟨first,c⟩ := b
  by_cases hl : looked = []
  · subst hl
    by_cases hz : ngxTolower c = m.data 0
    · simp [step_begin m c first held hz]
    · simp [step_plain m c first held hz]
  have hlen : looked.length+1 ≠ m.len := by
    have := List.length_pos_iff.mpr hl
    omega
  by_cases hc : ngxTolower c = m.data looked.length
  · simp [step_longer m c first looked held hl hc hlen]
  by_cases hz : ngxTolower c = m.data 0
  · rw [step_again m c first looked held hl hc hz]
    cases first <;> simp
  · simp [step_fail m c first looked held hl hc hz]

theorem emitted_single (m : NgxStr) (h : m.len = 1) (w : Waiting) (bs : List (Bool × UInt8)) :
    none ∉ emitted m w bs := by
  induction bs generalizing w with
  | nil => exact List.not_mem_nil
  | cons b bs ih =>
    rw [emitted, List.mem_append]
    exact fun hm => hm.elim (step_single m h w b) (ih _)

theorem emitted_iff_single (m : NgxStr) (v : UInt8) (hm : Spells m [v])
    (bs : List (Bool × UInt8)) :
    emitted m .idle bs = marksFrom [v] 0 (bytes bs) ↔
      ∀ b ∈ bs, ngxTolower b.2 ≠ ngxTolower v := by
  induction bs with
  | nil => simp [emitted, marksFrom, bytes]
  | cons b bs ih =>
    have hz : m.data 0 = ngxTolower v := hm.data 0 (Nat.zero_lt_one)
    have hstart : StartsWith [v] (b.2::bytes bs) ↔ ngxTolower b.2 = ngxTolower v := by
      simp [StartsWith]
    rw [bytes, List.map_cons, ← bytes, marksFrom, List.forall_mem_cons]
    by_cases hb : ngxTolower b.2 = ngxTolower v
    · rw [if_pos (hstart.mpr hb)]
      refine iff_of_false (fun h => ?_) (fun h => h.1 hb)
      exact emitted_single m hm.len .idle (b::bs) (by rw [h]; exact List.mem_cons_self)
    rw [if_neg (fun h => hb (hstart.mp h)), emitted, Waiting.idle,
      step_plain m b.2 b.1 [] (by rwa [hz])]
    simp only [List.nil_append, List.map_cons, List.map_nil, List.singleton_append,
      List.cons.injEq, true_and]
    exact ih.trans ⟨fun h => ⟨hb,h⟩,fun h => h.2⟩

/-- The bodies, cut into buffers, that come out right for every replacement. -/
def Faithful (value : List UInt8) (body : List (Bool × UInt8)) : Prop :=
  if value.length = 1 then ∀ b ∈ body, matched value [b.2] = 0 else Clean value 0 false body

instance (value : List UInt8) (body : List (Bool × UInt8)) : Decidable (Faithful value body) :=
  inferInstanceAs (Decidable
    (if value.length = 1 then ∀ b ∈ body, matched value [b.2] = 0 else Clean value 0 false body))

theorem bytes_marked (first : Bool) (cs : List UInt8) : bytes (marked first cs) = cs := by
  induction cs generalizing first with
  | nil => rfl
  | cons c cs ih => rw [marked, bytes, List.map_cons, ← bytes, ih]

theorem bytes_body (bufs : List Buf) : bytes (bodyOf bufs) = bufs.flatMap Buf.data := by
  induction bufs with
  | nil => rfl
  | cons buf bufs ih =>
    rw [bodyOf, List.flatMap_cons, ← bodyOf, bytes, List.map_append, ← bytes, ← bytes, ih,
      bytes_marked, List.flatMap_cons]

/-- For a match string, a body and its cuts, the output is the body with its
occurrences replaced, whatever the replacement, exactly when the body is faithful. -/
theorem sub_filter_law (value : List UInt8) (behind : ℕ → UInt8) (calls : List (List Buf))
    (hne : value ≠ []) :
    (∀ sub, output sub (runCalls false (newCtx value behind) calls) =
        replaceAll value sub (calls.flatten.flatMap Buf.data)) ↔
      Faithful value (bodyOf calls.flatten) := by
  have hm := new_spells value behind
  have htokens : (∀ sub, output sub (runCalls false (newCtx value behind) calls) =
      replaceAll value sub (calls.flatten.flatMap Buf.data)) ↔
      emitted (newCtx value behind).match' .idle (bodyOf calls.flatten) =
        marksFrom value 0 (bytes (bodyOf calls.flatten)) := by
    rw [bytes_body]
    refine ⟨fun h => render_injective _ _ (fun sub => ?_),fun h sub => ?_⟩
    · rw [← run_output, h sub, render_marks, replaceAll]
    · rw [run_output, h, render_marks, replaceAll]
  rw [htokens, Faithful]
  split_ifs with hone
  · obtain ⟨v,rfl⟩ := List.length_eq_one_iff.mp hone
    rw [emitted_iff_single _ v hm]
    simp [matched]
  · have hpos := List.length_pos_iff.mpr hne
    exact emitted_iff _ value hm (by omega) (bodyOf calls.flatten) []

/-- "xA" and "by" in one call, "AB" in the next. -/
theorem sub_filter_law_cut :
    output [122] (runCalls false (newCtx [97,98] (fun _ => 0))
        [[⟨[120,65],false⟩, ⟨[98,121],false⟩], [⟨[65,66],true⟩]]) =
      replaceAll [97,98] [122] [120,65,98,121,65,66] :=
  (sub_filter_law [97,98] (fun _ => 0)
    [[⟨[120,65],false⟩, ⟨[98,121],false⟩], [⟨[65,66],true⟩]] (by decide)).mpr (by decide) [122]

/-- "aab" in "aaab". -/
theorem occurrence_missed :
    ¬ ∀ (value : List UInt8) (behind : ℕ → UInt8) (calls : List (List Buf)) (sub : List UInt8),
      value ≠ [] → output sub (runCalls false (newCtx value behind) calls) =
        replaceAll value sub (calls.flatten.flatMap Buf.data) := by
  intro h
  have := h [97,97,98] (fun _ => 0) [[⟨[97,97,97,98],true⟩]] [] (by decide)
  revert this
  decide

end Nginx.SubFilterLaw
