import Nginx.ResolverCopy

/-!
# What the copy of a name reads and writes

Both loops go along the same walk. The measure counts a byte for each label
besides its text, less one, and the copy writes a dot behind each label that no
zero byte follows. They differ by the dot of the last label, which is written when
a pointer stands between it and the zero byte.
-/

set_option autoImplicit false

namespace Nginx.ResolverCopyLaw
open Nginx.ResolverCopy

section Walk
variable (buf : ℕ → UInt8) (last : ℕ)

def readAt (p : ℕ) : List ℕ := if IsPointer (buf p).toNat then [p, p+1] else [p]

def cost (p : ℕ) : ℤ := if IsPointer (buf p).toNat then 0 else 1+(buf p).toNat

def costs (ps : List ℕ) : ℤ := (ps.map (cost buf)).sum

theorem pointer_zero : ¬IsPointer (0 : UInt8).toNat := by decide

theorem zero_iff (c : UInt8) : c.toNat = 0 ↔ c = 0 :=
  ⟨fun h => UInt8.toNat_inj.mp h,fun h => h ▸ rfl⟩

theorem trail_in (i p : ℕ) (hp : p < last) : ∀ q ∈ trail buf last i p, q < last := by
  induction i generalizing p with
  | zero => exact fun q hq => (by cases hq)
  | succ i ih =>
    intro q hq
    rw [trail, List.mem_cons] at hq
    rcases hq with rfl | hq
    · exact hp
    split_ifs at hq with h
    · cases hq
    · exact ih _ (not_le.mp (not_or.mp h).2) q hq

theorem trail_length (i p : ℕ) : (trail buf last i p).length ≤ i := by
  induction i generalizing p with
  | zero => exact le_rfl
  | succ i ih =>
    rw [trail, List.length_cons]
    split_ifs
    · simp
    · have := ih (next buf p)
      omega

theorem trail_cons {i p q : ℕ} {t : List ℕ} (h : trail buf last i p = q::t) : p = q := by
  rcases i with _ | i
  · cases h
  · exact (List.cons.inj h).1

theorem trail_next {i p q r : ℕ} {t : List ℕ} (h : trail buf last i p = q::r::t) :
    p = q ∧ r = next buf p ∧ buf p ≠ 0 ∧ next buf p < last ∧
      ∃ j, trail buf last j (next buf p) = r::t := by
  rcases i with _ | i
  · cases h
  obtain ⟨hq,ht⟩ := List.cons.inj h
  split_ifs at ht with hend
  obtain ⟨h1,h2⟩ := not_or.mp hend
  exact ⟨hq,(trail_cons buf last ht).symm,h1,not_le.mp h2,i,ht⟩

theorem measure_step (i p : ℕ) (len : ℤ) : measureName buf last (i+1) p len =
    if buf p = 0 then (readAt buf p, .ok len)
    else if last ≤ next buf p then (readAt buf p, .error .outOfResponse)
    else (readAt buf p++(measureName buf last i (next buf p) (len+cost buf p)).1,
      (measureName buf last i (next buf p) (len+cost buf p)).2) := by
  rw [measureName]
  simp only [zero_iff]
  by_cases hz : buf p = 0
  · rw [if_pos hz, if_pos hz, readAt, hz, if_neg pointer_zero]
  rw [if_neg hz, if_neg hz]
  by_cases hp : IsPointer (buf p).toNat
  · simp only [if_pos hp, next, readAt, cost, add_zero]
  · simp only [if_neg hp, next, readAt, cost, add_assoc]

theorem measure_reads (i p : ℕ) (len : ℤ) :
    (measureName buf last i p len).1 = (trail buf last i p).flatMap (readAt buf) := by
  induction i generalizing p len with
  | zero => rfl
  | succ i ih =>
    rw [measure_step, trail, List.flatMap_cons]
    by_cases hz : buf p = 0
    · rw [if_pos hz, if_pos (.inl hz)]
      simp
    by_cases ho : last ≤ next buf p
    · rw [if_neg hz, if_pos ho, if_pos (.inr ho)]
      simp
    · rw [if_neg hz, if_neg ho, if_neg (not_or.mpr ⟨hz,ho⟩), ih]

theorem measure_length (i p : ℕ) (len : ℤ) :
    (∃ front z, trail buf last i p = front++[z] ∧ buf z = 0 ∧
      (measureName buf last i p len).2 = .ok (len+costs buf front)) ∨
    (∃ e, (measureName buf last i p len).2 = .error e) ∧
      ∀ front z, trail buf last i p = front++[z] → buf z ≠ 0 := by
  induction i generalizing p len with
  | zero => exact .inr ⟨⟨_,rfl⟩,fun front z h => by simp [trail] at h⟩
  | succ i ih =>
    rw [measure_step, trail]
    by_cases hz : buf p = 0
    · rw [if_pos hz, if_pos (.inl hz)]
      exact .inl ⟨[],p,rfl,hz,by simp [costs]⟩
    by_cases ho : last ≤ next buf p
    · rw [if_neg hz, if_pos ho, if_pos (.inr ho)]
      refine .inr ⟨⟨_,rfl⟩,fun front z h => ?_⟩
      rcases front with _ | ⟨q,front⟩
      · cases h
        exact hz
      · simp at h
    rw [if_neg hz, if_neg ho, if_neg (not_or.mpr ⟨hz,ho⟩)]
    rcases ih (next buf p) (len+cost buf p) with ⟨front,z,ht,hzero,hm⟩ | ⟨he,hno⟩
    · refine .inl ⟨p::front,z,congrArg (p::·) ht,hzero,?_⟩
      rw [hm, costs, costs, List.map_cons, List.sum_cons, add_assoc]
    refine .inr ⟨he,fun front z h => ?_⟩
    rcases front with _ | ⟨q,front⟩
    · exact (List.cons.inj h).1 ▸ hz
    · exact hno front z (List.cons.inj h).2

/-! ## Copying -/

def copiedAt (p : ℕ) : List ℕ :=
  if IsPointer (buf p).toNat then [p+1, next buf p]
  else List.range' (p+1) (buf p).toNat++[next buf p]

def labelAt (p : ℕ) : List UInt8 :=
  if IsPointer (buf p).toNat then [] else (List.range' (p+1) (buf p).toNat).map buf

def dotAt (p : ℕ) : List UInt8 := if IsPointer (buf p).toNat then [] else [46]

theorem copy_step (fuel p : ℕ) : copyName buf (fuel+1) (buf p).toNat (p+1) =
    if buf (next buf p) = 0 then some (copiedAt buf p, labelAt buf p)
    else (copyName buf fuel (buf (next buf p)).toNat (next buf p+1)).map fun rest =>
      (copiedAt buf p++rest.1, labelAt buf p++dotAt buf p++rest.2) := by
  rw [copyName]
  simp only [zero_iff]
  by_cases hp : IsPointer (buf p).toNat
  · simp only [if_pos hp, next, copiedAt, labelAt, dotAt, List.nil_append]
  · simp only [if_neg hp, next, copiedAt, labelAt, dotAt]

theorem label_dot_length (p : ℕ) :
    ((labelAt buf p++dotAt buf p).length : ℤ) = cost buf p := by
  rw [labelAt, dotAt, cost]
  split_ifs with hp
  · rfl
  · simp
    omega

theorem label_length (p : ℕ) : ((labelAt buf p).length : ℤ) =
    cost buf p-if IsPointer (buf p).toNat then 0 else 1 := by
  rw [labelAt, cost]
  split_ifs with hp
  · rfl
  · simp

theorem copied_in (p : ℕ) (h : next buf p < last) :
    ∀ r ∈ copiedAt buf p, r < last ∨ IsPointer (buf p).toNat ∧ r = p+1 := by
  intro r hr
  rw [copiedAt] at hr
  by_cases hp : IsPointer (buf p).toNat
  · rw [if_pos hp] at hr
    rcases List.mem_cons.mp hr with rfl | hr
    · exact .inr ⟨hp,rfl⟩
    · rw [List.mem_singleton] at hr
      exact .inl (hr ▸ h)
  rw [if_neg hp, List.mem_append, List.mem_range'_1, List.mem_singleton] at hr
  have hn : next buf p = p+1+(buf p).toNat := if_neg hp
  omega

/-- The copy goes along the walk and reads nothing else than it; it writes a dot behind each
label but the last one, and behind that one too when it is no label that ends the name. -/
theorem copy_trail (i p a z fuel : ℕ) (front : List ℕ)
    (ht : trail buf last i p = front++[a, z]) (hz : buf z = 0) (hf : front.length < fuel) :
    ∃ reads data, copyName buf fuel (buf p).toNat (p+1) = some (reads, data) ∧
      (∀ r ∈ reads, r < last ∨ ∃ q ∈ front++[a], IsPointer (buf q).toNat ∧ r = q+1) ∧
      (data.length : ℤ) = costs buf (front++[a])-if IsPointer (buf a).toNat then 0 else 1 := by
  induction front generalizing i p fuel with
  | nil =>
    obtain ⟨rfl,hnext,-,hin,-⟩ := trail_next buf last ht
    rcases fuel with _ | fuel
    · omega
    rw [copy_step, ← hnext, if_pos hz]
    refine ⟨_,_,rfl,fun r hr => ?_,?_⟩
    · rcases copied_in buf last p hin r hr with h | ⟨hp,h⟩
      · exact .inl h
      · exact .inr ⟨p,by simp,hp,h⟩
    · rw [label_length]
      simp [costs]
  | cons b front ih =>
    rcases hfr : front++[a, z] with _ | ⟨c,t⟩
    · simp at hfr
    rw [List.cons_append, hfr] at ht
    obtain ⟨rfl,hnext,-,hin,j,hj⟩ := trail_next buf last ht
    rcases fuel with _ | fuel
    · omega
    have hc : buf (next buf p) ≠ 0 := by
      rw [← hnext]
      rcases t with _ | ⟨d,t⟩
      · rcases front with _ | ⟨e,front⟩ <;> simp at hfr
      · exact hnext ▸ (trail_next buf last hj).2.2.1
    rw [List.length_cons] at hf
    obtain ⟨reads,data,hrun,hreads,hlen⟩ :=
      ih j (next buf p) fuel (by rw [hj, hfr]) (by omega)
    rw [copy_step, if_neg hc, hrun]
    refine ⟨_,_,rfl,fun r hr => ?_,?_⟩
    · rcases List.mem_append.mp hr with hr | hr
      · rcases copied_in buf last p hin r hr with h | ⟨hp,h⟩
        · exact .inl h
        · exact .inr ⟨p,by simp,hp,h⟩
      rcases hreads r hr with h | ⟨q,hq,hp,h⟩
      · exact .inl h
      · exact .inr ⟨q,List.mem_cons_of_mem p hq,hp,h⟩
    · have hdot := label_dot_length buf p
      rw [List.length_append, Nat.cast_add, hdot, hlen]
      simp only [costs, List.cons_append, List.map_cons, List.sum_cons]
      exact (add_sub_assoc _ _ _).symm

theorem costs_nonneg (ps : List ℕ) : 0 ≤ costs buf ps := by
  apply List.sum_nonneg
  intro z hz
  obtain ⟨p,-,rfl⟩ := List.mem_map.mp hz
  rw [cost]
  split_ifs <;> omega

theorem costs_zero_iff (ps : List ℕ) :
    costs buf ps = 0 ↔ ∀ p ∈ ps, IsPointer (buf p).toNat := by
  induction ps with
  | nil => simp [costs]
  | cons p ps ih =>
    have hrest := costs_nonneg buf ps
    have hsum : costs buf (p::ps) = cost buf p+costs buf ps := rfl
    rw [hsum, List.forall_mem_cons, ← ih]
    by_cases hp : IsPointer (buf p).toNat
    · rw [cost, if_pos hp, zero_add]
      simp [hp]
    rw [cost, if_neg hp]
    constructor
    · omega
    · exact fun h => absurd h.1 hp

theorem whole_iff (src : ℕ) (hsrc : src < last) :
    (∀ p ∈ (trail buf last 128 src).flatMap (readAt buf), p < last) ↔ Whole buf last src := by
  have hin := trail_in buf last 128 src hsrc
  constructor
  · intro h p hp hptr
    refine h (p+1) (List.mem_flatMap.mpr ⟨p,hp,?_⟩)
    rw [readAt, if_pos hptr]
    simp
  · intro h r hr
    obtain ⟨p,hp,hr⟩ := List.mem_flatMap.mp hr
    rw [readAt] at hr
    split_ifs at hr with hptr
    · rcases List.mem_cons.mp hr with rfl | hr
      · exact hin r hp
      · exact (List.mem_singleton.mp hr) ▸ h p hp hptr
    · exact (List.mem_singleton.mp hr) ▸ hin p hp

theorem plain_iff (src a z : ℕ) (front : List ℕ) (ht : trail buf last 128 src = front++[a, z])
    (hz : buf z = 0) (hc : costs buf (front++[a]) ≠ 0) :
    Plain buf last src ↔ ¬IsPointer (buf a).toNat := by
  constructor
  · intro h hp
    refine hc ((costs_zero_iff buf _).mpr fun q hq => ?_)
    rcases List.mem_append.mp hq with hq | hq
    · exact h front a z ht hz hp q hq
    · exact (List.mem_singleton.mp hq) ▸ hp
  · intro h f p z' ht' _ hp
    have hsplit : front++[a, z] = f++[p, z'] := ht.symm.trans ht'
    have hpair := (List.append_inj' hsplit rfl).2
    exact absurd hp ((List.cons.inj hpair).1 ▸ h)

end Walk

/-- Copying ends, and it stays within the response and the block if and only if every pointer
of the walk has both its bytes in the response and, when a name is copied, its end stands
behind a label. -/
theorem copy_in_bounds (fuel : ℕ) (hfuel : 128 ≤ fuel) (named allocated : Bool) (buf : ℕ → UInt8)
    (src last : ℕ) (hsrc : src < last) :
    ∃ o, ngxResolverCopy fuel named allocated buf src last = some o ∧
      (InBounds last o ↔ Whole buf last src ∧
        (named = true → allocated = true → Plain buf last src)) := by
  have hreads := measure_reads buf last 128 src (-1)
  have hwhole := whole_iff buf last src hsrc
  rw [← hreads] at hwhole
  rw [ngxResolverCopy]
  rcases hm : measureName buf last 128 src (-1) with ⟨reads,r⟩
  rw [hm] at hwhole
  rcases measure_length buf last 128 src (-1) with ⟨front,z,ht,hz,hlen⟩ | ⟨⟨e,he⟩,hno⟩
  · rw [hm] at hlen
    subst hlen
    -- a name that is not copied, or is empty, or finds no block
    have hnone (o : Outcome) (hr : o.reads = reads) (hd : o.data = []) (ha : o.alloc = none)
        (hn : ∀ n, o.nameLen = some n → n = 0)
        (hp : named = true → allocated = true → Plain buf last src) :
        InBounds last o ↔ Whole buf last src ∧
          (named = true → allocated = true → Plain buf last src) := by
      rw [← hwhole]
      constructor
      · exact fun h => ⟨hr ▸ h.reads,hp⟩
      · refine fun h => ⟨hr ▸ h.1,fun _ => by simp [hd, ha],fun _ n hnl => ?_⟩
        simp [hn n hnl, ha]
    rcases named with _ | _
    · exact ⟨_,rfl,hnone _ rfl rfl rfl (fun n h => (by cases h)) fun h => (by cases h)⟩
    by_cases hc : costs buf front = 0
    · have hl : (-1 : ℤ)+costs buf front = -1 := by omega
      dsimp only
      rw [if_neg (by decide), if_pos hl]
      refine ⟨_,rfl,hnone _ rfl rfl rfl (fun n h => (Option.some.inj h).symm) fun _ _ => ?_⟩
      intro f p z' ht' _ _ q hq
      have hsplit : front++[z] = (f++[p])++[z'] := by
        rw [← ht, ht']
        simp
      have hf := (List.append_inj' hsplit rfl).1
      exact (costs_zero_iff buf front).mp hc q (hf ▸ List.mem_append_left _ hq)
    have hl : ¬(-1 : ℤ)+costs buf front = -1 := by omega
    dsimp only
    rw [if_neg (by decide), if_neg hl]
    rcases allocated with _ | _
    · exact ⟨_,rfl,hnone _ rfl rfl rfl (fun n h => (by cases h)) fun _ h => (by cases h)⟩
    obtain ⟨f,a,rfl⟩ : ∃ f a, front = f++[a] := by
      rcases List.eq_nil_or_concat front with rfl | ⟨f,a,h⟩
      · exact absurd rfl hc
      · exact ⟨f,a,by simpa using h⟩
    have ht' : trail buf last 128 src = f++[a, z] := by simpa using ht
    have hshort : f.length < fuel := by
      have := trail_length buf last 128 src
      rw [ht', List.length_append, List.length_cons] at this
      omega
    obtain ⟨rs,data,hrun,hrs,hdata⟩ := copy_trail buf last 128 src a z fuel f ht' hz hshort
    rw [hrun]
    refine ⟨_,rfl,?_⟩
    rw [← hwhole, plain_iff buf last src a z f ht' hz hc]
    constructor
    · intro h
      refine ⟨fun p hp => h.reads p (by simp [hp]),fun _ _ hp => ?_⟩
      have := h.data rfl
      simp only [Option.getD_some] at this
      rw [hdata, if_pos hp] at this
      omega
    · rintro ⟨hw,hp⟩
      have hle : (data.length : ℤ) ≤ -1+costs buf (f++[a]) := by
        rw [hdata, if_neg (hp rfl rfl)]
        omega
      refine ⟨fun p hp' => ?_,fun _ => hle,fun _ n hn => ?_⟩
      · simp only [List.mem_append, List.mem_singleton] at hp'
        rcases hp' with (hp' | rfl) | hp'
        · exact hw p hp'
        · exact hsrc
        rcases hrs p hp' with h | ⟨q,hq,hptr,rfl⟩
        · exact h
        · exact hwhole.mp hw q (by rw [ht]; exact List.mem_append_left _ hq) hptr
      · rw [← Option.some.inj hn]
        exact hle
  rw [hm] at he
  subst he
  refine ⟨_,rfl,?_⟩
  rw [← hwhole]
  constructor
  · exact fun h => ⟨h.reads,fun _ _ f p z ht hz => absurd hz (hno (f++[p]) z (by rw [ht]; simp))⟩
  · exact fun h => ⟨h.1,fun hok => (by cases hok),fun hok => (by cases hok)⟩

/-- A response of 16 bytes with the name `a` at its end, whose terminating zero byte is reached
through a pointer -/
def endsInPointer (p : ℕ) : UInt8 := [0,0,0,0,0,0,0,0,0,0,0,0,1,97,192,0].getD p 0

theorem copy_in_bounds_pointer :
    ∃ o, ngxResolverCopy 128 true true endsInPointer 12 16 = some o ∧
      (InBounds 16 o ↔ Whole endsInPointer 16 12 ∧
        (true = true → true = true → Plain endsInPointer 16 12)) :=
  copy_in_bounds 128 le_rfl true true endsInPointer 12 16 (by decide)

/-- One byte is allocated for the name `a`, and `a.` is written. -/
theorem copy_overflow : ∃ o, ngxResolverCopy 128 true true endsInPointer 12 16 = some o ∧
    o.rc = .ok ∧ o.alloc = some 1 ∧ o.data = [97,46] ∧ o.nameLen = some 2 ∧ ¬InBounds 16 o :=
  ⟨⟨.ok,[12,14,15,0,12,13,14,15,0],some 1,[97,46],some 2⟩,by decide,rfl,rfl,
    rfl,rfl,fun h => absurd (h.data rfl) (by decide)⟩

end Nginx.ResolverCopyLaw
