import Mathlib.Data.List.Nodup
import Mathlib.Logic.Relation
import Mathlib.Logic.Function.Basic

/-!
# Texts with texts inside

A numbered text is a list of pieces and of references to texts of higher numbers. Written out
from the front, with a mark where each text ends, what is added to a text comes right before its
mark, and what is taken off the text that the writing is at comes off the front.
-/

set_option autoImplicit false

namespace Nginx.Outline

inductive Item (B : Type) where
  | text (bs : List B)
  | sub (r : ℕ)
  deriving DecidableEq

inductive Token (B : Type) where
  | piece (b : B)
  | close (r : ℕ)
  deriving DecidableEq

variable {B : Type}

/-- The text `r` written out, as deep as `n`. -/
def flat (items : ℕ → List (Item B)) : ℕ → ℕ → List (Token B)
  | 0, r => [.close r]
  | n+1, r =>
    (items r).flatMap (fun i => match i with
      | .text bs => bs.map .piece
      | .sub c => flat items n c)++[.close r]

def tokens (items : ℕ → List (Item B)) (n : ℕ) : Item B → List (Token B)
  | .text bs => bs.map .piece
  | .sub c => flat items n c

theorem flat_succ (items : ℕ → List (Item B)) (n r : ℕ) :
    flat items (n+1) r = (items r).flatMap (tokens items n)++[.close r] := by
  rw [flat]
  congr 2

def pieces (l : List (Token B)) : List B :=
  l.filterMap (fun t => match t with
    | .piece b => some b
    | .close _ => none)

def closes (l : List (Token B)) : List ℕ :=
  l.filterMap (fun t => match t with
    | .piece _ => none
    | .close r => some r)

@[simp] theorem pieces_append (l t : List (Token B)) : pieces (l++t) = pieces l++pieces t :=
  List.filterMap_append

@[simp] theorem closes_append (l t : List (Token B)) : closes (l++t) = closes l++closes t :=
  List.filterMap_append

@[simp] theorem pieces_map (bs : List B) : pieces (bs.map .piece) = bs := by
  simp [pieces, List.filterMap_map]

@[simp] theorem closes_map (bs : List B) : closes (bs.map .piece) = [] := by
  simp [closes]

theorem mem_closes (l : List (Token B)) (r : ℕ) : r ∈ closes l ↔ .close r ∈ l := by
  rw [closes, List.mem_filterMap]
  constructor
  · rintro ⟨t,ht,h⟩
    cases t <;> cases h
    exact ht
  · exact fun h => ⟨_,h,rfl⟩

theorem close_mem (items : ℕ → List (Item B)) (n r : ℕ) : .close r ∈ flat items n r := by
  cases n with
  | zero => exact List.mem_singleton_self _
  | succ n =>
    rw [flat_succ]
    exact List.mem_append_right _ (List.mem_singleton_self _)

/-- References go to higher numbers below `N`. -/
def Below (items : ℕ → List (Item B)) (N : ℕ) : Prop :=
  ∀ r c, .sub c ∈ items r → r < c ∧ c < N

/-- `ts` put in right before the mark of `r` -/
def plant (r : ℕ) (ts l : List (Token B)) : List (Token B) :=
  l.flatMap (fun t => match t with
    | .piece b => [.piece b]
    | .close x => if x = r then ts++[.close x] else [.close x])

section Plant
variable (r : ℕ) (ts : List (Token B))

theorem plant_append (l t : List (Token B)) :
    plant r ts (l++t) = plant r ts l++plant r ts t := List.flatMap_append

theorem plant_map (bs : List B) : plant r ts (bs.map .piece) = bs.map .piece := by
  induction bs with
  | nil => rfl
  | cons b bs ih => exact congrArg (.piece b :: ·) ih

theorem plant_absent (l : List (Token B)) (h : .close r ∉ l) : plant r ts l = l := by
  induction l with
  | nil => rfl
  | cons t l ih =>
    have htail := ih (fun hm => h (List.mem_cons_of_mem _ hm))
    rw [← List.singleton_append, plant_append, htail]
    congr 1
    cases t with
    | piece b => rfl
    | close x =>
      have hx : x ≠ r := fun hx => h (hx ▸ List.mem_cons_self)
      simp [plant, hx]

theorem plant_close : plant r ts [.close r] = ts++[.close r] := by
  simp [plant]

theorem mem_plant (l : List (Token B)) (t : Token B) :
    t ∈ plant r ts l ↔ t ∈ l ∨ t ∈ ts ∧ .close r ∈ l := by
  induction l with
  | nil => simp [plant]
  | cons x l ih =>
    rw [← List.singleton_append, plant_append, List.mem_append, ih]
    cases x with
    | piece b => simp [plant]; tauto
    | close x =>
      by_cases hx : x = r
      · subst hx
        rw [plant_close]
        simp
        tauto
      · rw [plant_absent r ts [.close x] (by simpa using Ne.symm hx)]
        simp [Ne.symm hx]
        tauto

theorem closes_plant (l : List (Token B)) (hts : (closes ts).Nodup)
    (hnew : ∀ x ∈ closes ts, x ∉ closes l) (h : (closes l).Nodup) :
    (closes (plant r ts l)).Nodup := by
  by_cases hr : Token.close r ∈ l
  · obtain ⟨a,b,rfl⟩ := List.append_of_mem hr
    have hsplit : closes (a++.close r::b) = closes a++(r::closes b) := by
      rw [closes_append]
      rfl
    rw [hsplit] at h hnew
    have hna : Token.close r ∉ a := fun hm =>
      (List.disjoint_of_nodup_append h) ((mem_closes a r).mpr hm) List.mem_cons_self
    have hnb : Token.close r ∉ b := fun hm =>
      (List.nodup_cons.mp h.of_append_right).1 ((mem_closes b r).mpr hm)
    rw [← List.singleton_append, plant_append, plant_append, plant_absent r ts a hna,
      plant_absent r ts b hnb, plant_close, List.append_assoc, closes_append, closes_append,
      List.singleton_append]
    refine (List.perm_append_comm_assoc _ _ _).nodup_iff.mpr ?_
    exact List.nodup_append.mpr ⟨hts,h,fun x hx y hy hxy => hnew x hx (hxy ▸ hy)⟩
  · rwa [plant_absent r ts l hr]

end Plant

section Flat
variable (items items' : ℕ → List (Item B)) (N : ℕ) (hbelow : Below items N)
include hbelow

theorem flat_grow (r : ℕ) (ts : List (Token B)) (hr : r < N)
    (hother : ∀ x, x ≠ r → items' x = items x)
    (hown : ∀ n, (items' r).flatMap (tokens items' n) = (items r).flatMap (tokens items' n)++ts)
    (n x : ℕ) (hn : N ≤ x+n) : flat items' n x = plant r ts (flat items n x) := by
  induction n generalizing x with
  | zero =>
    have hx : x ≠ r := by omega
    exact (plant_absent r ts _ (by simpa [flat] using Ne.symm hx)).symm
  | succ n ih =>
    have hsame : (items x).flatMap (tokens items' n) =
        plant r ts ((items x).flatMap (tokens items n)) := by
      rw [plant, List.flatMap_assoc]
      refine List.flatMap_congr (fun i hi => ?_)
      cases i with
      | text bs => exact (plant_map r ts bs).symm
      | sub c => exact ih c (by have := (hbelow x c hi).1; omega)
    rw [flat_succ, flat_succ, plant_append, ← hsame]
    rcases eq_or_ne x r with rfl | hx
    · rw [hown, plant_close, List.append_assoc]
    · rw [hother x hx, plant_absent r ts [.close x] (by simpa using Ne.symm hx)]

omit hbelow in
theorem flat_frame (p n x : ℕ) (is : List (Item B)) (h : .close p ∉ flat items n x) :
    flat (Function.update items p is) n x = flat items n x := by
  induction n generalizing x with
  | zero => rfl
  | succ n ih =>
    have hx : x ≠ p := fun hx => h (hx ▸ close_mem items (n+1) x)
    rw [flat_succ, List.mem_append, not_or] at h
    rw [flat_succ, flat_succ, Function.update_of_ne hx]
    congr 1
    refine List.flatMap_congr (fun i hi => ?_)
    cases i with
    | text bs => rfl
    | sub c => exact ih c (fun hc => h.1 (List.mem_flatMap.mpr ⟨_,hi,hc⟩))

theorem close_lt (n x y : ℕ) (hx : x < N) (h : .close y ∈ flat items n x) : y < N := by
  induction n generalizing x with
  | zero =>
    cases List.mem_singleton.mp h
    exact hx
  | succ n ih =>
    rw [flat_succ, List.mem_append, List.mem_singleton] at h
    rcases h with h | h
    · obtain ⟨i,hi,hy⟩ := List.mem_flatMap.mp h
      cases i with
      | text bs => simp [tokens] at hy
      | sub c => exact ih c (hbelow x c hi).2 hy
    · cases h
      exact hx

/-- `c` is the first thing in `r`. -/
def Head (items : ℕ → List (Item B)) (r c : ℕ) : Prop := ∃ t, items r = .sub c::t

def Leads (items : ℕ → List (Item B)) : ℕ → ℕ → Prop := Relation.ReflTransGen (Head items)

omit hbelow in
theorem tail_frame (p n : ℕ) (t is : List (Item B)) (h : .close p ∉ t.flatMap (tokens items n)) :
    t.flatMap (tokens (Function.update items p is) n) = t.flatMap (tokens items n) := by
  refine List.flatMap_congr (fun i hi => ?_)
  cases i with
  | text bs => rfl
  | sub c => exact flat_frame items p n c is (fun hc => h (List.mem_flatMap.mpr ⟨_,hi,hc⟩))

theorem leads_le (x p : ℕ) (h : Leads items x p) : x ≤ p := by
  induction h with
  | refl => exact Nat.le_refl x
  | tail _ hhead ih =>
    obtain ⟨t,ht⟩ := hhead
    have := (hbelow _ _ (ht ▸ List.mem_cons_self)).1
    omega

theorem leads_mem (x p n : ℕ) (h : Leads items x p) (hp : p < N) (hn : N ≤ x+n) :
    .close p ∈ flat items n x := by
  induction h using Relation.ReflTransGen.head_induction_on generalizing n with
  | refl => exact close_mem items n p
  | head hhead hrest ih =>
    obtain ⟨t,ht⟩ := hhead
    rename_i x c
    have hc := (hbelow x c (ht ▸ List.mem_cons_self)).1
    have hle := leads_le items N hbelow c p hrest
    obtain ⟨n,rfl⟩ := Nat.exists_eq_add_one.mpr (show 0 < n by omega)
    rw [flat_succ, ht, List.flatMap_cons]
    exact List.mem_append_left _ (List.mem_append_left _ (ih n (by omega)))

theorem flat_take (x p n : ℕ) (i : Item B) (t : List (Item B)) (h : Leads items x p)
    (hi : items p = i::t) (hp : p < N) (hn : N ≤ x+n) (hnodup : (closes (flat items n x)).Nodup) :
    ∃ m, N ≤ p+1+m ∧
      flat items n x = tokens items m i++flat (Function.update items p t) n x := by
  induction h using Relation.ReflTransGen.head_induction_on generalizing n with
  | refl =>
    obtain ⟨m,rfl⟩ := Nat.exists_eq_add_one.mpr (show 0 < n by omega)
    refine ⟨m,by omega,?_⟩
    rw [flat_succ, hi, List.flatMap_cons, closes_append, closes_append] at hnodup
    have hout : Token.close p ∉ t.flatMap (tokens items m) := fun hm =>
      (List.disjoint_of_nodup_append hnodup)
        (List.mem_append_right _ ((mem_closes _ p).mpr hm)) (by simp [closes])
    rw [flat_succ, flat_succ, Function.update_self, hi, List.flatMap_cons, List.append_assoc,
      tail_frame items p m t t hout]
  | head hhead hrest ih =>
    obtain ⟨u,hu⟩ := hhead
    rename_i x c
    have hc := (hbelow x c (hu ▸ List.mem_cons_self)).1
    have hle := leads_le items N hbelow c p hrest
    obtain ⟨n,rfl⟩ := Nat.exists_eq_add_one.mpr (show 0 < n by omega)
    rw [flat_succ, hu, List.flatMap_cons, List.append_assoc, closes_append] at hnodup
    obtain ⟨m,hm,hflat⟩ := ih n (by omega) hnodup.of_append_left
    have hin := leads_mem items N hbelow c p n hrest hp (by omega)
    have hout : Token.close p ∉ u.flatMap (tokens items n) := fun hm =>
      (List.disjoint_of_nodup_append hnodup) ((mem_closes _ p).mpr hin)
        ((mem_closes _ p).mpr (List.mem_append_left _ hm))
    refine ⟨m,hm,?_⟩
    rw [flat_succ, flat_succ, Function.update_of_ne (by omega), hu, List.flatMap_cons,
      List.flatMap_cons, tail_frame items p n u t hout]
    simp only [tokens, hflat, List.append_assoc]

theorem leads_update (x p : ℕ) (t : List (Item B)) (h : Leads items x p) :
    Leads (Function.update items p t) x p := by
  induction h using Relation.ReflTransGen.head_induction_on with
  | refl => exact .refl
  | head hhead hrest ih =>
    obtain ⟨u,hu⟩ := hhead
    rename_i x c
    have hc := (hbelow x c (hu ▸ List.mem_cons_self)).1
    have hle := leads_le items N hbelow c p hrest
    exact .head ⟨u,by rw [Function.update_of_ne (by omega), hu]⟩ ih

end Flat

end Nginx.Outline
