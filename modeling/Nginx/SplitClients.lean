import Nginx.Atoi
import Mathlib.Algebra.Order.BigOperators.Group.List
import Mathlib.Order.Interval.Finset.Nat

/-!
# The parts of split_clients

The parts of a block get thresholds of 32 bits, each the end of an interval that begins
at the one before. A value belongs to the first part whose threshold is above its hash.
Percentages are read with two places and then kept in 32 bits; nothing is the mark of
the part that takes the rest.
-/

set_option autoImplicit false

namespace Nginx.SplitClients
open Nginx.OffT Nginx.Numeral Nginx.Atoi

structure Part where
  percent : ℕ
  value : List UInt8
  deriving DecidableEq, Repr

/-- `ngx_http_split_clients`. An empty text lets the byte in front of it be looked at, and
is no number either way. -/
def ngxHttpSplitClients (before : UInt8) (text value : List UInt8) : Option Part :=
  if text = [42] then some ⟨0,value⟩
  else if text.getLast?.getD before ≠ 37 then none
  else
    let n := ngxAtofp text.dropLast 2
    if n = ngxError ∨ n = 0 then none else some ⟨(n % 2^32).toNat,value⟩

/-- The loop of `ngx_conf_split_clients_block` over the parts that have been parsed -/
@[grind =] def sumLoop : ℕ → ℕ → List Part → Option (List Part)
  | _, _, [] => some []
  | sum, last, part::parts =>
    let sum := if part.percent ≠ 0 then sum+part.percent else 10000
    if 10000 < sum then none
    else
      let percent := if part.percent ≠ 0 then (last+0xffffffff/10000*part.percent % 2^32) % 2^32
        else 0xffffffff
      (sumLoop sum percent parts).map ({ part with percent := percent }::·)

/-- `args` are the texts and the values of the lines, as `ngx_conf_parse` hands them over. -/
def ngxConfSplitClientsBlock (before : UInt8) (args : List (List UInt8×List UInt8)) :
    Option (List Part) :=
  (args.mapM fun line => ngxHttpSplitClients before line.1 line.2).bind (sumLoop 0 0)

/-- The part that is found in the loop of `ngx_http_split_clients_variable` -/
def selects (parts : List Part) (hash : ℕ) : Option ℕ :=
  parts.findIdx? fun part => decide (hash < part.percent)

def ngxHttpSplitClientsVariable (parts : List Part) (hash : ℕ) : Option (List UInt8) :=
  (selects parts hash).bind fun i => (parts[i]?).map Part.value

/-! What the block says -/

/-- The hundredths of a percent that a text denotes, nothing for `*` -/
def percentage (text : List UInt8) : Option ℕ :=
  if text = [42] then none else fixedPoint 2 text.dropLast

/-- Where the intervals of the parts end, the first of them beginning at `last` -/
@[grind =] def bounds : ℕ → List (Option ℕ) → List ℕ
  | _, [] => []
  | _, none::ps => (2^32-1)::bounds (2^32-1) ps
  | last, some p::ps => (last+(2^32-1)/10000*p)::bounds (last+(2^32-1)/10000*p) ps

/-- The percentages fit. Each part has the values of its interval and no others, a part with
a percentage as many as this says, and the intervals follow each other. -/
structure Partition (ps : List (Option ℕ)) (parts : List Part) : Prop where
  total : (ps.filterMap id).sum ≤ 10000
  thresholds : parts.map Part.percent = bounds 0 ps
  ordered : (0::bounds 0 ps).Pairwise (· ≤ ·)
  below : ∀ hi ∈ bounds 0 ps, hi < 2^32
  interval : ∀ i hash, selects parts hash = some i ↔
    ∃ lo hi, (0::bounds 0 ps)[i]? = some lo ∧ (bounds 0 ps)[i]? = some hi ∧ lo ≤ hash ∧ hash < hi
  count : ∀ (i p : ℕ), ps[i]? = some (some p) →
    ((Finset.range (2^32)).filter fun hash => selects parts hash = some i).card =
      p*((2^32-1)/10000)
  rest : ∀ i : ℕ, ps[i]? = some none → (bounds 0 ps)[i]? = some (2^32-1)

/-! The intervals -/

theorem pairwise_tail {last t : ℕ} {ts : List ℕ} (h : (last::t::ts).Pairwise (· ≤ ·)) :
    last ≤ t ∧ (t::ts).Pairwise (· ≤ ·) := by
  rw [List.pairwise_cons] at h
  exact ⟨h.1 t List.mem_cons_self,h.2⟩

theorem find_interval (last hash : ℕ) (ts : List ℕ) (h : (last::ts).Pairwise (· ≤ ·))
    (hlast : last ≤ hash) (i : ℕ) :
    ts.findIdx? (fun t => decide (hash < t)) = some i ↔
      ∃ lo hi, (last::ts)[i]? = some lo ∧ ts[i]? = some hi ∧ lo ≤ hash ∧ hash < hi := by
  induction ts generalizing last i with
  | nil => simp
  | cons t ts ih =>
    obtain ⟨hle,hrest⟩ := pairwise_tail h
    rw [List.findIdx?_cons]
    by_cases ht : hash < t
    · rw [if_pos (decide_eq_true ht)]
      constructor
      · intro hi
        obtain rfl : 0 = i := Option.some.inj hi
        exact ⟨last,t,rfl,rfl,hlast,ht⟩
      · rintro ⟨lo,hi,hlo,-,hge,-⟩
        cases i with
        | zero => rfl
        | succ i =>
          have hmem : lo ∈ t::ts := List.mem_of_getElem? hlo
          have hmin : t ≤ lo := by
            rcases List.mem_cons.mp hmem with rfl | hm
            · exact le_refl _
            · exact (List.pairwise_cons.mp hrest).1 lo hm
          omega
    rw [if_neg (by simpa using ht)]
    cases i with
    | zero =>
      constructor
      · intro hi
        obtain ⟨j,-,hj⟩ := Option.map_eq_some_iff.mp hi
        exact absurd hj (Nat.succ_ne_zero j)
      · rintro ⟨lo,hi,-,hhi,-,hlt⟩
        exact absurd (Option.some.inj hhi ▸ hlt) ht
    | succ i =>
      rw [Option.map_eq_some_iff]
      have hstep := ih t hrest (Nat.le_of_not_lt ht) i
      constructor
      · rintro ⟨j,hj,he⟩
        obtain rfl : j = i := Nat.succ.inj he
        exact hstep.mp hj
      · exact fun hex => ⟨i,hstep.mpr hex,rfl⟩

theorem bounds_percent (last i p : ℕ) (ps : List (Option ℕ)) (h : ps[i]? = some (some p)) :
    ∃ lo, (last::bounds last ps)[i]? = some lo ∧
      (bounds last ps)[i]? = some (lo+(2^32-1)/10000*p) := by
  induction ps generalizing last i with
  | nil => cases h
  | cons q ps ih =>
    cases i with
    | zero =>
      obtain rfl : q = some p := Option.some.inj h
      exact ⟨last,rfl,rfl⟩
    | succ i =>
      cases q with
      | none => exact ih (2^32-1) i h
      | some q => exact ih (last+(2^32-1)/10000*q) i h

theorem bounds_rest (last i : ℕ) (ps : List (Option ℕ)) (h : ps[i]? = some none) :
    (bounds last ps)[i]? = some (2^32-1) := by
  induction ps generalizing last i with
  | nil => cases h
  | cons q ps ih =>
    cases i with
    | zero =>
      obtain rfl : q = none := Option.some.inj h
      rfl
    | succ i =>
      cases q with
      | none => exact ih (2^32-1) i h
      | some q => exact ih (last+(2^32-1)/10000*q) i h

/-! The loop over the parts -/

def mark (p : Option ℕ) : ℕ := p.getD 0

/-- `last` is the end of `sum` hundredths of a percent, or of all. -/
def Ends (sum last : ℕ) : Prop :=
  sum ≤ 10000 ∧ (last = (2^32-1)/10000*sum ∨ sum = 10000 ∧ last = 2^32-1)

theorem ends_le {sum last : ℕ} (h : Ends sum last) : last ≤ 2^32-1 := by
  obtain ⟨hsum,rfl | ⟨-,rfl⟩⟩ := h <;> omega

theorem sum_loop (ps : List (Option ℕ)) (hpos : ∀ p, some p ∈ ps → 0 < p) (parts out : List Part)
    (hparts : parts.map Part.percent = ps.map mark) (sum last : ℕ) (hends : Ends sum last)
    (h : sumLoop sum last parts = some out) :
    sum+(ps.filterMap id).sum ≤ 10000 ∧ out.map Part.percent = bounds last ps ∧
      (last::bounds last ps).Pairwise (· ≤ ·) ∧ ∀ hi ∈ bounds last ps, hi < 2^32 := by
  induction ps generalizing parts out sum last with
  | nil =>
    obtain rfl : parts = [] := List.map_eq_nil_iff.mp hparts
    obtain rfl : [] = out := Option.some.inj h
    exact ⟨hends.1,rfl,List.pairwise_singleton _ _,nofun⟩
  | cons p ps ih =>
    obtain ⟨part,tl,rfl,hpart,htl⟩ := List.map_eq_cons_iff.mp hparts
    have hrest : ∀ q, some q ∈ ps → 0 < q := fun q hq => hpos q (List.mem_cons_of_mem _ hq)
    rw [sumLoop] at h
    dsimp only at h
    cases p with
    | none =>
      have hzero : ¬part.percent ≠ 0 := by
        rw [hpart]
        exact fun hne => hne rfl
      simp only [if_neg hzero, lt_irrefl, if_false] at h
      obtain ⟨tail,htail,rfl⟩ := Option.map_eq_some_iff.mp h
      obtain ⟨hsum,hout,hord,hlt⟩ := ih hrest tl tail htl 10000 0xffffffff
        ⟨le_refl _,Or.inr ⟨rfl,rfl⟩⟩ htail
      refine ⟨?_,congrArg (0xffffffff::·) hout,?_,?_⟩
      · have hfirst := hends.1
        rw [List.filterMap_cons_none rfl]
        omega
      · rw [bounds, List.pairwise_cons]
        refine ⟨fun x hx => ?_,hord⟩
        have hle := ends_le hends
        rcases List.mem_cons.mp hx with rfl | hx
        · exact hle
        · exact hle.trans ((List.pairwise_cons.mp hord).1 x hx)
      · intro hi hm
        rcases List.mem_cons.mp hm with rfl | hm
        · decide
        · exact hlt hi hm
    | some p =>
      have hp := hpos p List.mem_cons_self
      obtain rfl : part.percent = p := hpart
      have hne : part.percent ≠ 0 := by omega
      simp only [if_pos hne] at h
      split_ifs at h with hover
      · obtain ⟨tail,htail,rfl⟩ := Option.map_eq_some_iff.mp h
        obtain ⟨hle,hlast⟩ := hends
        have hfirst : last = (2^32-1)/10000*sum := by omega
        have hnext : (last+0xffffffff/10000*part.percent % 2^32) % 2^32 =
            last+(2^32-1)/10000*part.percent := by omega
        rw [hnext] at htail ⊢
        obtain ⟨hsum,hout,hord,hlt⟩ := ih hrest tl tail htl _ _
          ⟨by omega,Or.inl (by omega)⟩ htail
        refine ⟨?_,congrArg ((last+(2^32-1)/10000*part.percent)::·) hout,?_,?_⟩
        · have hcons : (some part.percent::ps).filterMap id = part.percent::ps.filterMap id := rfl
          rw [hcons, List.sum_cons]
          omega
        · rw [bounds, List.pairwise_cons]
          refine ⟨fun x hx => ?_,hord⟩
          rcases List.mem_cons.mp hx with rfl | hx
          · exact Nat.le_add_right _ _
          · exact (Nat.le_add_right _ _).trans ((List.pairwise_cons.mp hord).1 x hx)
        · intro hi hm
          rcases List.mem_cons.mp hm with rfl | hm
          · omega
          · exact hlt hi hm

/-! The lines of the block -/

theorem split_clients_part (before : UInt8) (text value : List UInt8) (part : Part)
    (h : ngxHttpSplitClients before text value = some part) :
    text = [42] ∧ part.percent = 0 ∨
      ∃ v, percentage text = some v ∧ 0 < v ∧ part.percent = v % 2^32 := by
  rw [ngxHttpSplitClients] at h
  split_ifs at h with hstar hlast
  · left
    rw [← Option.some.inj h]
    exact ⟨hstar,rfl⟩
  · right
    dsimp only at h
    split_ifs at h with hbad
    rw [not_or] at hbad
    have hread := read_accepts (.atofp 2) text.dropLast
    rw [Reader.read] at hread
    rw [percentage, if_neg hstar]
    cases hform : (Reader.atofp 2).accepts text.dropLast with
    | none =>
      rw [hform, Option.elim_none] at hread
      exact absurd hread hbad.1
    | some v =>
      rw [hform, Option.elim_some] at hread
      have hfixed : fixedPoint 2 text.dropLast = some v := by
        rw [Reader.accepts] at hform
        by_cases hempty : text.dropLast = [] ∨ 2 = 0
        · rw [if_pos hempty] at hform
          cases hform
        · rwa [if_neg hempty] at hform
      obtain ⟨hsign,hvalue⟩ := off_value v
      have hnonneg : ¬offT (v : ℤ) < 0 := by
        intro hneg
        rw [checkSign, if_pos hneg] at hread
        exact hbad.1 hread
      rw [checkSign, if_neg hnonneg] at hread
      have hn := hvalue (Int.not_lt.mp hnonneg)
      refine ⟨v,hfixed,?_,?_⟩
      · by_contra hzero
        have hv : v = 0 := by omega
        rw [hread, hn, hv] at hbad
        exact hbad.2 rfl
      · rw [← Option.some.inj h]
        dsimp only
        rw [hread, hn]
        omega

theorem lines_stored (before : UInt8) (args : List (List UInt8×List UInt8)) (parts : List Part)
    (h : args.mapM (fun line => ngxHttpSplitClients before line.1 line.2) = some parts)
    (hfits : ∀ line ∈ args, ∀ v, percentage line.1 = some v → v < 2^32) :
    parts.map Part.percent = (args.map fun line => percentage line.1).map mark ∧
      ∀ p, some p ∈ args.map (fun line => percentage line.1) → 0 < p := by
  induction args generalizing parts with
  | nil =>
    obtain rfl : [] = parts := Option.some.inj h
    exact ⟨rfl,nofun⟩
  | cons line args ih =>
    rw [List.mapM_cons] at h
    obtain ⟨part,hpart,h⟩ := Option.bind_eq_some_iff.mp h
    obtain ⟨tl,htl,h⟩ := Option.bind_eq_some_iff.mp h
    obtain rfl : part::tl = parts := Option.some.inj h
    obtain ⟨hmap,hpos⟩ := ih tl htl fun l hl => hfits l (List.mem_cons_of_mem _ hl)
    rw [List.map_cons, List.map_cons, List.map_cons, hmap]
    rcases split_clients_part before _ _ part hpart with ⟨hstar,hzero⟩ | ⟨v,hv,hvpos,hstored⟩
    · have hnone : percentage line.1 = none := by rw [percentage, if_pos hstar]
      rw [hnone, hzero]
      refine ⟨rfl,fun p hp => ?_⟩
      rcases List.mem_cons.mp hp with he | hp
      · cases he
      · exact hpos p hp
    have hlt := hfits line List.mem_cons_self v hv
    rw [hv, hstored, Nat.mod_eq_of_lt hlt]
    refine ⟨rfl,fun p hp => ?_⟩
    rcases List.mem_cons.mp hp with he | hp
    · obtain rfl : p = v := Option.some.inj he
      exact hvpos
    · exact hpos p hp

theorem selects_bounds (parts : List Part) (ts : List ℕ) (h : parts.map Part.percent = ts)
    (hash : ℕ) : selects parts hash = ts.findIdx? fun t => decide (hash < t) := by
  rw [selects, ← h, List.findIdx?_map]
  rfl

theorem interval_card (f : ℕ → Option ℕ) (i lo hi : ℕ) (hhi : hi < 2^32)
    (h : ∀ hash, f hash = some i ↔ lo ≤ hash ∧ hash < hi) :
    ((Finset.range (2^32)).filter fun hash => f hash = some i).card = hi-lo := by
  have hset : (Finset.range (2^32)).filter (fun hash => f hash = some i) = Finset.Ico lo hi := by
    ext hash
    rw [Finset.mem_filter, Finset.mem_range, Finset.mem_Ico, h]
    omega
  rw [hset, Nat.card_Ico]

/-- A block that is accepted is a partition by the percentages that its texts denote, if and
only if none of them is of 2^32 hundredths or more. -/
theorem split_clients_partition (before : UInt8) (args : List (List UInt8×List UInt8))
    (parts : List Part) (h : ngxConfSplitClientsBlock before args = some parts) :
    Partition (args.map fun line => percentage line.1) parts ↔
      ∀ line ∈ args, ∀ v, percentage line.1 = some v → v < 2^32 := by
  constructor
  · intro hpart line hline v hv
    have hmem : v ∈ (args.map fun line => percentage line.1).filterMap id :=
      List.mem_filterMap.mpr ⟨some v,List.mem_map.mpr ⟨line,hline,hv⟩,rfl⟩
    have hle := List.single_le_sum (fun _ _ => Nat.zero_le _) v hmem
    have htotal := hpart.total
    omega
  · intro hfits
    obtain ⟨stored,hstored,hloop⟩ := Option.bind_eq_some_iff.mp h
    obtain ⟨hmap,hpos⟩ := lines_stored before args stored hstored hfits
    generalize (args.map fun line => percentage line.1) = ps at hmap hpos ⊢
    obtain ⟨htotal,hout,hord,hlt⟩ := sum_loop ps hpos stored parts hmap 0 0
      ⟨by omega,Or.inl rfl⟩ hloop
    have hfind : ∀ (i hash : ℕ), selects parts hash = some i ↔ ∃ lo hi,
        (0::bounds 0 ps)[i]? = some lo ∧ (bounds 0 ps)[i]? = some hi ∧ lo ≤ hash ∧ hash < hi := by
      intro i hash
      rw [selects_bounds parts _ hout]
      exact find_interval 0 hash _ hord (Nat.zero_le hash) i
    refine ⟨by omega,hout,hord,hlt,hfind,fun i p hp => ?_,fun i => bounds_rest 0 i ps⟩
    obtain ⟨lo,hlo,hhi⟩ := bounds_percent 0 i p ps hp
    have hcard := interval_card (selects parts) i lo _ (hlt _ (List.mem_of_getElem? hhi))
      fun hash => by
        rw [hfind, hlo, hhi]
        exact ⟨fun ⟨_,_,hl,hh,hle,hlt⟩ =>
          ⟨Option.some.inj hl ▸ hle,Option.some.inj hh ▸ hlt⟩,
          fun ⟨hle,hlt⟩ => ⟨lo,_,rfl,rfl,hle,hlt⟩⟩
    rw [hcard, Nat.add_sub_cancel_left, mul_comm]

def twoParts : List (List UInt8×List UInt8) := [([53,48,37], [97]), ([42], [98])]

theorem split_clients_partition_two :
    Partition (twoParts.map fun line => percentage line.1) [⟨2147480000,[97]⟩, ⟨4294967295,[98]⟩] :=
  (split_clients_partition 0 twoParts _ (by decide)).mpr (by decide)

/-- `42949672.97%`, which is kept as a hundredth of a percent -/
def wrappedPart : List (List UInt8×List UInt8) :=
  [([52,50,57,52,57,54,55,50,46,57,55,37], [97])]

theorem percent_wraps : ¬∀ (before : UInt8) (args : List (List UInt8×List UInt8)) (parts : List Part),
    ngxConfSplitClientsBlock before args = some parts →
      Partition (args.map fun line => percentage line.1) parts := by
  intro hall
  have htotal := (hall 0 wrappedPart [⟨429496,[97]⟩] (by decide)).total
  exact absurd htotal (by decide)

end Nginx.SplitClients
