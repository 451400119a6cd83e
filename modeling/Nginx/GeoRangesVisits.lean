import Nginx.GeoRanges

/-!
# The blocks that the geo loops visit

Both loops step an address of 32 bits by 2^16. The addresses that a body is entered
with are collected beside the loop; they should lie in the blocks of the range, each
once, and no step should leave the 32 bits.
-/

set_option autoImplicit false

namespace Nginx.GeoRangesVisits
open Nginx.GeoRanges

variable {α : Type*}

@[grind =] def addVisits (start stop : ℕ) (value : α) : ℕ → Low α → ℕ → List ℕ
  | 0, _, _ => []
  | fuel+1, low, n =>
    if n ≤ stop then
      let h := n / 0x10000
      let a := (low h).getD []
      match addPiece a (pieceStart start n) (pieceEnd stop n) value a.length with
      | none => [n]
      | some a => n::addVisits start stop value fuel (Function.update low h (some a))
          ((n+0x10000) % 2^32 / 0x10000 * 0x10000)
    else []

@[grind =] def deleteVisits (stop : ℕ) : ℕ → ℕ → List ℕ
  | 0, _ => []
  | fuel+1, n =>
    if n ≤ stop then n::deleteVisits stop fuel ((n+0x10000) % 2^32) else []

/-- The blocks from that of `n` to that of `stop` -/
def blocks (n stop : ℕ) : List ℕ := List.range' (n / 0x10000) (stop / 0x10000+1-n / 0x10000)

def NoWrap (visits : List ℕ) : Prop := ∀ n ∈ visits, n+0x10000 < 2^32

/-- The add loop ends. It has visited the blocks of the range in order and each once, all
of them unless an overlapping range ends the directive. -/
def AddVisits (start stop : ℕ) (value : α) : Prop :=
  ∀ low : Low α, ∃ fuel, addLoop start stop value fuel low start ≠ .endless ∧
    NoWrap (addVisits start stop value fuel low start) ∧
    (addVisits start stop value fuel low start).map (· / 0x10000) <+: blocks start stop ∧
    (addLoop start stop value fuel low start ≠ .error →
      (addVisits start stop value fuel low start).map (· / 0x10000) = blocks start stop)

/-- The delete loop ends, and has visited the blocks of the range in order and each once. -/
def DeleteVisits (α : Type*) (start stop : ℕ) : Prop :=
  ∀ (low : Low α) (warn : Bool), ∃ fuel, deleteLoop start stop fuel low warn start ≠ .endless ∧
    NoWrap (deleteVisits stop fuel start) ∧
    (deleteVisits stop fuel start).map (· / 0x10000) = blocks start stop

theorem blocks_cons (n next stop : ℕ) (h : n / 0x10000 ≤ stop / 0x10000)
    (hnext : next / 0x10000 = n / 0x10000+1) :
    blocks n stop = n / 0x10000::blocks next stop := by
  rw [blocks, blocks, hnext, Nat.succ_sub h, List.range'_succ]
  congr 2
  omega

theorem blocks_nil (n stop : ℕ) (h : stop / 0x10000 < n / 0x10000) : blocks n stop = [] := by
  rw [blocks, Nat.sub_eq_zero_of_le h, List.range'_zero]

theorem next_block (n : ℕ) (h : n / 0x10000 < 0xffff) :
    (n+0x10000) % 2^32 / 0x10000 * 0x10000 = (n / 0x10000+1)*0x10000 := by
  rw [Nat.mod_eq_of_lt (by omega)]
  omega

theorem add_visits_ends (start stop : ℕ) (value : α) (hle : start ≤ stop)
    (hstop : stop < 0xffff0000) (k : ℕ) (low : Low α) (n : ℕ) (hn : n = start ∨ n % 0x10000 = 0)
    (hk : n / 0x10000+k = stop / 0x10000+1) :
    addLoop start stop value (k+1) low n ≠ .endless ∧
    NoWrap (addVisits start stop value (k+1) low n) ∧
    (addVisits start stop value (k+1) low n).map (· / 0x10000) <+: blocks n stop ∧
    (addLoop start stop value (k+1) low n ≠ .error →
      (addVisits start stop value (k+1) low n).map (· / 0x10000) = blocks n stop) := by
  induction k generalizing low n with
  | zero =>
    have hover : ¬n ≤ stop := by omega
    rw [addLoop, if_neg hover, addVisits, if_neg hover, blocks_nil n stop (by omega)]
    exact ⟨nofun,nofun,List.nil_prefix,fun _ => rfl⟩
  | succ k ih =>
    have hin : n ≤ stop := by omega
    have hblock : n / 0x10000 < 0xffff := by omega
    have hnext := next_block n hblock
    rw [addLoop, if_pos hin, addVisits, if_pos hin]
    rw [blocks_cons n ((n / 0x10000+1)*0x10000) stop (by omega) (by omega), hnext]
    dsimp only
    cases addPiece ((low (n / 0x10000)).getD []) (pieceStart start n) (pieceEnd stop n) value
        ((low (n / 0x10000)).getD []).length with
    | none =>
      refine ⟨nofun,fun m hm => ?_,?_,fun hne => absurd rfl hne⟩
      · rw [List.mem_singleton.mp hm]
        omega
      · exact (List.prefix_cons_inj _).mpr List.nil_prefix
    | some a =>
      obtain ⟨hends,hwrap,hpre,hall⟩ := ih (Function.update low (n / 0x10000) (some a))
        ((n / 0x10000+1)*0x10000) (Or.inr (by omega)) (by omega)
      refine ⟨hends,fun m hm => ?_,?_,fun hne => ?_⟩
      · rcases List.mem_cons.mp hm with rfl | hm
        · omega
        · exact hwrap m hm
      · exact (List.prefix_cons_inj _).mpr hpre
      · rw [List.map_cons, hall hne]

theorem add_visits_wrap (start stop : ℕ) (value : α) (hhigh : stop < 2^32)
    (hstop : 0xffff0000 ≤ stop) (fuel : ℕ) (low : Low α) (n : ℕ)
    (hn : n = start ∨ n % 0x10000 = 0) (hin : n ≤ stop)
    (hlow : ∀ h, n / 0x10000 ≤ h → low h = none) :
    addLoop start stop value fuel low n = .endless ∨
      ¬NoWrap (addVisits start stop value fuel low n) := by
  induction fuel generalizing low n with
  | zero => exact Or.inl rfl
  | succ fuel ih =>
    rw [addLoop, if_pos hin, addVisits, if_pos hin]
    dsimp only
    rw [hlow _ (le_refl _)]
    by_cases hlast : n / 0x10000 = 0xffff
    · exact Or.inr fun hwrap => absurd (hwrap n List.mem_cons_self) (by omega)
    rw [next_block n (by omega)]
    have hrest := ih (Function.update low (n / 0x10000)
      (some [⟨pieceStart start n,pieceEnd stop n,value⟩])) ((n / 0x10000+1)*0x10000)
      (Or.inr (by omega)) (by omega) (fun h hh => by
        rw [Function.update_of_ne (by omega)]
        exact hlow h (by omega))
    rcases hrest with hendless | hwrap
    · exact Or.inl hendless
    · exact Or.inr fun hno => hwrap fun m hm => hno m (List.mem_cons_of_mem _ hm)

theorem delete_loop_next (start stop fuel : ℕ) (low : Low α) (warn : Bool) (n : ℕ) (h : n ≤ stop) :
    ∃ low' warn', deleteLoop start stop (fuel+1) low warn n =
      deleteLoop start stop fuel low' warn' ((n+0x10000) % 2^32) := by
  rw [deleteLoop, if_pos h]
  dsimp only
  cases low (n / 0x10000) with
  | none => exact ⟨_,_,rfl⟩
  | some a => exact ⟨_,_,rfl⟩

theorem delete_visits_ends (start stop : ℕ) (hstop : stop < 0xffff0000)
    (hbits : start % 0x10000 ≤ stop % 0x10000) (k : ℕ) (low : Low α) (warn : Bool) (n : ℕ)
    (hn : n % 0x10000 = start % 0x10000) (hk : n / 0x10000+k = stop / 0x10000+1) :
    deleteLoop start stop (k+1) low warn n ≠ .endless ∧ NoWrap (deleteVisits stop (k+1) n) ∧
    (deleteVisits stop (k+1) n).map (· / 0x10000) = blocks n stop := by
  induction k generalizing low warn n with
  | zero =>
    have hover : ¬n ≤ stop := by omega
    rw [deleteLoop, if_neg hover, deleteVisits, if_neg hover, blocks_nil n stop (by omega)]
    exact ⟨nofun,nofun,rfl⟩
  | succ k ih =>
    have hin : n ≤ stop := by omega
    have hnext : (n+0x10000) % 2^32 = n+0x10000 := Nat.mod_eq_of_lt (by omega)
    obtain ⟨low',warn',hstep⟩ := delete_loop_next start stop (k+1) low warn n hin
    obtain ⟨hends,hwrap,hblocks⟩ := ih low' warn' (n+0x10000) (by omega) (by omega)
    rw [hstep, deleteVisits, if_pos hin, hnext]
    refine ⟨hends,fun m hm => ?_,?_⟩
    · rcases List.mem_cons.mp hm with rfl | hm
      · omega
      · exact hwrap m hm
    · rw [List.map_cons, hblocks, blocks_cons n (n+0x10000) stop (by omega) (by omega)]

theorem delete_visits_wrap (start stop : ℕ) (hhigh : stop < 2^32) (hstop : 0xffff0000 ≤ stop)
    (hbits : start % 0x10000 ≤ stop % 0x10000) (fuel : ℕ) (low : Low α) (warn : Bool) (n : ℕ)
    (hn : n % 0x10000 = start % 0x10000) (hin : n ≤ stop) :
    deleteLoop start stop fuel low warn n = .endless ∨ ¬NoWrap (deleteVisits stop fuel n) := by
  induction fuel generalizing low warn n with
  | zero => exact Or.inl rfl
  | succ fuel ih =>
    obtain ⟨low',warn',hstep⟩ := delete_loop_next start stop fuel low warn n hin
    rw [hstep, deleteVisits, if_pos hin]
    by_cases hlast : n / 0x10000 = 0xffff
    · exact Or.inr fun hwrap => absurd (hwrap n List.mem_cons_self) (by omega)
    have hnext : (n+0x10000) % 2^32 = n+0x10000 := Nat.mod_eq_of_lt (by omega)
    rw [hnext]
    rcases ih low' warn' (n+0x10000) (by omega) (by omega) with hendless | hwrap
    · exact Or.inl hendless
    · exact Or.inr fun hno => hwrap fun m hm => hno m (List.mem_cons_of_mem _ hm)

theorem delete_visits_miss (start stop : ℕ) (hbits : stop % 0x10000 < start % 0x10000)
    (fuel n : ℕ) (hn : n % 0x10000 = start % 0x10000) :
    stop / 0x10000 ∉ (deleteVisits stop fuel n).map (· / 0x10000) := by
  induction fuel generalizing n with
  | zero => exact List.not_mem_nil
  | succ fuel ih =>
    rw [deleteVisits]
    by_cases hin : n ≤ stop
    · rw [if_pos hin, List.map_cons, List.mem_cons, not_or]
      exact ⟨by omega,ih _ (by omega)⟩
    · rw [if_neg hin]
      exact List.not_mem_nil

theorem add_visits_iff (start stop : ℕ) (value : α) (hle : start ≤ stop) (hhigh : stop < 2^32) :
    AddVisits start stop value ↔ stop < 0xffff0000 := by
  constructor
  · intro hmeets
    by_contra hlast
    obtain ⟨fuel,hends,hwrap,-⟩ := hmeets fun _ => none
    rcases add_visits_wrap start stop value hhigh (Nat.le_of_not_lt hlast) fuel _ start
      (Or.inl rfl) hle (fun _ _ => rfl) with h | h
    · exact hends h
    · exact h hwrap
  · intro hstop low
    exact ⟨_,add_visits_ends start stop value hle hstop (stop / 0x10000+1-start / 0x10000) low start
      (Or.inl rfl) (by omega)⟩

theorem delete_visits_iff (start stop : ℕ) (hle : start ≤ stop) (hhigh : stop < 2^32) :
    DeleteVisits α start stop ↔ stop < 0xffff0000 ∧ start % 0x10000 ≤ stop % 0x10000 := by
  constructor
  · intro hmeets
    obtain ⟨fuel,hends,hwrap,hblocks⟩ := hmeets (fun _ => none) false
    have hbits : start % 0x10000 ≤ stop % 0x10000 := by
      by_contra hmore
      have hmiss := delete_visits_miss start stop (Nat.lt_of_not_le hmore) fuel start rfl
      rw [hblocks, blocks, List.mem_range'_1] at hmiss
      omega
    refine ⟨?_,hbits⟩
    by_contra hlast
    rcases delete_visits_wrap start stop hhigh (Nat.le_of_not_lt hlast) hbits fuel (fun _ => none)
      false start rfl hle with h | h
    · exact hends h
    · exact h hwrap
  · rintro ⟨hstop,hbits⟩ low warn
    exact ⟨_,delete_visits_ends start stop hstop hbits (stop / 0x10000+1-start / 0x10000) low warn
      start rfl (by omega)⟩

/-- Both loops end after each block of the range, if it does not reach the last block of
all; the delete loop has to reach its last block with the low bits of the start. -/
theorem geo_blocks_visited (start stop : ℕ) (value : α) (hle : start ≤ stop)
    (hhigh : stop < 2^32) :
    (AddVisits start stop value ∧ DeleteVisits α start stop) ↔
      stop < 0xffff0000 ∧ start % 0x10000 ≤ stop % 0x10000 := by
  rw [add_visits_iff start stop value hle hhigh, delete_visits_iff start stop hle hhigh]
  tauto

/-- `10.0.0.0-10.1.255.255` -/
theorem geo_blocks_visited_two :
    AddVisits 0x0a000000 0x0a01ffff 1 ∧ DeleteVisits ℕ 0x0a000000 0x0a01ffff :=
  (geo_blocks_visited 0x0a000000 0x0a01ffff 1 (by decide) (by decide)).mpr (by decide)

/-- `255.255.0.0-255.255.255.255` -/
theorem last_block_wraps : ¬∀ start stop : ℕ, start ≤ stop → stop < 2^32 →
    AddVisits start stop 1 ∧ DeleteVisits ℕ start stop := by
  intro hall
  have hlast := (add_visits_iff 0xffff0000 0xffffffff 1 (by decide) (by decide)).mp
    (hall 0xffff0000 0xffffffff (by decide) (by decide)).1
  exact absurd hlast (by decide)

end Nginx.GeoRangesVisits
