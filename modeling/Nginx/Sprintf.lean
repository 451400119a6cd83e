import Nginx.BoundedWrite
import Nginx.LittleEndian
import Nginx.UriBytes

/-!
# Formatting into a buffer

`ngx_vslprintf` on one memory. The format is what can be read from its first byte on, with whatever
stands behind its zero byte; the arguments are words of 64 bits, and the strings they point to lie
anywhere in the memory, also in the buffer. What a `double` is written as is a parameter.
-/

set_option autoImplicit false

namespace Nginx.Sprintf
open Nginx.MemoryRange Nginx.BoundedWrite Nginx.LittleEndian Nginx.UriBytes

abbrev Word := BitVec 64

/-- The argument list: the words and how many of them have been taken -/
structure Args where
  word : ℕ → Word
  taken : ℕ

def Args.next (args : Args) : Word := args.word args.taken

def Args.rest (args : Args) : Args := { args with taken := args.taken+1 }

/-- What is collected between the percent sign and the conversion -/
structure Flags where
  zero : UInt8
  width : ℕ
  sign : Bool
  hex : ℕ
  maxWidth : Bool
  fracWidth : ℕ
  slen : ℕ
  deriving DecidableEq, Repr

def noLength : ℕ := 2^64-1

@[grind =] def widthLoop : ℕ → List UInt8 → ℕ×List UInt8
  | width, [] => (width,[])
  | width, ch::fmt =>
    if isDigit ch then widthLoop ((width*10+(ch.toNat-48))%2^64) fmt else (width,ch::fmt)

@[grind =] def flagsLoop : Flags → Args → List UInt8 → Flags×Args×List UInt8
  | flags, args, [] => (flags,args,[])
  | flags, args, ch::fmt =>
    if ch = 117 then flagsLoop { flags with sign := false } args fmt
    else if ch = 109 then flagsLoop { flags with maxWidth := true } args fmt
    else if ch = 88 then flagsLoop { flags with hex := 2, sign := false } args fmt
    else if ch = 120 then flagsLoop { flags with hex := 1, sign := false } args fmt
    else if ch = 46 then
      let (fracWidth,fmt) := widthLoop flags.fracWidth fmt
      ({ flags with fracWidth := fracWidth },args,fmt)
    else if ch = 42 then flagsLoop { flags with slen := args.next.toNat } args.rest fmt
    else (flags,args,ch::fmt)

def readFlags (args : Args) (fmt : List UInt8) : Flags×Args×List UInt8 :=
  let (width,rest) := widthLoop 0 fmt
  let zero := if fmt.headD 0 = 48 then 48 else 32
  flagsLoop ⟨zero,width,true,0,false,0,noLength⟩ args rest

/-! Numbers -/

def tempLoop (base : ℕ) (hbase : 1 < base) (digit : ℕ → UInt8) (ui64 : ℕ) (p : List UInt8) :
    List UInt8 :=
  if ui64/base = 0 then digit (ui64%base)::p
  else tempLoop base hbase digit (ui64/base) (digit (ui64%base)::p)
termination_by ui64
decreasing_by
  rename_i h
  exact Nat.div_lt_self (Nat.pos_of_ne_zero fun h0 => h (by rw [h0, Nat.zero_div])) hbase

def decimalChar (n : ℕ) : UInt8 := UInt8.ofNat (n+48)

def hexChar (n : ℕ) : UInt8 := UInt8.ofNat (if n < 10 then n+48 else n+87)

def bigHexChar (n : ℕ) : UInt8 := UInt8.ofNat (if n < 10 then n+48 else n+55)

/-- The digits of a number; for a small one the code divides in 32 bits, with the same digits. -/
def temp (hex ui64 : ℕ) : List UInt8 :=
  if hex = 0 then tempLoop 10 (by decide) decimalChar ui64 []
  else if hex = 1 then tempLoop 16 (by decide) hexChar ui64 []
  else tempLoop 16 (by decide) bigHexChar ui64 []

def padding (zero : UInt8) (width len : ℕ) (_ : ℕ → UInt8) : Option (UInt8×ℕ) :=
  if len < width then some (zero,len+1) else none

def ngxSprintfNum (last ui64 : ℕ) (zero : UInt8) (hex width : ℕ) (o : Out UInt8) : Out UInt8 :=
  let p := temp hex ui64
  let o := emit (padding zero width) (last-o.pos) p.length o
  let len := if o.pos+p.length > last then last-o.pos else p.length
  o.append (p.take len)

/-! Conversions -/

def asInt (w : Word) : ℤ := (w.setWidth 32).toInt

def asUInt (w : Word) : ℕ := (w.setWidth 32).toNat

structure Number where
  flags : Flags
  i64 : ℤ
  ui64 : ℕ

def bySign (flags : Flags) (signed : ℤ) (unsigned : ℕ) : Number :=
  if flags.sign then ⟨flags,signed,0⟩ else ⟨flags,0,unsigned⟩

def intLen : ℕ := 20

def withMaxWidth (flags : Flags) : Flags :=
  if flags.maxWidth then { flags with width := intLen } else flags

def numberOf (flags : Flags) (conversion : UInt8) (w : Word) : Option Number :=
  if conversion = 79 then some ⟨{ flags with sign := true },w.toInt,0⟩
  else if conversion = 80 then some ⟨{ flags with sign := true },asInt w,0⟩
  else if conversion = 84 then some ⟨{ flags with sign := true },w.toInt,0⟩
  else if conversion = 77 then
    if w.toInt = -1 then some ⟨{ flags with sign := true },-1,0⟩
    else some ⟨{ flags with sign := false },0,w.toNat⟩
  else if conversion = 122 then some (bySign flags w.toInt w.toNat)
  else if conversion = 105 then some (bySign (withMaxWidth flags) w.toInt w.toNat)
  else if conversion = 100 then some (bySign flags (asInt w) (asUInt w))
  else if conversion = 108 then some (bySign flags w.toInt w.toNat)
  else if conversion = 68 then some (bySign flags (asInt w) (asUInt w))
  else if conversion = 76 then some (bySign flags w.toInt w.toNat)
  else if conversion = 65 then some (bySign (withMaxWidth flags) w.toInt w.toNat)
  else if conversion = 114 then some ⟨{ flags with sign := true },w.toInt,0⟩
  else if conversion = 112 then
    some ⟨{ flags with hex := 2, sign := false, zero := 48, width := 16 },0,w.toNat⟩
  else none

def writeNumber (n : Number) (last : ℕ) (o : Out UInt8) : Out UInt8 :=
  let flags := n.flags
  if flags.sign then
    if n.i64 < 0 then
      ngxSprintfNum last ((-n.i64)%2^64).toNat flags.zero flags.hex flags.width (o.append [45])
    else ngxSprintfNum last n.i64.toNat flags.zero flags.hex flags.width o
  else ngxSprintfNum last n.ui64 flags.zero flags.hex flags.width o

def loadWord (mem : ℕ → UInt8) (a bytes : ℕ) : ℕ := ofBytes (readRange mem a (a+bytes))

/-- `ngx_cpymem` of a string, clamped -/
def copyString (last data len : ℕ) (o : Out UInt8) : Out UInt8 :=
  let len := min (last-o.pos) len
  o.append (readRange o.mem data (data+len))

def stringChar (p : ℕ) (mem : ℕ → UInt8) : Option (UInt8×ℕ) :=
  if mem p = 0 then none else some (mem p,p+1)

/-- A `double` by its word and the width of its fraction: whether it is negative, the integer part
and the fraction as an integer of that width -/
abbrev Double := Word → ℕ → Bool×ℕ×ℕ

def writeDouble (double : Double) (flags : Flags) (w : Word) (last : ℕ) (o : Out UInt8) :
    Out UInt8 :=
  let (negative,whole,fraction) := double w flags.fracWidth
  let o := if negative then o.append [45] else o
  let o := ngxSprintfNum last whole flags.zero 0 flags.width o
  if flags.fracWidth = 0 then o
  else
    let o := if o.pos < last then o.append [46] else o
    ngxSprintfNum last fraction 48 0 flags.fracWidth o

def takesArg (conversion : UInt8) : Bool :=
  conversion ∈ ([86,118,115,79,80,84,77,122,105,100,108,68,76,65,102,114,112,99] :
    List UInt8)

def convert (double : Double) (flags : Flags) (conversion : UInt8) (w : Word) (last : ℕ)
    (o : Out UInt8) : Out UInt8 :=
  if conversion = 86 then
    copyString last (loadWord o.mem (w.toNat+8) 8) (loadWord o.mem w.toNat 8) o
  else if conversion = 118 then
    copyString last (loadWord o.mem (w.toNat+8) 8) (loadWord o.mem w.toNat 4%2^28) o
  else if conversion = 115 then
    if flags.slen = noLength then emit stringChar (last-o.pos) w.toNat o
    else copyString last w.toNat flags.slen o
  else if conversion = 102 then writeDouble double flags w last o
  else if conversion = 99 then o.append [UInt8.ofNat w.toNat]
  else if conversion = 90 then o.append [0]
  else if conversion = 78 then o.append [10]
  else if conversion = 37 then o.append [37]
  else
    match numberOf flags conversion w with
    | some n => writeNumber n last o
    | none => o.append [conversion]

theorem width_shorter (width : ℕ) (fmt : List UInt8) : (widthLoop width fmt).2.length ≤ fmt.length := by
  induction fmt generalizing width with
  | nil => exact le_rfl
  | cons ch fmt ih =>
    rw [widthLoop]
    split_ifs
    · exact (ih _).trans (Nat.le_succ _)
    · exact le_rfl

theorem flags_shorter (flags : Flags) (args : Args) (fmt : List UInt8) :
    (flagsLoop flags args fmt).2.2.length ≤ fmt.length := by
  induction fmt generalizing flags args with
  | nil => exact le_rfl
  | cons ch fmt ih =>
    rw [flagsLoop]
    split_ifs
    · exact (ih _ _).trans (Nat.le_succ _)
    · exact (ih _ _).trans (Nat.le_succ _)
    · exact (ih _ _).trans (Nat.le_succ _)
    · exact (ih _ _).trans (Nat.le_succ _)
    · exact (width_shorter _ fmt).trans (Nat.le_succ _)
    · exact (ih _ _).trans (Nat.le_succ _)
    · exact le_rfl

theorem read_shorter (args : Args) (fmt : List UInt8) :
    (readFlags args fmt).2.2.length ≤ fmt.length :=
  (flags_shorter _ _ _).trans (width_shorter 0 fmt)

def vslprintfLoop (double : Double) (last : ℕ) : List UInt8 → Args → Out UInt8 → Out UInt8
  | [], _, o => o
  | ch::fmt, args, o =>
    if ch ≠ 0 ∧ o.pos < last then
      if ch = 37 then
        let conversion := (readFlags args fmt).2.2.headD 0
        let args' := (readFlags args fmt).2.1
        vslprintfLoop double last (readFlags args fmt).2.2.tail
          (if takesArg conversion then args'.rest else args')
          (convert double (readFlags args fmt).1 conversion args'.next last o)
      else vslprintfLoop double last fmt args (o.append [ch])
    else o
termination_by fmt => fmt.length
decreasing_by
  · have hshorter := read_shorter args fmt
    rw [List.length_tail, List.length_cons]
    omega
  · exact Nat.lt_succ_self _

def ngxVslprintf (double : Double) (mem : ℕ → UInt8) (buf last : ℕ) (fmt : List UInt8)
    (args : ℕ → Word) : Out UInt8 :=
  vslprintfLoop double last fmt ⟨args,0⟩ ⟨mem,buf⟩

/-! Every part writes up to the bound -/

theorem read_take (mem : ℕ → UInt8) (a k n : ℕ) :
    readRange mem a (a+min k n) = (readRange mem a (a+n)).take k := by
  rw [readRange, readRange, Nat.add_sub_cancel_left, Nat.add_sub_cancel_left, ← List.map_take]
  rcases le_total n k with h|h
  · rw [List.take_range'_of_length_le h, min_eq_right h]
  · rw [List.take_range'_of_length_ge h, min_eq_left h]

theorem clamp_within (p : List UInt8) : Within 0 fun last o =>
    o.append (p.take (if o.pos+p.length > last then last-o.pos else p.length)) := by
  have hclamp : (fun (last : ℕ) (o : Out UInt8) =>
      o.append (p.take (if o.pos+p.length > last then last-o.pos else p.length))) =
      fun last o => o.append (p.take (last-o.pos)) := by
    funext last o
    split_ifs with hlong
    · rfl
    · rw [List.take_of_length_le le_rfl, List.take_of_length_le (by omega)]
  rw [hclamp]
  exact within_copy fun _ => p

theorem num_within (ui64 : ℕ) (zero : UInt8) (hex width : ℕ) :
    Within 0 fun last o => ngxSprintfNum last ui64 zero hex width o := by
  have hpadding := within_emit (padding zero width) fun _ => (temp hex ui64).length
  have hnumber := within_comp hpadding (clamp_within (temp hex ui64))
  exact hnumber

theorem copy_within (data len : Out UInt8 → ℕ) :
    Within 0 fun last o => copyString last (data o) (len o) o := by
  have hwithin := within_copy fun o => readRange o.mem (data o) (data o+len o)
  simp only [← read_take] at hwithin
  exact hwithin

theorem number_within (n : Number) : Within 1 (writeNumber n) := by
  have hwrite : writeNumber n = fun last o => writeNumber n last o := rfl
  rw [hwrite]
  simp only [writeNumber]
  split_ifs
  · exact within_comp (within_put fun _ => 45) (num_within _ _ _ _)
  · exact within_weaken (num_within _ _ _ _)
  · exact within_weaken (num_within _ _ _ _)

theorem double_within (double : Double) (flags : Flags) (w : Word) :
    Within 1 (writeDouble double flags w) := by
  unfold writeDouble
  generalize double w flags.fracWidth = parts
  obtain ⟨negative,whole,fraction⟩ := parts
  have hsign : Within 1 fun _ (o : Out UInt8) => if negative then o.append [45] else o := by
    cases negative with
    | false => exact within_weaken within_none
    | true => exact within_put fun _ => 45
  have hwhole := within_comp hsign (num_within whole flags.zero 0 flags.width)
  by_cases hfraction : flags.fracWidth = 0
  · simp only [hfraction, if_true]
    exact hwhole
  simp only [hfraction, if_false]
  exact within_comp (within_comp hwhole (within_room (within_put fun _ => 46)))
    (num_within fraction 48 0 flags.fracWidth)

theorem convert_within (double : Double) (flags : Flags) (conversion : UInt8) (w : Word) :
    Within 1 (convert double flags conversion w) := by
  unfold convert
  split_ifs
  · exact within_weaken (copy_within _ _)
  · exact within_weaken (copy_within _ _)
  · exact within_weaken (within_emit stringChar fun _ => w.toNat)
  · exact within_weaken (copy_within _ _)
  · exact double_within double flags w
  · exact within_put fun _ => UInt8.ofNat w.toNat
  · exact within_put fun _ => 0
  · exact within_put fun _ => 10
  · exact within_put fun _ => 37
  · cases numberOf flags conversion w with
    | none => exact within_put fun _ => conversion
    | some n => exact number_within n

theorem loop_within (double : Double) (fmt : List UInt8) (args : Args) :
    Within 0 fun last o => vslprintfLoop double last fmt args o := by
  induction hn : fmt.length using Nat.strong_induction_on generalizing fmt args with
  | _ n ih =>
    cases fmt with
    | nil =>
      simp only [vslprintfLoop]
      exact within_none
    | cons ch fmt =>
      rw [List.length_cons] at hn
      simp only [vslprintfLoop]
      by_cases hch : ch = 0
      · simp only [hch, ne_eq, not_true_eq_false, false_and, if_false]
        exact within_none
      simp only [hch, ne_eq, not_false_eq_true, true_and]
      by_cases hpercent : ch = 37
      · simp only [hpercent, if_true]
        have hshorter := read_shorter args fmt
        refine within_room (within_comp (convert_within _ _ _ _) (ih _ ?_ _ _ rfl))
        rw [List.length_tail]
        omega
      · simp only [hpercent, if_false]
        exact within_room (within_comp (within_put fun _ => ch) (ih _ (by omega) _ _ rfl))

/-- No byte is written at or behind the bound, the returned pointer is not behind it, and what has
been written is the beginning of what is written up to any larger bound. -/
theorem vslprintf_bounded (double : Double) (mem : ℕ → UInt8) {buf last : ℕ} (h : buf ≤ last)
    (fmt : List UInt8) (args : ℕ → Word) :
    (ngxVslprintf double mem buf last fmt args).pos ≤ last ∧
    Extends ⟨mem,buf⟩ (ngxVslprintf double mem buf last fmt args) ∧
    ∀ last' ≥ last,
      readRange (ngxVslprintf double mem buf last fmt args).mem buf
          (ngxVslprintf double mem buf last fmt args).pos =
        (readRange (ngxVslprintf double mem buf last' fmt args).mem buf
          (ngxVslprintf double mem buf last' fmt args).pos).take (last-buf) := by
  have hwithin := loop_within double fmt ⟨args,0⟩
  exact ⟨hwithin.bound last ⟨mem,buf⟩ h,hwithin.extend last ⟨mem,buf⟩ h,
    fun last' hl => within_prefix hwithin (o := ⟨mem,buf⟩) h hl⟩

/-- `%5ud%s` of 42 and the string `ab` -/
def sample (last : ℕ) : Out UInt8 :=
  ngxVslprintf (fun _ _ => (false,0,0)) (fun a => if a = 100 then 97 else if a = 101 then 98 else 0)
    0 last [37,53,117,100,37,115] fun k => if k = 0 then 42 else 100

/-- The text is cut to six bytes. -/
theorem vslprintf_bounded_cut :
    readRange (sample 6).mem 0 (sample 6).pos = [32,32,32,52,50,97] ∧ (sample 6).pos ≤ 6 ∧
      ∀ last ≥ 6, readRange (sample 6).mem 0 (sample 6).pos =
        (readRange (sample last).mem 0 (sample last).pos).take 6 := by
  obtain ⟨hbound,_,hfront⟩ := vslprintf_bounded (fun _ _ => (false,0,0))
    (fun a => if a = 100 then 97 else if a = 101 then 98 else 0) (Nat.zero_le 6)
    [37,53,117,100,37,115] fun k => if k = 0 then 42 else 100
  exact ⟨by decide +kernel,hbound,hfront⟩

end Nginx.Sprintf
