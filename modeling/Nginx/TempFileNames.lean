import Mathlib.Algebra.Order.BigOperators.Group.List
import Nginx.Atoi
import Nginx.TryFiles

/-!
# The names of temporary files

A name ends with a number of ten digits, and the directories before it are groups of digits
from its end. The buffer is written at its end first, and the digits are copied inside of it.
Sizes are numbers of 64 bits; what is read or written outside of the buffer has no result.
-/

set_option autoImplicit false

namespace Nginx.TempFileNames
open Atoi TryFiles

/-! The code -/

/-- `ngx_path_t`, with the three levels as a list. -/
structure Path where
  name : List UInt8
  len : ℕ
  level : List ℕ
  deriving DecidableEq, Repr

def size (n : ℕ) : ℕ := n % 2^64

def tenDigits (k : ℕ) : List UInt8 :=
  (List.range 10).map fun i => UInt8.ofNat (48+k/10^(9-i)%10)

/-- The loop of `ngx_conf_set_path_slot`; `none` is an invalid value. -/
@[grind =] def levelLoop : List (List UInt8) → Path → Option Path
  | [], path => some path
  | value::values, path =>
    let level := ngxAtoi value
    if level = ngxError ∨ level = 0 then none
    else levelLoop values
      { path with level := path.level++[level.toNat], len := size (path.len+(level.toNat+1)) }

/-- `ngx_conf_set_path_slot`; `fullName` is `ngx_conf_full_name`. The directives take up to
three values behind the directory. An empty directory, in front of which a byte is looked at, is
left out. -/
def ngxConfSetPathSlot (fullName : List UInt8 → List UInt8) (value : List UInt8)
    (values : List (List UInt8)) : Option Path :=
  let name := if value.getLast? = some 47 then value.dropLast else value
  (levelLoop values ⟨fullName name,0,[]⟩).map (fun path =>
    { path with level := path.level++List.replicate (3-path.level.length) 0 })

@[grind =] def hashLoop : List ℕ → List UInt8 → ℕ → ℕ → Option (List UInt8)
  | [], file, _, _ => some file
  | level::levels, file, i, len =>
    if level = 0 then some file
    else
      let len := sizeSub len level
      (writeAt file (i-1) [47]).bind (fun file =>
        (memmove file i len level).bind (fun file =>
          hashLoop levels file (size (i+level+1)) len))

def ngxCreateHashedFilename (path : Path) (file : List UInt8) (len : ℕ) : Option (List UInt8) :=
  (writeAt file (size (path.name.length+path.len)) [47]).bind (fun file =>
    hashLoop path.level file (size (path.name.length+1)) len)

def nameLen (path : Path) : ℕ := size (path.name.length+1+path.len+10)

/-- How `ngx_create_temp_file` makes the name for the number `n`. `junk` is what the memory has
held, which is the last name when the loop comes here again. -/
def tempFileName (junk : ℕ → UInt8) (path : Path) (n : ℕ) : Option (List UInt8) :=
  (writeAt (ngxPnalloc junk (size (nameLen path+1))) 0 path.name).bind (fun file =>
    (writeAt file (size (path.name.length+1+path.len)) (tenDigits n++[0])).bind (fun file =>
      ngxCreateHashedFilename path file (nameLen path)))

def cString (file : List UInt8) : List UInt8 := file.takeWhile (· ≠ 0)

/-- The directories that were asked for, the answer, and the name. -/
structure Made where
  dirs : List (List UInt8)
  ok : Bool
  file : List UInt8
  deriving DecidableEq, Repr

/-- The loop of `ngx_create_path`; `createDir` says of a name whether the directory was made or
has been there. -/
@[grind =] def createLoop (createDir : List UInt8 → Bool) :
    List ℕ → List UInt8 → ℕ → Option Made
  | [], file, _ => some ⟨[],true,file⟩
  | level::levels, file, pos =>
    if level = 0 then some ⟨[],true,file⟩
    else
      let pos := size (pos+(level+1))
      (writeAt file pos [0]).bind (fun file =>
        if createDir (cString file) then
          (writeAt file pos [47]).bind (fun file' =>
            (createLoop createDir levels file' pos).map (fun made =>
              { made with dirs := cString file::made.dirs }))
        else some ⟨[cString file],false,file⟩)

def ngxCreatePath (createDir : List UInt8 → Bool) (path : Path) (file : List UInt8) : Option Made :=
  createLoop createDir path.level file (size path.name.length)

/-! The names -/

@[grind =] def groups : List ℕ → List UInt8 → List (List UInt8)
  | [], _ => []
  | level::levels, digits =>
    digits.drop (digits.length-level)::groups levels (digits.take (digits.length-level))

def between (levels : List ℕ) (digits : List UInt8) : List UInt8 :=
  (groups levels digits).flatMap (47::·)

def hashedName (dir : List UInt8) (levels : List ℕ) (n : ℕ) : List UInt8 :=
  dir++between levels (tenDigits n)++47::tenDigits n

/-- The directories below `dir`, each in the one before it. -/
@[grind =] def dirsBelow (dir : List UInt8) : List (List UInt8) → List (List UInt8)
  | [] => []
  | group::rest => (dir++47::group)::dirsBelow (dir++47::group) rest

/-- What a path does for the number `n`. -/
structure Meets (junk : ℕ → UInt8) (path : Path) (levels : List ℕ) (n : ℕ) : Prop where
  name : tempFileName junk path n = some (hashedName path.name levels n++[0])
  differs : ∀ junk' n', n' < 2^32 → tempFileName junk' path n' = tempFileName junk path n → n' = n
  dirs : ∀ createDir, ∃ made,
    ngxCreatePath createDir path (hashedName path.name levels n++[0]) = some made ∧
      made.dirs <+: (dirsBelow path.name (groups levels (tenDigits n))).map cString ∧
      (made.ok = true → made.dirs = (dirsBelow path.name (groups levels (tenDigits n))).map cString ∧
        made.file = hashedName path.name levels n++[0])

theorem size_small (n : ℕ) (h : n < 2^64) : size n = n := Nat.mod_eq_of_lt h

/-! The directive -/

theorem atoi_range (value : List UInt8) :
    ngxAtoi value = ngxError ∨ (0 ≤ ngxAtoi value ∧ ngxAtoi value < 2^63) := by
  rw [ngxAtoi, read_number]
  cases (if value = [] then none else (Numeral.digits decimalDigit value).map (Numeral.value 10)) with
  | none => exact Or.inl rfl
  | some v =>
    rw [Option.elim_some, checkSign]
    split_ifs with hneg
    · exact Or.inl rfl
    · exact Or.inr ⟨not_lt.mp hneg,(OffT.off_range v).2⟩

def levelsOf (values : List (List UInt8)) : List ℕ := values.map (fun value => (ngxAtoi value).toNat)

theorem level_loop (values : List (List UInt8)) (path path' : Path) (hlen : path.len < 2^64)
    (h : levelLoop values path = some path') : path'.name = path.name ∧
      path'.level = path.level++levelsOf values ∧
      (∀ l ∈ levelsOf values, 0 < l ∧ l < 2^63) ∧
      path'.len = size (path.len+((levelsOf values).sum+(levelsOf values).length)) := by
  induction values generalizing path with
  | nil =>
    rw [levelLoop, Option.some.injEq] at h
    subst h
    exact ⟨rfl,(List.append_nil _).symm,nofun,(size_small _ hlen).symm⟩
  | cons value values ih =>
    rw [levelLoop] at h
    split_ifs at h with hvalue
    have hsize : ∀ n, size n < 2^64 := fun n => Nat.mod_lt n (by decide)
    obtain ⟨hname,hlevel,hrange,hlen'⟩ := ih _ (hsize _) h
    have hcons : levelsOf (value::values) = (ngxAtoi value).toNat::levelsOf values := rfl
    rw [hcons]
    refine ⟨hname,?_,?_,?_⟩
    · rw [hlevel, List.append_assoc]
      rfl
    · rintro l hl
      rcases List.mem_cons.mp hl with rfl | hl
      · have hrange' := atoi_range value
        rw [not_or] at hvalue
        omega
      · exact hrange l hl
    · rw [hlen', List.sum_cons, List.length_cons]
      show (size _+_) % 2^64 = _ % 2^64
      rw [size]
      omega

/-- A path of a directive: its levels, then zeros, and the length that they take. -/
structure Accepted (path : Path) (levels : List ℕ) : Prop where
  level : ∃ k, path.level = levels++List.replicate k 0
  range : ∀ l ∈ levels, 0 < l ∧ l < 2^63
  len : path.len = size (levels.sum+levels.length)

theorem slot_accepted (fullName : List UInt8 → List UInt8) (value : List UInt8)
    (values : List (List UInt8)) (path : Path)
    (h : ngxConfSetPathSlot fullName value values = some path) :
    Accepted path (levelsOf values) := by
  obtain ⟨path',hloop,rfl⟩ := Option.map_eq_some_iff.mp h
  obtain ⟨-,hlevel,hrange,hlen⟩ := level_loop values _ path' (by show 0 < 2^64; decide) hloop
  rw [List.nil_append] at hlevel
  rw [Nat.zero_add] at hlen
  exact ⟨⟨_,congrArg (·++_) hlevel⟩,hrange,hlen⟩

/-! Writes and copies inside of the buffer -/

theorem write_between (a b c bytes : List UInt8) (h : bytes.length = b.length) :
    writeAt (a++(b++c)) a.length bytes = some (a++(bytes++c)) := by
  rw [writeAt, if_pos (by simp only [List.length_append]; omega), List.take_left, h,
    ← List.drop_drop, List.drop_left, List.drop_left, List.append_assoc]

theorem write_place (a b c bytes : List UInt8) (pos : ℕ) (hpos : pos = a.length)
    (h : bytes.length = b.length) : writeAt (a++(b++c)) pos bytes = some (a++(bytes++c)) := by
  rw [hpos, write_between a b c bytes h]

theorem copy_back (a b c d e : List UInt8) (target source count : ℕ) (ht : target = a.length)
    (hs : source = a.length+(b.length+c.length)) (hc : count = d.length)
    (hb : d.length = b.length) :
    memmove (a++(b++(c++(d++e)))) target source count = some (a++(d++(c++(d++e)))) := by
  have hdrop : (a++(b++(c++(d++e)))).drop source = d++e := by
    rw [hs, ← List.drop_drop, List.drop_left, ← List.drop_drop, List.drop_left, List.drop_left]
  rw [memmove, if_pos (by simp only [List.length_append]; omega), hdrop, hc, List.take_left]
  exact write_place a b _ d target ht hb

/-! The groups -/

theorem ten_digits_length (n : ℕ) : (tenDigits n).length = 10 := by
  simp [tenDigits]

/-- The loop over the levels. `front` is the name up to the next slash, `room` what is free
behind it, and `rest` the digits that have not been used. -/
theorem hash_loop (levels : List ℕ) (k : ℕ) (front room rest used : List UInt8) (i len : ℕ)
    (hrange : ∀ l ∈ levels, 0 < l) (hroom : room.length = levels.sum+levels.length)
    (hsum : levels.sum ≤ rest.length) (hi : i = front.length+1)
    (hlen : len = front.length+(room.length+1)+rest.length)
    (hsmall : front.length+(room.length+1)+rest.length < 2^64) :
    hashLoop (levels++List.replicate k 0) (front++(room++47::(rest++used))) i len =
      some (front++(between levels rest++47::(rest++used))) := by
  induction levels generalizing front room rest used i len with
  | nil =>
    have hnil : room = [] := List.length_eq_zero_iff.mp hroom
    rw [hnil]
    cases k with
    | zero => rfl
    | succ k => rfl
  | cons level levels ih =>
    have hlevel := hrange level List.mem_cons_self
    rw [List.sum_cons, List.length_cons] at hroom
    rw [List.sum_cons] at hsum
    obtain ⟨x,room,rfl⟩ := List.exists_cons_of_length_pos (show 0 < room.length by omega)
    rw [List.length_cons] at hroom hlen hsmall
    -- The room for this group, and the group itself at the end of what is left.
    have hroomSplit := List.take_append_drop level room
    have hgroupSplit := List.take_append_drop (rest.length-level) rest
    have htake : (room.take level).length = level := by
      rw [List.length_take]
      omega
    have hgroup : (rest.drop (rest.length-level)).length = level := by
      rw [List.length_drop]
      omega
    have hleft : (rest.take (rest.length-level)).length = rest.length-level := by
      rw [List.length_take]
      omega
    have hsub : sizeSub len level = len-level := if_pos (by omega)
    rw [List.cons_append, hashLoop, if_neg (by omega), hsub, List.cons_append,
      ← List.singleton_append (x := x),
      write_place front [x] _ [47] (i-1) (by omega) rfl, Option.bind_some]
    have hfile : front++([47]++(room++47::(rest++used))) = (front++[47])++(room.take level++
        ((room.drop level++47::rest.take (rest.length-level))++
          (rest.drop (rest.length-level)++used))) := by
      conv_lhs => rw [← hroomSplit, ← hgroupSplit]
      simp only [List.append_assoc, List.cons_append, List.nil_append]
    rw [hfile, copy_back (front++[47]) (room.take level) _ (rest.drop (rest.length-level)) used i
      (len-level) level (by simp; omega) (by simp; omega) hgroup.symm
      (hgroup.trans htake.symm), Option.bind_some]
    have hnext := ih (front++47::rest.drop (rest.length-level)) (room.drop level)
      (rest.take (rest.length-level)) (rest.drop (rest.length-level)++used) (size (i+level+1))
      (len-level) (fun l hl => hrange l (List.mem_cons_of_mem _ hl)) (by simp; omega)
      (by rw [hleft]; omega) (by rw [size_small _ (by omega)]; simp; omega) (by simp; omega)
      (by simp; omega)
    have hfile' : (front++[47])++(rest.drop (rest.length-level)++
        ((room.drop level++47::rest.take (rest.length-level))++
          (rest.drop (rest.length-level)++used))) =
        (front++47::rest.drop (rest.length-level))++(room.drop level++47::(rest.take
          (rest.length-level)++(rest.drop (rest.length-level)++used))) := by
      simp only [List.append_assoc, List.cons_append, List.nil_append]
    have hcons : between (level::levels) rest = 47::rest.drop (rest.length-level)++
        between levels (rest.take (rest.length-level)) := rfl
    have hused : rest.take (rest.length-level)++(rest.drop (rest.length-level)++used) =
        rest++used := by
      rw [← List.append_assoc, hgroupSplit]
    rw [hfile', hnext, hcons, hused]
    simp only [List.append_assoc, List.cons_append]

theorem groups_length (levels : List ℕ) (digits : List UInt8) :
    (between levels digits).length = min levels.sum digits.length+levels.length := by
  induction levels generalizing digits with
  | nil => simp [between, groups]
  | cons level levels ih =>
    have hcons : between (level::levels) digits = 47::digits.drop (digits.length-level)++
        between levels (digits.take (digits.length-level)) := rfl
    rw [hcons, List.length_append, List.length_cons, ih, List.length_drop, List.length_take,
      List.sum_cons, List.length_cons]
    omega

theorem hashed_name_length (dir : List UInt8) (levels : List ℕ) (n : ℕ) :
    (hashedName dir levels n).length = dir.length+min levels.sum 10+levels.length+11 := by
  rw [hashedName, List.length_append, List.length_append, List.length_cons, groups_length,
    ten_digits_length]
  omega

/-- The sizes of a path are numbers of 64 bits, as they are for every name that is in memory. -/
def Fits (path : Path) (levels : List ℕ) : Prop :=
  path.name.length+levels.sum+levels.length+12 < 2^64

theorem temp_file_name (junk : ℕ → UInt8) (path : Path) (levels : List ℕ) (n : ℕ)
    (h : Accepted path levels) (hsum : levels.sum ≤ 10) (hfits : Fits path levels) :
    tempFileName junk path n = some (hashedName path.name levels n++[0]) := by
  obtain ⟨⟨k,hlevel⟩,hrange,hlen⟩ := h
  rw [Fits] at hfits
  rw [size_small _ (by omega)] at hlen
  have hname : nameLen path = path.name.length+1+path.len+10 := size_small _ (by omega)
  rw [tempFileName, hname, size_small _ (by omega), size_small _ (by omega)]
  -- The buffer as the place of the directory, the room behind it and the place of the number.
  have hdigits : (tenDigits n++[0]).length = 11 := by
    rw [List.length_append, ten_digits_length]
    rfl
  generalize hmem : ngxPnalloc junk (path.name.length+1+path.len+10+1) = mem
  have hlength : mem.length = path.name.length+1+path.len+10+1 := by
    rw [← hmem, pnalloc_length]
  obtain ⟨a,b,rfl,ha⟩ : ∃ a b, mem = a++b ∧ a.length = path.name.length :=
    ⟨_,_,(List.take_append_drop path.name.length mem).symm,by
      rw [List.length_take]
      omega⟩
  rw [List.length_append] at hlength
  obtain ⟨c,d,rfl,hc⟩ : ∃ c d, b = c++d ∧ c.length = path.len :=
    ⟨_,_,(List.take_append_drop path.len b).symm,by
      rw [List.length_take]
      omega⟩
  rw [List.length_append] at hlength
  obtain ⟨y,d,rfl⟩ := List.exists_cons_of_length_pos (show 0 < d.length by omega)
  rw [List.length_cons] at hlength
  have hfirst := write_place [] a (c++y::d) path.name 0 rfl ha.symm
  rw [List.nil_append, List.nil_append] at hfirst
  have hsecond := write_place (path.name++(c++[y])) d [] (tenDigits n++[0])
    (path.name.length+1+path.len) (by simp; omega) (by omega)
  rw [List.append_nil, List.append_nil] at hsecond
  have hsplit : path.name++(c++y::d) = path.name++(c++[y])++d := by simp
  rw [hfirst, Option.bind_some, hsplit, hsecond, Option.bind_some, ngxCreateHashedFilename,
    size_small _ (by omega), size_small _ (by omega)]
  have hthird := write_place (path.name++c) [y] (tenDigits n++[0]) [47]
    (path.name.length+path.len) (by simp; omega) rfl
  have hsplit' : path.name++(c++[y])++(tenDigits n++[0]) =
      path.name++c++([y]++(tenDigits n++[0])) := by simp
  rw [hsplit', hthird, Option.bind_some, List.append_assoc, List.singleton_append, hlevel]
  rw [hash_loop levels k path.name c (tenDigits n) [0] _ _ (fun l hl => (hrange l hl).1)
    (by omega) (by rw [ten_digits_length]; omega) rfl (by rw [ten_digits_length]; omega)
    (by rw [ten_digits_length]; omega), hashedName, List.append_assoc, List.append_assoc]
  rfl

/-! What a name that was made says of the levels -/

theorem write_length (data data' : List UInt8) (pos : ℕ) (bytes : List UInt8)
    (h : writeAt data pos bytes = some data') : data'.length = data.length := by
  rw [writeAt] at h
  split_ifs at h with hin
  rw [← Option.some.inj h]
  simp only [List.length_append, List.length_take, List.length_drop]
  omega

theorem copy_length (data data' : List UInt8) (target source count : ℕ)
    (h : memmove data target source count = some data') :
    data'.length = data.length ∧ source+count ≤ data.length := by
  rw [memmove] at h
  split_ifs at h with hin
  exact ⟨write_length _ _ _ _ h,hin⟩

theorem hash_loop_inside (levels : List ℕ) (k : ℕ) (file file' : List UInt8) (i len : ℕ)
    (hrange : ∀ l ∈ levels, 0 < l ∧ l < 2^63) (hfile : file.length < 2^64)
    (h : hashLoop (levels++List.replicate k 0) file i len = some file') :
    file'.length = file.length ∧ levels.sum ≤ len := by
  induction levels generalizing file i len with
  | nil =>
    have hsame : file = file' := by
      cases k with
      | zero => exact Option.some.inj h
      | succ k => exact Option.some.inj h
    rw [hsame]
    exact ⟨rfl,Nat.zero_le _⟩
  | cons level levels ih =>
    have hlevel := hrange level List.mem_cons_self
    rw [List.cons_append, hashLoop, if_neg (by omega)] at h
    obtain ⟨file1,hwrite,h⟩ := Option.bind_eq_some_iff.mp h
    obtain ⟨file2,hcopy,h⟩ := Option.bind_eq_some_iff.mp h
    have hlen1 := write_length _ _ _ _ hwrite
    obtain ⟨hlen2,hin⟩ := copy_length _ _ _ _ _ hcopy
    obtain ⟨hlen3,hsum⟩ := ih file2 _ _ (fun l hl => hrange l (List.mem_cons_of_mem _ hl))
      (by omega) h
    have hle : level ≤ len := by
      by_contra hlt
      rw [sizeSub, if_neg hlt] at hin
      omega
    rw [sizeSub, if_pos hle] at hsum
    refine ⟨by omega,?_⟩
    rw [List.sum_cons]
    omega

theorem temp_file_inside (junk : ℕ → UInt8) (path : Path) (levels : List ℕ) (n : ℕ)
    (file : List UInt8) (h : Accepted path levels) (hname : tempFileName junk path n = some file) :
    file.length = size (nameLen path+1) ∧ levels.sum ≤ nameLen path := by
  obtain ⟨⟨k,hlevel⟩,hrange,-⟩ := h
  obtain ⟨file1,h1,hname⟩ := Option.bind_eq_some_iff.mp hname
  obtain ⟨file2,h2,hname⟩ := Option.bind_eq_some_iff.mp hname
  obtain ⟨file3,h3,hname⟩ := Option.bind_eq_some_iff.mp hname
  have hlen1 := write_length _ _ _ _ h1
  have hlen2 := write_length _ _ _ _ h2
  have hlen3 := write_length _ _ _ _ h3
  rw [pnalloc_length] at hlen1
  have hsmall : size (nameLen path+1) < 2^64 := Nat.mod_lt _ (by decide)
  rw [hlevel] at hname
  obtain ⟨hlen,hsum⟩ := hash_loop_inside levels k file3 file _ _ hrange (by omega) hname
  exact ⟨by omega,hsum⟩

theorem made_fits (junk : ℕ → UInt8) (path : Path) (levels : List ℕ) (n : ℕ)
    (h : Accepted path levels)
    (hname : tempFileName junk path n = some (hashedName path.name levels n++[0])) :
    levels.sum ≤ 10 ∧ Fits path levels := by
  obtain ⟨hlength,hsum⟩ := temp_file_inside junk path levels n _ h hname
  rw [List.length_append, hashed_name_length, List.length_singleton] at hlength
  have hlen : nameLen path < 2^64 := Nat.mod_lt _ (by decide)
  have hpath := h.len
  rw [nameLen, hpath] at hlength hsum hlen
  simp only [size] at hlength hsum hlen
  rw [Fits]
  omega

/-! Different numbers -/

theorem digit_inj (d e : ℕ) (hd : d < 10) (he : e < 10)
    (h : UInt8.ofNat (48+d) = UInt8.ofNat (48+e)) : d = e := by
  rw [← UInt8.toNat_inj, UInt8.toNat_ofNat', UInt8.toNat_ofNat'] at h
  omega

theorem digits_determine (n n' k : ℕ) (h : ∀ i < k, n/10^i%10 = n'/10^i%10) :
    n%10^k = n'%10^k := by
  induction k with
  | zero => rw [pow_zero, Nat.mod_one, Nat.mod_one]
  | succ k ih =>
    rw [Nat.mod_pow_succ, Nat.mod_pow_succ, ih (fun i hi => h i (by omega)), h k (by omega)]

theorem ten_digits_inj (n n' : ℕ) (hn : n < 2^32) (hn' : n' < 2^32)
    (h : tenDigits n = tenDigits n') : n = n' := by
  have hdigit : ∀ i < 10, n/10^i%10 = n'/10^i%10 := by
    intro i hi
    have hget := List.map_inj_left.mp h (9-i) (List.mem_range.mpr (by omega))
    have hindex : 9-(9-i) = i := by omega
    rw [hindex] at hget
    exact digit_inj _ _ (Nat.mod_lt _ (by decide)) (Nat.mod_lt _ (by decide)) hget
  have hall := digits_determine n n' 10 hdigit
  rwa [Nat.mod_eq_of_lt (by omega), Nat.mod_eq_of_lt (by omega)] at hall

theorem hashed_name_inj (dir : List UInt8) (levels : List ℕ) (n n' : ℕ) (hn : n < 2^32)
    (hn' : n' < 2^32) (h : hashedName dir levels n = hashedName dir levels n') : n = n' := by
  have hend : ∀ m, (hashedName dir levels m).drop (dir.length+min levels.sum 10+levels.length+1) =
      tenDigits m := by
    intro m
    have hfront : (dir++between levels (tenDigits m)++[47]).length =
        dir.length+min levels.sum 10+levels.length+1 := by
      simp only [List.length_append, groups_length, ten_digits_length, List.length_singleton]
      omega
    rw [hashedName, ← List.singleton_append, ← List.append_assoc, List.drop_left' hfront]
  refine ten_digits_inj n n' hn hn' ?_
  rw [← hend n, ← hend n', h]

/-! The directories -/

theorem cstring_stop (a b : List UInt8) : cString (a++0::b) = cString a := by
  induction a with
  | nil => rfl
  | cons x a ih =>
    simp only [cString, List.cons_append, List.takeWhile_cons] at ih ⊢
    rw [ih]

theorem create_loop (createDir : List UInt8 → Bool) (levels : List ℕ) (k : ℕ)
    (front rest used : List UInt8) (pos : ℕ) (hrange : ∀ l ∈ levels, 0 < l)
    (hsum : levels.sum ≤ rest.length) (hpos : pos = front.length)
    (hsmall : front.length+levels.sum+levels.length < 2^64) :
    ∃ made, createLoop createDir (levels++List.replicate k 0)
        (front++(between levels rest++47::used)) pos = some made ∧
      made.dirs <+: (dirsBelow front (groups levels rest)).map cString ∧
      (made.ok = true → made.dirs = (dirsBelow front (groups levels rest)).map cString ∧
        made.file = front++(between levels rest++47::used)) := by
  induction levels generalizing front rest pos with
  | nil =>
    refine ⟨⟨[],true,front++(between [] rest++47::used)⟩,?_,List.nil_prefix,fun _ => ⟨rfl,rfl⟩⟩
    cases k with
    | zero => rfl
    | succ k => rfl
  | cons level levels ih =>
    have hlevel := hrange level List.mem_cons_self
    rw [List.sum_cons] at hsum
    rw [List.sum_cons, List.length_cons] at hsmall
    have hgroup : (rest.drop (rest.length-level)).length = level := by
      rw [List.length_drop]
      omega
    have hcons : between (level::levels) rest = 47::rest.drop (rest.length-level)++
        between levels (rest.take (rest.length-level)) := rfl
    have hdirs : dirsBelow front (groups (level::levels) rest) =
        (front++47::rest.drop (rest.length-level))::dirsBelow
          (front++47::rest.drop (rest.length-level))
          (groups levels (rest.take (rest.length-level))) := rfl
    -- The next slash is the first byte behind this group.
    obtain ⟨tail,htail⟩ : ∃ tail,
        between levels (rest.take (rest.length-level))++47::used = 47::tail := by
      cases levels with
      | nil => exact ⟨used,rfl⟩
      | cons l levels => exact ⟨_,rfl⟩
    have hfile : front++(between (level::levels) rest++47::used) =
        (front++47::rest.drop (rest.length-level))++47::tail := by
      rw [hcons, List.append_assoc, htail]
      simp only [List.append_assoc, List.cons_append]
    have hplace : size (pos+(level+1)) = (front++47::rest.drop (rest.length-level)).length := by
      rw [size_small _ (by omega), List.length_append, List.length_cons, hgroup, hpos]
    have hcut : writeAt ((front++47::rest.drop (rest.length-level))++47::tail)
        (size (pos+(level+1))) [0] = some ((front++47::rest.drop (rest.length-level))++0::tail) :=
      write_place _ [47] tail [0] _ hplace rfl
    have hback : writeAt ((front++47::rest.drop (rest.length-level))++0::tail)
        (size (pos+(level+1))) [47] = some ((front++47::rest.drop (rest.length-level))++47::tail) :=
      write_place _ [0] tail [47] _ hplace rfl
    have hcstring := cstring_stop (front++47::rest.drop (rest.length-level)) tail
    rw [List.cons_append, createLoop, if_neg (by omega), hfile, hdirs]
    dsimp only
    rw [hcut, Option.bind_some, hcstring]
    split_ifs with hmade
    · obtain ⟨made,hrun,hpre,hok⟩ := ih (front++47::rest.drop (rest.length-level))
        (rest.take (rest.length-level)) _ (fun l hl => hrange l (List.mem_cons_of_mem _ hl))
        (by rw [List.length_take]; omega) hplace
        (by rw [List.length_append, List.length_cons, hgroup]; omega)
      rw [htail] at hrun hok
      rw [hback, Option.bind_some, hrun, Option.map_some]
      refine ⟨_,rfl,List.cons_prefix_cons.mpr ⟨rfl,hpre⟩,fun hmadeOk => ?_⟩
      obtain ⟨hall,hfile'⟩ := hok hmadeOk
      exact ⟨congrArg (List.cons _) hall,hfile'⟩
    · exact ⟨_,rfl,List.cons_prefix_cons.mpr ⟨rfl,List.nil_prefix⟩,fun h => by cases h⟩

theorem create_path (createDir : List UInt8 → Bool) (path : Path) (levels : List ℕ) (n : ℕ)
    (h : Accepted path levels) (hsum : levels.sum ≤ 10) (hfits : Fits path levels) :
    ∃ made, ngxCreatePath createDir path (hashedName path.name levels n++[0]) = some made ∧
      made.dirs <+: (dirsBelow path.name (groups levels (tenDigits n))).map cString ∧
      (made.ok = true → made.dirs = (dirsBelow path.name (groups levels (tenDigits n))).map cString ∧
        made.file = hashedName path.name levels n++[0]) := by
  obtain ⟨⟨k,hlevel⟩,hrange,-⟩ := h
  rw [Fits] at hfits
  have hname : hashedName path.name levels n++[0] =
      path.name++(between levels (tenDigits n)++47::(tenDigits n++[0])) := by
    simp only [hashedName, List.append_assoc, List.cons_append]
  rw [hname, ngxCreatePath, hlevel]
  exact create_loop createDir levels k path.name (tenDigits n) (tenDigits n++[0]) _
    (fun l hl => (hrange l hl).1) (by rw [ten_digits_length]; omega) (size_small _ (by omega))
    (by omega)

/-- The names of a path are made of the digits of their numbers, and its directories are
created, if and only if the levels take no more digits than a number has. -/
theorem hashed_temp_names (fullName : List UInt8 → List UInt8) (value : List UInt8)
    (values : List (List UInt8)) (path : Path) (junk : ℕ → UInt8) (n : ℕ)
    (hpath : ngxConfSetPathSlot fullName value values = some path) (hn : n < 2^32) :
    Meets junk path (levelsOf values) n ↔
      (levelsOf values).sum ≤ 10 ∧ Fits path (levelsOf values) := by
  have haccepted := slot_accepted fullName value values path hpath
  constructor
  · exact fun hmeets => made_fits junk path _ n haccepted hmeets.name
  · rintro ⟨hsum,hfits⟩
    have hname : ∀ junk' m, tempFileName junk' path m = _ := fun junk' m =>
      temp_file_name junk' path _ m haccepted hsum hfits
    refine ⟨hname junk n,fun junk' n' hn' hsame => ?_,fun createDir =>
      create_path createDir path _ n haccepted hsum hfits⟩
    rw [hname junk' n', hname junk n] at hsame
    exact hashed_name_inj path.name _ n' n hn' hn (List.append_cancel_right (Option.some.inj hsame))

def usual : Path := ⟨[47,116],5,[1,2,0]⟩

theorem usual_slot : ngxConfSetPathSlot id [47,116] [[49], [50]] = some usual := by
  decide

/-- The name `/t/5/34/0000012345`. -/
theorem hashed_temp_names_usual : Meets (fun _ => 0) usual (levelsOf [[49], [50]]) 12345 ↔
    (levelsOf [[49], [50]]).sum ≤ 10 ∧ Fits usual (levelsOf [[49], [50]]) :=
  hashed_temp_names id [47,116] [[49], [50]] usual (fun _ => 0) 12345 usual_slot (by decide)

/-- With the level 11 the slash before the number is taken for a digit. -/
theorem eleven_digits : ¬ ∀ (fullName : List UInt8 → List UInt8) (value : List UInt8)
    (values : List (List UInt8)) (path : Path) (junk : ℕ → UInt8) (n : ℕ), values.length ≤ 3 →
      ngxConfSetPathSlot fullName value values = some path → n < 2^32 →
        Meets junk path (levelsOf values) n := by
  intro hall
  have hpath : ngxConfSetPathSlot id [47,116] [[49,49]] = some ⟨[47,116],12,[11,0,0]⟩ := by
    decide
  have hmeets := hall id [47,116] [[49,49]] _ (fun _ => 0) 5 (by decide) hpath (by decide)
  obtain ⟨hsum,-⟩ := made_fits _ _ _ _ (slot_accepted _ _ _ _ hpath) hmeets.name
  exact absurd hsum (by decide)

end Nginx.TempFileNames
