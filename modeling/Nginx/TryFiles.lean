import Mathlib.Tactic.Common
import Mathlib.Tactic.Linarith

/-!
# The buffer of try_files

The path of an entry is written behind the root that a buffer holds, and the buffer is kept for
the next entry when it seems large enough. A buffer is a list of its bytes, and a write that is
not inside of it has no result.
-/

set_option autoImplicit false

namespace Nginx.TryFiles

/-! The code -/

/-- The location, and the request in it. `root` is the root or the alias with its variables
expanded and a missing prefix added, `prefixed` says that this has made one more copy. A nested
location that inherits an alias is given with the name that the alias is for, with which its
own name begins; an alias that a regex location inherits is left out. -/
structure Place where
  name : List UInt8
  aliased : Bool
  regex : Bool
  rootLengths : Bool
  root : List UInt8
  prefixed : Bool
  uri : List UInt8
  addUriToAlias : Bool
  validLocation : Bool
  -- an alias on a regex location is compiled as a script
  compiled : aliased = true → regex = true → rootLengths = true
  -- other locations are found by the beginning of the uri
  matched : aliased = true → regex = false → name.length ≤ uri.length
  plain : 0 ∉ name

/-- A name, or what a script expands to; both lengths count the terminating zero byte. -/
structure Entry where
  script : Bool
  text : List UInt8

def aliasLen (place : Place) : ℕ := if place.aliased then place.name.length else 0

def captures (place : Place) : Bool := aliasLen place ≠ 0 && place.regex

/-- `ngx_pnalloc`; `junk` is what the memory has held. -/
def ngxPnalloc (junk : ℕ → UInt8) (size : ℕ) : List UInt8 := (List.range size).map junk

def writeAt (data : List UInt8) (pos : ℕ) (bytes : List UInt8) : Option (List UInt8) :=
  if pos+bytes.length ≤ data.length then
    some (data.take pos++bytes++data.drop (pos+bytes.length))
  else none

def memmove (data : List UInt8) (target source count : ℕ) : Option (List UInt8) :=
  if source+count ≤ data.length then writeAt data target ((data.drop source).take count) else none

def cpystrn (src : List UInt8) : List UInt8 := src.takeWhile (· ≠ 0)++[0]

def reservedOf (place : Place) (reserve : ℕ) : ℕ :=
  if place.rootLengths then
    reserve+(if captures place then if place.addUriToAlias then place.uri.length+1 else 1
      else place.uri.length-aliasLen place+1)
  else reserve+(place.uri.length-aliasLen place)+1

def ngxHttpMapUriToPath (junk : ℕ → UInt8) (place : Place) (reserve : ℕ) : Option (List UInt8) :=
  let size := place.root.length+reservedOf place reserve
  let size := if place.rootLengths ∧ place.prefixed then size+1 else size
  (writeAt (ngxPnalloc junk size) 0 place.root).bind fun data =>
    if place.rootLengths ∧ captures place then
      if place.addUriToAlias then writeAt data place.root.length (cpystrn place.uri)
      else writeAt data place.root.length [0]
    else writeAt data place.root.length (cpystrn (place.uri.drop (aliasLen place)))

/-- Whether `ngx_strncmp` finds `n` bytes equal -/
@[grind =] def ngxStrncmp : ℕ → List UInt8 → List UInt8 → Bool
  | 0, _, _ => true
  | n+1, s1, s2 =>
    if s1.headD 0 ≠ s2.headD 0 then false
    else if s1.headD 0 = 0 then true
    else ngxStrncmp n s1.tail s2.tail

structure State where
  allocated : ℕ
  data : List UInt8

/-- `stopped` is the answer 500 of a location that is not valid for an alias. -/
inductive Turn where
  | outside
  | stopped
  | tested (st : State) (path : List UInt8)

def reserveOf (place : Place) (entry : Entry) : ℕ :=
  ((entry.text.length+1 : ℤ)-place.uri.length).natAbs+aliasLen place+16

def sizeSub (a b : ℕ) : ℕ := if b ≤ a then a-b else a+2^64-b

def newAllocated (place : Place) (reserve : ℕ) : ℕ :=
  sizeSub (reservedOf place reserve) (sizeSub place.uri.length (aliasLen place))

def writeEntry (place : Place) (entry : Entry) (st : State) : Turn :=
  let name := place.root.length
  match writeAt st.data name (entry.text++[0]) with
  | none => .outside
  | some data =>
    if entry.script ∧ aliasLen place ≠ 0 ∧
        ngxStrncmp (aliasLen place) (data.drop name) place.name then
      match memmove data name (name+aliasLen place)
          (sizeSub (entry.text.length+1) (aliasLen place)) with
      | none => .outside
      | some data => .tested { st with data := data }
          (data.take (name+entry.text.length-aliasLen place))
    else .tested { st with data := data } (data.take (name+entry.text.length))

/-- One turn of the loop in `ngx_http_core_try_files_phase` -/
def turn (junk : ℕ → UInt8) (place : Place) (entry : Entry) (st : State) : Turn :=
  let reserve := reserveOf place entry
  if st.allocated < reserve then
    if aliasLen place ≠ 0 ∧ ¬place.validLocation then .stopped
    else
      match ngxHttpMapUriToPath junk place reserve with
      | none => .outside
      | some data => writeEntry place entry ⟨newAllocated place reserve,data⟩
  else writeEntry place entry st

def start : State := ⟨0,[]⟩

/-! Runs -/

/-- The text without the name of the location, where an alias has a script that begins so -/
def expanded (place : Place) (entry : Entry) : List UInt8 :=
  if entry.script ∧ place.aliased ∧ place.name <+: entry.text then
    entry.text.drop place.name.length
  else entry.text

/-- Every entry is written inside the buffer, and the path is the root and its text. -/
@[grind =] def Inside (junk : ℕ → UInt8) (place : Place) : List Entry → State → Prop
  | [], _ => True
  | entry::entries, st =>
    match turn junk place entry st with
    | .outside => False
    | .stopped => True
    | .tested st path => path = place.root++expanded place entry ∧ Inside junk place entries st

/-- The path of an alias on a regex location, which has no room for the uri -/
def Bare (place : Place) : Prop := captures place = true ∧ place.addUriToAlias = false

def distance (place : Place) (entry : Entry) : ℕ :=
  ((entry.text.length+1 : ℤ)-place.uri.length).natAbs

/-- With such a path, the entry is written into the buffer that `owner` has got. The difference
of the uri and the alias, which the path does not have, is taken off all the same. -/
def Keeps (place : Place) (owner entry : Entry) : Prop :=
  distance place entry+place.name.length+16 ≤
    sizeSub (distance place owner+place.name.length+17)
      (sizeSub place.uri.length place.name.length)

instance (place : Place) (owner entry : Entry) : Decidable (Keeps place owner entry) :=
  inferInstanceAs (Decidable (_ ≤ _))

def holder (place : Place) (owner : Option Entry) (entry : Entry) : Entry :=
  match owner with
  | none => entry
  | some owner => if Keeps place owner entry then owner else entry

/-- Every entry fits into what is behind the root in the buffer of the entry that has got it. -/
@[grind =] def FitFrom (place : Place) : Option Entry → List Entry → Prop
  | _, [] => True
  | owner, entry::entries =>
    entry.text.length+1 ≤ distance place (holder place owner entry)+place.name.length+17+
      (if place.prefixed then 1 else 0) ∧ FitFrom place (some (holder place owner entry)) entries

def AllFit (place : Place) (entries : List Entry) : Prop :=
  Bare place → place.validLocation = true → FitFrom place none entries

/-! ## Writes -/

theorem write_inside (data : List UInt8) (pos : ℕ) (bytes : List UInt8)
    (h : pos+bytes.length ≤ data.length) : ∃ data', writeAt data pos bytes = some data' ∧
      data'.length = data.length ∧ data'.take pos = data.take pos ∧
      data'.drop pos = bytes++data.drop (pos+bytes.length) := by
  have hpos : (data.take pos).length = pos := by
    rw [List.length_take]
    omega
  refine ⟨_,if_pos h,?_,?_,?_⟩
  · simp only [List.length_append, List.length_take, List.length_drop]
    omega
  · rw [List.append_assoc, List.take_left' hpos]
  · rw [List.append_assoc, List.drop_left' hpos]

theorem take_behind (data root bytes rest : List UInt8) (hroot : data.take root.length = root)
    (hdrop : data.drop root.length = bytes++rest) (k : ℕ) (hk : k ≤ bytes.length) :
    data.take (root.length+k) = root++bytes.take k := by
  have hsplit : data = root++(bytes++rest) := by
    rw [← hdrop]
    conv_lhs => rw [← List.take_append_drop root.length data]
    rw [hroot]
  conv_lhs => rw [hsplit]
  rw [List.take_length_add_append, List.take_append_of_le_length hk]

theorem cpystrn_length (src : List UInt8) : (cpystrn src).length ≤ src.length+1 := by
  have := (List.takeWhile_sublist (l := src) fun c => decide (c ≠ 0)).length_le
  rw [cpystrn, List.length_append, List.length_singleton]
  omega

theorem strncmp_front (name text rest : List UInt8) (h0 : 0 ∉ name) :
    ngxStrncmp name.length (text++0::rest) name = true ↔ name <+: text := by
  induction name generalizing text with
  | nil => simp [ngxStrncmp]
  | cons c name ih =>
    have hc : c ≠ 0 := fun h => h0 (by simp [h])
    rcases text with _ | ⟨d,text⟩
    · simp [ngxStrncmp, hc.symm]
    rw [List.length_cons, ngxStrncmp, List.cons_append, List.headD_cons, List.headD_cons,
      List.tail_cons, List.tail_cons, List.cons_prefix_cons]
    by_cases hd : d = c
    · subst hd
      rw [if_neg (by simp), if_neg hc, ih text fun h => h0 (by simp [h])]
      simp
    · simp [hd, Ne.symm hd]

/-! ## One entry -/

variable (place : Place) (entry : Entry)

def Rooted (data : List UInt8) : Prop :=
  place.root.length ≤ data.length ∧ data.take place.root.length = place.root

theorem rooted_of {data data' : List UInt8} (h : Rooted place data)
    (hlen : data'.length = data.length)
    (htake : data'.take place.root.length = data.take place.root.length) :
    Rooted place data' := ⟨hlen ▸ h.1,htake.trans h.2⟩

theorem expanded_not (h : ¬(entry.script = true ∧ aliasLen place ≠ 0 ∧ place.name <+: entry.text)) :
    expanded place entry = entry.text := by
  unfold expanded
  split
  · rename_i hs
    have hz : aliasLen place = 0 := by
      by_contra hne
      exact h ⟨hs.1,hne,hs.2.2⟩
    rw [aliasLen, if_pos hs.2.1] at hz
    rw [hz, List.drop_zero]
  · rfl

theorem write_entry_inside (st : State) (h : Rooted place st.data)
    (hfit : place.root.length+entry.text.length+1 ≤ st.data.length) :
    ∃ data, writeEntry place entry st =
        .tested ⟨st.allocated,data⟩ (place.root++expanded place entry) ∧
      Rooted place data ∧ data.length = st.data.length := by
  obtain ⟨data,hwrite,hlen,htake,hdrop⟩ := write_inside st.data place.root.length
    (entry.text++[0]) (by simpa [add_assoc] using hfit)
  have hr := rooted_of place h hlen htake
  rw [List.append_assoc] at hdrop
  unfold writeEntry
  simp only [hwrite]
  by_cases hstrip : entry.script = true ∧ aliasLen place ≠ 0 ∧ place.name <+: entry.text
  · obtain ⟨hscript,hne,hpre⟩ := hstrip
    have haliased : place.aliased = true := by
      by_contra hf
      exact hne (if_neg hf)
    have halias : aliasLen place = place.name.length := if_pos haliased
    have hle := hpre.length_le
    have hcmp : ngxStrncmp (aliasLen place) (data.drop place.root.length) place.name = true := by
      rw [halias, hdrop]
      exact (strncmp_front _ _ _ place.plain).mpr hpre
    have hsub : sizeSub (entry.text.length+1) (aliasLen place) =
        entry.text.length+1-place.name.length := by
      rw [halias, sizeSub, if_pos (by omega)]
    have hbytes : (data.drop (place.root.length+place.name.length)).take
        (entry.text.length+1-place.name.length) = entry.text.drop place.name.length++[0] := by
      rw [← List.drop_drop, hdrop, List.drop_append_of_le_length hle, ← List.append_assoc]
      refine List.take_left' ?_
      rw [List.length_append, List.length_drop, List.length_singleton]
      omega
    have hblen : (entry.text.drop place.name.length++[(0 : UInt8)]).length =
        entry.text.length+1-place.name.length := by
      rw [List.length_append, List.length_drop, List.length_singleton]
      omega
    obtain ⟨data',hwrite',hlen',htake',hdrop'⟩ := write_inside data place.root.length
      (entry.text.drop place.name.length++[0]) (by rw [hblen]; omega)
    have hmove : memmove data place.root.length (place.root.length+aliasLen place)
        (sizeSub (entry.text.length+1) (aliasLen place)) = some data' := by
      rw [memmove, hsub, halias, if_pos (by omega), hbytes, hwrite']
    have hr' := rooted_of place hr hlen' htake'
    rw [if_pos ⟨hscript,hne,hcmp⟩, hmove]
    refine ⟨data',?_,hr',hlen'.trans hlen⟩
    have hpath : data'.take (place.root.length+entry.text.length-aliasLen place) =
        place.root++entry.text.drop place.name.length := by
      rw [halias, Nat.add_sub_assoc hle,
        take_behind data' place.root _ _ hr'.2 hdrop' _ (by omega)]
      congr 1
      exact List.take_left' List.length_drop
    rw [expanded, if_pos ⟨hscript,haliased,hpre⟩]
    dsimp only
    rw [hpath]
  have hcmp : ¬(entry.script = true ∧ aliasLen place ≠ 0 ∧
      ngxStrncmp (aliasLen place) (data.drop place.root.length) place.name = true) := by
    rintro ⟨hscript,hne,hcmp⟩
    have haliased : place.aliased = true := by
      by_contra hf
      exact hne (if_neg hf)
    rw [show aliasLen place = place.name.length from if_pos haliased, hdrop] at hcmp
    exact hstrip ⟨hscript,hne,(strncmp_front _ _ _ place.plain).mp hcmp⟩
  rw [if_neg hcmp]
  refine ⟨data,?_,hr,hlen⟩
  rw [expanded_not place entry hstrip,
    take_behind data place.root entry.text _ hr.2 hdrop _ le_rfl, List.take_length]

theorem write_entry_outside (st : State)
    (hfit : ¬place.root.length+entry.text.length+1 ≤ st.data.length) :
    writeEntry place entry st = .outside := by
  have hno : writeAt st.data place.root.length (entry.text++[0]) = none := by
    rw [writeAt, if_neg]
    simpa [add_assoc] using hfit
  unfold writeEntry
  simp only [hno]

/-! ## The buffer -/

def room (place : Place) (reserve : ℕ) : ℕ :=
  reservedOf place reserve+(if place.rootLengths ∧ place.prefixed then 1 else 0)

theorem captures_iff : captures place = true ↔ place.aliased = true ∧ place.name.length ≠ 0 ∧
    place.regex = true := by
  unfold captures aliasLen
  cases place.aliased <;> simp

theorem alias_matched (h : ¬captures place = true) : aliasLen place ≤ place.uri.length := by
  rw [captures_iff] at h
  unfold aliasLen
  split
  · rename_i ha
    cases hr : place.regex with
    | false => exact place.matched ha hr
    | true =>
      have : place.name.length = 0 := by
        by_contra hne
        exact h ⟨ha,hne,hr⟩
      omega
  · exact Nat.zero_le _

theorem pnalloc_length (junk : ℕ → UInt8) (size : ℕ) : (ngxPnalloc junk size).length = size := by
  simp [ngxPnalloc]

theorem map_uri_rooted (junk : ℕ → UInt8) (reserve : ℕ) :
    ∃ data, ngxHttpMapUriToPath junk place reserve = some data ∧ Rooted place data ∧
      data.length = place.root.length+room place reserve := by
  obtain ⟨data,hwrite,hlen,-,hdrop⟩ := write_inside
    (ngxPnalloc junk (place.root.length+room place reserve)) 0 place.root (by
      rw [pnalloc_length]
      omega)
  rw [pnalloc_length] at hlen
  have hr : Rooted place data := by
    rw [List.drop_zero] at hdrop
    exact ⟨by omega,by rw [hdrop, List.take_left]⟩
  -- what is written behind the root takes no more than what is reserved there
  have hnext (bytes : List UInt8) (hb : bytes.length ≤ room place reserve) :
      ∃ data', writeAt data place.root.length bytes = some data' ∧ Rooted place data' ∧
        data'.length = place.root.length+room place reserve := by
    obtain ⟨data',hwrite',hlen',htake',-⟩ := write_inside data place.root.length bytes
      (by omega)
    exact ⟨data',hwrite',rooted_of place hr hlen' htake',hlen'.trans hlen⟩
  have hsize : (if place.rootLengths = true ∧ place.prefixed = true then
      place.root.length+reservedOf place reserve+1
      else place.root.length+reservedOf place reserve) = place.root.length+room place reserve := by
    unfold room
    split <;> omega
  unfold ngxHttpMapUriToPath
  simp only [hsize, hwrite, Option.bind_some]
  have huri := cpystrn_length place.uri
  have hbehind := cpystrn_length (place.uri.drop (aliasLen place))
  rw [List.length_drop] at hbehind
  split
  · rename_i hc
    split
    · rename_i hadd
      refine hnext _ ?_
      rw [room, reservedOf, if_pos hc.1, if_pos hc.2, if_pos hadd]
      omega
    · refine hnext _ ?_
      rw [room, reservedOf, if_pos hc.1, if_pos hc.2]
      simp only [List.length_singleton]
      split <;> omega
  · rename_i hc
    refine hnext _ ?_
    rw [room, reservedOf]
    split
    · rename_i hl
      rw [if_neg fun h => hc ⟨hl,h⟩]
      omega
    · omega

theorem reserved_room (reserve : ℕ) (h : ¬Bare place) :
    reserve+place.uri.length ≤ room place reserve+aliasLen place ∧
    newAllocated place reserve+place.uri.length ≤ room place reserve+aliasLen place := by
  by_cases hc : captures place = true
  · have ⟨ha,_,hr⟩ := (captures_iff place).mp hc
    have hl := place.compiled ha hr
    have hadd : place.addUriToAlias = true := Bool.of_not_eq_false (fun hf => h ⟨hc,hf⟩)
    have hres : reservedOf place reserve = reserve+(place.uri.length+1) := by
      rw [reservedOf, if_pos hl, if_pos hc, if_pos hadd]
    rw [newAllocated, room, hres, sizeSub, sizeSub]
    constructor
    · omega
    · split <;> split <;> omega
  have hle := alias_matched place hc
  have hres : reservedOf place reserve = reserve+(place.uri.length-aliasLen place)+1 := by
    rw [reservedOf, if_neg hc]
    split <;> omega
  rw [newAllocated, room, hres, sizeSub, sizeSub]
  constructor
  · omega
  · split <;> split <;> omega

/-- What the state has is the buffer that an entry has got. -/
def Linked (owner : Option Entry) (st : State) : Prop :=
  match owner with
  | none => st.allocated = 0
  | some owner => Rooted place st.data ∧
      st.allocated = newAllocated place (reserveOf place owner) ∧
      st.data.length = place.root.length+room place (reserveOf place owner)

theorem write_linked (owner : Entry) (st : State) (h : Linked place (some owner) st) :
    (entry.text.length+1 ≤ room place (reserveOf place owner) → ∃ st',
      writeEntry place entry st = .tested st' (place.root++expanded place entry) ∧
      Linked place (some owner) st') ∧
    (¬entry.text.length+1 ≤ room place (reserveOf place owner) →
      writeEntry place entry st = .outside) := by
  obtain ⟨hr,hallocated,hlen⟩ := h
  constructor
  · intro hfit
    obtain ⟨data,hdone,hr',hlen'⟩ := write_entry_inside place entry st hr (by omega)
    exact ⟨_,hdone,hr',hallocated,hlen'.trans hlen⟩
  · exact fun hfit => write_entry_outside place entry st (by omega)

theorem turn_written (junk : ℕ → UInt8) (owner : Option Entry) (st : State)
    (h : Linked place owner st) :
    (aliasLen place ≠ 0 ∧ ¬place.validLocation = true) ∧
      turn junk place entry st = .stopped ∨
    ∃ owner' st1, turn junk place entry st = writeEntry place entry st1 ∧
      Linked place (some owner') st1 ∧ (owner' = entry ∨
        reserveOf place entry ≤ newAllocated place (reserveOf place owner')) ∧
      owner' = owner.elim entry (fun owner =>
        if reserveOf place entry ≤ newAllocated place (reserveOf place owner) then owner
        else entry) := by
  by_cases hnew : st.allocated < reserveOf place entry
  · by_cases hstop : aliasLen place ≠ 0 ∧ ¬place.validLocation = true
    · exact .inl ⟨hstop,by simp only [turn, if_pos hnew, if_pos hstop]⟩
    obtain ⟨data,hmap,hr,hlen⟩ := map_uri_rooted place junk (reserveOf place entry)
    refine .inr ⟨entry,⟨newAllocated place (reserveOf place entry),data⟩,?_,⟨hr,rfl,hlen⟩,
      .inl rfl,?_⟩
    · simp only [turn, if_pos hnew, if_neg hstop, hmap]
    · cases owner with
      | none => rfl
      | some owner =>
        obtain ⟨-,hallocated,-⟩ := h
        rw [Option.elim_some, if_neg (by omega)]
  · cases owner with
    | none =>
      have h0 : st.allocated = 0 := h
      unfold reserveOf at hnew
      omega
    | some owner =>
      have hkeeps : reserveOf place entry ≤ newAllocated place (reserveOf place owner) := by
        obtain ⟨-,hallocated,-⟩ := h
        omega
      exact .inr ⟨owner,st,by simp only [turn, if_neg hnew],h,.inr hkeeps,(if_pos hkeeps).symm⟩

theorem roomy_inside (hroomy : ¬Bare place) (junk : ℕ → UInt8) (entries : List Entry)
    (owner : Option Entry) (st : State) (h : Linked place owner st) :
    Inside junk place entries st := by
  induction entries generalizing owner st with
  | nil => trivial
  | cons entry entries ih =>
    rw [Inside]
    rcases turn_written place entry junk owner st h with ⟨-,hstop⟩ | ⟨owner',st1,hturn,hlinked,hown,-⟩
    · rw [hstop]
      trivial
    · have hfit : entry.text.length+1 ≤ room place (reserveOf place owner') := by
        have hroom := reserved_room place (reserveOf place owner') hroomy
        have hreserve : entry.text.length+1+aliasLen place ≤
            reserveOf place entry+place.uri.length := by
          unfold reserveOf
          omega
        rcases hown with rfl | hkeeps <;> omega
      obtain ⟨st',hdone,hlinked'⟩ := (write_linked place entry owner' st1 hlinked).1 hfit
      rw [hturn, hdone]
      exact ⟨rfl,ih (some owner') st' hlinked'⟩

section Bare
variable (hbare : Bare place)
include hbare

theorem bare_sizes (entry : Entry) : aliasLen place = place.name.length ∧ aliasLen place ≠ 0 ∧
    reserveOf place entry = distance place entry+place.name.length+16 ∧
    room place (reserveOf place entry) = distance place entry+place.name.length+17+
      (if place.prefixed then 1 else 0) ∧
    newAllocated place (reserveOf place entry) =
      sizeSub (distance place entry+place.name.length+17)
        (sizeSub place.uri.length place.name.length) := by
  obtain ⟨hc,hadd⟩ := hbare
  obtain ⟨ha,hname,hr⟩ := (captures_iff place).mp hc
  have hl := place.compiled ha hr
  have halias : aliasLen place = place.name.length := if_pos ha
  have hreserve : reserveOf place entry = distance place entry+place.name.length+16 := by
    rw [reserveOf, halias, distance]
  have hreserved : reservedOf place (reserveOf place entry) = reserveOf place entry+1 := by
    rw [reservedOf, if_pos hl, if_pos hc, hadd, if_neg Bool.false_ne_true]
  refine ⟨halias,halias ▸ hname,hreserve,?_,?_⟩
  · rw [room, hreserved, hreserve]
    simp only [hl, true_and]
  · rw [newAllocated, hreserved, hreserve, halias]

theorem bare_inside (hvalid : place.validLocation = true) (junk : ℕ → UInt8)
    (entries : List Entry) (owner : Option Entry) (st : State) (h : Linked place owner st) :
    Inside junk place entries st ↔ FitFrom place owner entries := by
  induction entries generalizing owner st with
  | nil => exact Iff.rfl
  | cons entry entries ih =>
    rw [Inside, FitFrom]
    rcases turn_written place entry junk owner st h with
      ⟨hstop,-⟩ | ⟨owner',st1,hturn,hlinked,-,hown⟩
    · exact absurd hvalid hstop.2
    · have hholder : owner' = holder place owner entry := by
        rw [hown]
        cases owner with
        | none => rfl
        | some owner =>
          obtain ⟨-,-,hentry,-,-⟩ := bare_sizes place hbare entry
          obtain ⟨-,-,-,-,hallocated⟩ := bare_sizes place hbare owner
          rw [Option.elim_some, hentry, hallocated]
          rfl
      obtain ⟨-,-,-,hroom,-⟩ := bare_sizes place hbare owner'
      rw [← hholder, ← hroom, hturn]
      obtain ⟨hin,hout⟩ := write_linked place entry owner' st1 hlinked
      by_cases hfit : entry.text.length+1 ≤ room place (reserveOf place owner')
      · obtain ⟨st',hdone,hlinked'⟩ := hin hfit
        rw [hdone]
        exact and_congr (iff_of_true rfl hfit) (ih (some owner') st' hlinked')
      · rw [hout hfit]
        exact iff_of_false id (fun hf => hfit hf.1)

end Bare

/-- The entries of a list that are tried one after another are all written inside the buffer, and
their paths are the root and their texts, exactly when each of them fits. -/
theorem try_files_inside (junk : ℕ → UInt8) (entries : List Entry) :
    Inside junk place entries start ↔ AllFit place entries := by
  by_cases hbare : Bare place
  · by_cases hvalid : place.validLocation = true
    · rw [bare_inside place hbare hvalid junk entries none start rfl]
      exact ⟨fun hfit _ _ => hfit,fun hall => hall hbare hvalid⟩
    · refine iff_of_true ?_ (fun _ hv => absurd hv hvalid)
      -- the first entry is answered with 500
      cases entries with
      | nil => trivial
      | cons entry entries =>
        have hstop : aliasLen place ≠ 0 ∧ ¬place.validLocation = true :=
          ⟨(bare_sizes place hbare entry).2.1,hvalid⟩
        have hnew : start.allocated < reserveOf place entry :=
          Nat.lt_of_lt_of_le (by decide) (Nat.le_add_left 16 _)
        rw [Inside]
        simp only [turn, if_pos hnew, if_pos hstop]
  · exact iff_of_true (roomy_inside place hbare junk entries none start rfl)
      (fun hb => absurd hb hbare)

/-- An alias `/d/` on the regex location `a`, a uri of 21 bytes and a name of 20: the buffer has
18 bytes behind the root, and 21 are written. -/
theorem regex_alias_overflows : ¬∀ (place : Place) (junk : ℕ → UInt8) (entries : List Entry),
    Inside junk place entries start := by
  intro hall
  exact hall ⟨[97],true,true,true,[47,100,47],false,47::List.replicate 20 97,false,true,
    fun _ _ => rfl,(fun _ h => by cases h),by decide⟩ (fun _ => 0)
    [⟨false,List.replicate 20 98⟩]

end Nginx.TryFiles
