import Nginx.UnsafeUri
import Nginx.TryFiles

/-!
# The destination of COPY and MOVE

The Destination header is a range of memory, and its path is put in the place of the URI of the
request when it is mapped to a file. Sizes are 64 bits wide, so that a difference below zero is a
large size. Allocations do not fail, and the root is given with its variables expanded and a
missing prefix added.
-/

set_option autoImplicit false

namespace Nginx.DavDestination
open Nginx.MemoryRange Nginx.UriBytes Nginx.UnsafeUri
open TryFiles (ngxStrncmp sizeSub)

/-! The code -/

/-- What `ngx_http_map_uri_to_path` reads of the location. One that inherits an alias has the name
that the alias is for, and an alias that a regex location inherits is left out. -/
structure Location where
  name : List UInt8
  root : List UInt8
  aliased : Bool
  regex : Bool
  rootLengths : Bool
  -- an alias on a regex location is compiled as a script
  compiled : aliased = true → regex = true → rootLengths = true
  small : name.length < 2^63 ∧ root.length < 2^63

def aliasLen (clcf : Location) : ℕ := if clcf.aliased then clcf.name.length else 0

inductive Method where
  | copy
  | move
  deriving DecidableEq, Repr

inductive Depth where
  | zero
  | one
  | infinity
  | invalid
  deriving DecidableEq, Repr

structure Request where
  mem : ℕ → UInt8
  method : Method
  contentLength : ℤ
  destination : Option Str
  depth : Option (List UInt8)
  overwrite : Option (List UInt8)
  server : List UInt8
  ssl : Bool
  uri : Str
  validLocation : Bool
  addUriToAlias : Bool
  -- `ngx_http_validate_host` refuses a host with one of these
  plain : nul ∉ server ∧ slash ∉ server
  small : ∀ dest ∈ destination, dest.len < 2^63

def davDepth (header : Option (List UInt8)) : Depth :=
  match header with
  | none => .infinity
  | some v =>
    if v = [48] then .zero
    else if v = [49] then .one
    else if v = [105,110,102,105,110,105,116,121] then .infinity
    else .invalid

def davOverwrite (header : Option (List UInt8)) : Option Bool :=
  match header with
  | none => some true
  | some v =>
    if v = [84] ∨ v = [116] then some true
    else if v = [70] ∨ v = [102] then some false
    else none

@[grind =] def cpystrn (mem : ℕ → UInt8) : ℕ → ℕ → List UInt8
  | _, 0 => []
  | _, 1 => [nul]
  | src, n+2 => if mem src = nul then [nul] else mem src::cpystrn mem (src+1) (n+1)

/-- A path and what is written for it; `copied` is what `ngx_cpystrn` was allowed to read, and
`last` where it ended. -/
structure Mapped where
  len : ℕ
  data : List UInt8
  rootLength : ℕ
  copied : Str
  last : ℕ
  deriving DecidableEq, Repr

def captures (clcf : Location) : Bool := aliasLen clcf ≠ 0 && clcf.regex

/-- The end of `ngx_http_map_uri_to_path`, for what is behind the root in the buffer of `len` -/
def finish (mem : ℕ → UInt8) (clcf : Location) (uri : Str) (len skipped : ℕ) : Mapped :=
  let left := sizeSub uri.len skipped
  let tail := cpystrn mem (uri.data+skipped) ((left+1)%2^64)
  ⟨len,clcf.root++tail,clcf.root.length,⟨uri.data+skipped,left⟩,clcf.root.length+(tail.length-1)⟩

/-- `ngx_http_map_uri_to_path` of the request with `uri` as its URI -/
def ngxHttpMapUriToPath (clcf : Location) (r : Request) (uri : Str) (reserved : ℕ) :
    Option Mapped :=
  let skipped := aliasLen clcf
  if skipped ≠ 0 ∧ ¬r.validLocation then none
  else if ¬clcf.rootLengths then
    some (finish r.mem clcf uri
      ((clcf.root.length+reserved+sizeSub uri.len skipped+1)%2^64) skipped)
  else
    let reserved := (reserved+(if captures clcf then if r.addUriToAlias then uri.len+1 else 1
      else sizeSub uri.len skipped+1))%2^64
    let len := (clcf.root.length+reserved)%2^64
    if captures clcf then
      if ¬r.addUriToAlias then
        some ⟨len,clcf.root++[nul],clcf.root.length,⟨uri.data,0⟩,clcf.root.length⟩
      else some (finish r.mem clcf uri len 0)
    else some (finish r.mem clcf uri len skipped)

/-- `ngx_strncmp` of memory and a string, whether all bytes are equal -/
def startsAt (mem : ℕ → UInt8) (p : ℕ) (s : List UInt8) : Bool :=
  ngxStrncmp s.length (readRange mem p (p+s.length)) s

def scheme (ssl : Bool) : List UInt8 :=
  if ssl then [104,116,116,112,115,58,47,47] else [104,116,116,112,58,47,47]

@[grind =] def findSlash (mem : ℕ → UInt8) : ℕ → ℕ → Option ℕ
  | _, 0 => none
  | p, n+1 => if mem p = slash then some p else findSlash mem (p+1) n

def findPath (r : Request) (dest : Str) : Option ℕ :=
  if r.mem dest.data = slash then some dest.data
  else if r.server.length = 0 then none
  else if ¬startsAt r.mem dest.data (scheme r.ssl) then none
  else
    let host := dest.data+(scheme r.ssl).length
    if ¬startsAt r.mem host r.server then none
    else findSlash r.mem (host+r.server.length)
      (dest.data+dest.len-(host+r.server.length))

/-- What `ngx_http_dav_copy_move_handler` knows when it begins to look at files -/
structure Copy where
  duri : Str
  overwrite : Bool
  path : Option Mapped
  copyPath : Option Mapped

/-- `ngx_http_dav_copy_move_handler` up to there, or the code that it answers -/
def copyMoveHandler (clcf : Location) (r : Request) : Except ℕ Copy :=
  if r.contentLength > 0 then .error 415
  else
    match r.destination with
    | none => .error 400
    | some dest =>
      match findPath r dest with
      | none => .error 400
      | some p =>
        match ngxHttpParseUnsafeUri r.mem ⟨p,dest.data+dest.len-p⟩ ⟨0,0⟩ 0 with
        | .error _ => .error 400
        | .ok (duri,_) =>
          if (r.mem (r.uri.data+r.uri.len-1) = slash) ≠
              (r.mem (dest.data+dest.len-1) = slash) then .error 409
          else if davDepth r.depth ≠ .infinity ∧
              (r.method ≠ .copy ∨ davDepth r.depth ≠ .zero) then .error 400
          else
            match davOverwrite r.overwrite with
            | none => .error 400
            | some overwrite =>
              .ok ⟨duri,overwrite,ngxHttpMapUriToPath clcf r r.uri 0,
                ngxHttpMapUriToPath clcf r duri 0⟩

/-! What the destination is -/

def behindScheme (r : Request) (dest : Str) : List UInt8 :=
  (dest.bytes r.mem).drop (scheme r.ssl).length

def destinationPath (r : Request) (dest : Str) : List UInt8 :=
  UnsafeUri.path (if (dest.bytes r.mem).head? = some slash then dest.bytes r.mem
    else (behindScheme r dest).dropWhile (· ≠ slash))

/-- A destination with a host has that of the request, with a port behind it or without. -/
def SameHost (r : Request) (dest : Str) : Prop :=
  (dest.bytes r.mem).head? ≠ some slash →
    let host := (behindScheme r dest).takeWhile (· ≠ slash)
    host = r.server ∨ r.server++[colon] <+: host

def locationPrefix (clcf : Location) : List UInt8 := if clcf.aliased then clcf.name else []

/-- The file of a path: it is the root and what is behind the location, in a buffer of its size,
and nothing outside of the path is read. -/
structure Maps (clcf : Location) (r : Request) (dest : Str) (copy : Copy) (m : Mapped) : Prop where
  path : copy.duri.bytes r.mem = destinationPath r dest
  file : ∃ rest, destinationPath r dest = locationPrefix clcf++rest ∧
    m.data = clcf.root++rest++[nul]
  size : m.len = m.data.length
  left : aliasLen clcf ≤ copy.duri.len
  inside : copy.duri.data ≤ m.copied.data ∧
    m.copied.data+m.copied.len ≤ copy.duri.data+copy.duri.len

def HostEnds (r : Request) (dest : Str) : Prop :=
  (dest.bytes r.mem).head? ≠ some slash →
    ((behindScheme r dest).drop r.server.length).head? = some slash ∨
      ((behindScheme r dest).drop r.server.length).head? = some colon

def AliasFits (clcf : Location) (r : Request) (path : List UInt8) : Prop :=
  aliasLen clcf ≠ 0 → r.validLocation = true ∧
    if clcf.regex then r.addUriToAlias = false ∧ path = clcf.name else clcf.name <+: path

/-! Strings in memory -/

section Strings

variable {mem : ℕ → UInt8}

theorem strncmp_iff {s : List UInt8} (h : nul ∉ s) (t : List UInt8) :
    ngxStrncmp s.length t s = true ↔ s <+: t := by
  induction s generalizing t with
  | nil => simp [ngxStrncmp]
  | cons c s ih =>
    have hc : c ≠ nul := fun hc => h (hc ▸ List.mem_cons_self)
    have hs : nul ∉ s := fun hs => h (List.mem_cons_of_mem c hs)
    rw [List.length_cons, ngxStrncmp, List.headD_cons, List.tail_cons]
    cases t with
    | nil =>
      rw [List.headD_nil, if_pos (Ne.symm hc), List.prefix_nil]
      simp
    | cons d t =>
      rw [List.headD_cons, List.tail_cons, List.cons_prefix_cons]
      by_cases hd : d = c
      · rw [if_neg (not_not.mpr hd), if_neg (hd ▸ hc), ih hs]
        exact ⟨fun ht => ⟨hd.symm,ht⟩,fun ht => ht.2⟩
      · rw [if_pos hd]
        exact ⟨fun ht => absurd ht Bool.false_ne_true,fun ht => absurd ht.1.symm hd⟩

theorem starts_at {p : ℕ} {s : List UInt8} (hs : nul ∉ s) (h : startsAt mem p s = true) :
    readRange mem p (p+s.length) = s := by
  have hpre := (strncmp_iff hs _).mp h
  exact (hpre.eq_of_length (by rw [read_length, Nat.add_sub_cancel_left])).symm

theorem find_slash {p n q : ℕ} (h : findSlash mem p n = some q) : p ≤ q ∧ q < p+n ∧
    mem q = slash ∧ (readRange mem p (p+n)).dropWhile (· ≠ slash) = readRange mem q (p+n) := by
  induction n generalizing p with
  | zero => cases h
  | succ n ih =>
    rw [findSlash] at h
    rw [read_first mem (show p < p+(n+1) by omega), List.dropWhile_cons]
    by_cases hp : mem p = slash
    · rw [if_pos hp] at h
      obtain rfl := Option.some.inj h
      rw [if_neg (by simpa using hp)]
      exact ⟨le_rfl,by omega,hp,(read_first mem (by omega)).symm⟩
    rw [if_neg hp] at h
    obtain ⟨hl,hr,hq,hdrop⟩ := ih h
    rw [if_pos (by simpa using hp), show p+(n+1) = p+1+n by omega]
    exact ⟨by omega,hr,hq,hdrop⟩

theorem cpystrn_whole {src n : ℕ} (h : nul ∉ readRange mem src (src+n)) :
    cpystrn mem src (n+1) = readRange mem src (src+n)++[nul] := by
  induction n generalizing src with
  | zero =>
    rw [cpystrn, show src+0 = src from rfl, read_empty]
    rfl
  | succ n ih =>
    rw [read_first mem (show src < src+(n+1) by omega), show src+(n+1) = src+1+n by omega] at h ⊢
    obtain ⟨hfirst,hrest⟩ := not_or.mp fun hor => h (List.mem_cons.mpr hor)
    rw [cpystrn, if_neg (Ne.symm hfirst), ih hrest, List.cons_append]

theorem read_drop (mem : ℕ → UInt8) {a k z : ℕ} (h : a+k ≤ z) :
    (readRange mem a z).drop k = readRange mem (a+k) z := by
  rw [← read_append mem (Nat.le_add_right a k) h]
  exact List.drop_left' (by rw [read_length]; omega)

end Strings

/-! The path of the header -/

section Header

variable {r : Request} {dest : Str}

theorem find_path {p : ℕ} (h : findPath r dest = some p) :
    (r.mem dest.data = slash ∧ p = dest.data) ∨
      (r.mem dest.data ≠ slash ∧ dest.data ≤ p ∧ p < dest.data+dest.len ∧ r.mem p = slash ∧
        ∃ tail, behindScheme r dest = r.server++tail ∧ tail ≠ [] ∧
          (behindScheme r dest).dropWhile (· ≠ slash) =
            readRange r.mem p (dest.data+dest.len)) := by
  unfold findPath at h
  by_cases hslash : r.mem dest.data = slash
  · rw [if_pos hslash] at h
    exact Or.inl ⟨hslash,(Option.some.inj h).symm⟩
  rw [if_neg hslash] at h
  split_ifs at h with hlen hscheme
  dsimp only at h
  split_ifs at h with hhost
  have hserver := starts_at r.plain.1 (by simpa using hhost)
  obtain ⟨hl,hr,hq,hdrop⟩ := find_slash h
  generalize hb : dest.data+(scheme r.ssl).length = b at *
  have hz : b+r.server.length+(dest.data+dest.len-(b+r.server.length)) =
      dest.data+dest.len := by omega
  rw [hz] at hr hdrop
  have hbehind : behindScheme r dest =
      r.server++readRange r.mem (b+r.server.length) (dest.data+dest.len) := by
    rw [behindScheme, Str.bytes, read_drop r.mem (by omega), hb,
      ← read_append r.mem (Nat.le_add_right b r.server.length) (by omega), hserver]
  have htail : readRange r.mem (b+r.server.length) (dest.data+dest.len) ≠ [] := by
    rw [read_first r.mem (by omega)]
    exact List.cons_ne_nil _ _
  refine Or.inr ⟨hslash,by omega,hr,hq,_,hbehind,htail,?_⟩
  rw [hbehind, List.dropWhile_append_of_pos fun c hc => ?_, hdrop]
  exact decide_eq_true fun hcs => r.plain.2 (hcs ▸ hc)

theorem first_slash : (dest.bytes r.mem).head? = some slash ↔
    0 < dest.len ∧ r.mem dest.data = slash := by
  rw [Str.bytes]
  cases hlen : dest.len with
  | zero => simp [read_empty]
  | succ n =>
    rw [read_first r.mem (by omega)]
    simp

theorem find_path_bytes {p : ℕ} (h : findPath r dest = some p) :
    UnsafeUri.path (readRange r.mem p (dest.data+dest.len)) = destinationPath r dest := by
  unfold destinationPath
  rcases find_path h with ⟨hslash,rfl⟩|⟨hslash,-,-,-,tail,-,-,hdrop⟩
  · by_cases hlen : 0 < dest.len
    · rw [if_pos (first_slash.mpr ⟨hlen,hslash⟩), Str.bytes]
    rw [if_neg fun hf => hlen (first_slash.mp hf).1, behindScheme, Str.bytes,
      Nat.eq_zero_of_not_pos hlen, Nat.add_zero, read_empty, List.drop_nil,
      List.dropWhile_nil]
  · rw [if_neg fun hf => hslash (first_slash.mp hf).2, hdrop]

theorem same_host_iff {p : ℕ} (h : findPath r dest = some p) (hlen : 0 < dest.len) :
    SameHost r dest ↔ HostEnds r dest := by
  unfold SameHost HostEnds
  refine forall_congr' fun hfirst => ?_
  rcases find_path h with ⟨hslash,rfl⟩|⟨-,-,-,-,tail,hbehind,htail,-⟩
  · exact absurd (first_slash.mpr ⟨hlen,hslash⟩) hfirst
  obtain ⟨c,tail,rfl⟩ := List.exists_cons_of_ne_nil htail
  have hserver : ∀ x ∈ r.server, decide (x ≠ slash) = true := fun x hx =>
    decide_eq_true fun hxs => r.plain.2 (hxs ▸ hx)
  dsimp only
  rw [hbehind, List.takeWhile_append_of_pos hserver, List.drop_left, List.head?_cons,
    List.append_right_eq_self, List.prefix_append_right_inj, List.takeWhile_cons]
  by_cases hc : c = slash
  · rw [if_neg (by simpa using hc)]
    simp [hc]
  · rw [if_pos (by simpa using hc), List.cons_prefix_cons]
    simp [hc, eq_comm (a := colon)]

end Header

/-! The file of the path -/

section File

variable {clcf : Location} {r : Request} {uri : Str}

theorem finish_data (len : ℕ) {skipped : ℕ} (hle : skipped ≤ uri.len) (hsmall : uri.len < 2^63)
    (hnul : nul ∉ uri.bytes r.mem) : finish r.mem clcf uri len skipped =
      ⟨len,clcf.root++(uri.bytes r.mem).drop skipped++[nul],clcf.root.length,
        ⟨uri.data+skipped,uri.len-skipped⟩,clcf.root.length+(uri.len-skipped)⟩ := by
  have hsub : sizeSub uri.len skipped = uri.len-skipped := if_pos hle
  have hdrop : (uri.bytes r.mem).drop skipped =
      readRange r.mem (uri.data+skipped) (uri.data+skipped+(uri.len-skipped)) := by
    rw [Str.bytes, read_drop r.mem (by omega),
      show uri.data+skipped+(uri.len-skipped) = uri.data+uri.len by omega]
  have htail := @cpystrn_whole r.mem (uri.data+skipped) (uri.len-skipped)
    (hdrop ▸ fun h => hnul (List.mem_of_mem_drop h))
  rw [← hdrop] at htail
  have hlast : ((uri.bytes r.mem).drop skipped++[nul]).length-1 = uri.len-skipped := by
    rw [List.length_append, List.length_drop, Str.bytes, read_length, List.length_singleton]
    omega
  rw [finish, hsub, Nat.mod_eq_of_lt (by omega), htail, hlast, List.append_assoc]

theorem captures_eq (h : aliasLen clcf ≠ 0) : captures clcf = clcf.regex := by
  rw [captures, decide_eq_true h, Bool.true_and]

theorem map_plain (hcap : captures clcf = false)
    (hvalid : aliasLen clcf ≠ 0 → r.validLocation = true) :
    ngxHttpMapUriToPath clcf r uri 0 = some (finish r.mem clcf uri
      ((clcf.root.length+sizeSub uri.len (aliasLen clcf)+1)%2^64) (aliasLen clcf)) := by
  unfold ngxHttpMapUriToPath
  rw [if_neg fun h => h.2 (hvalid h.1), hcap]
  by_cases hroot : clcf.rootLengths = true
  · rw [if_neg (not_not.mpr hroot), if_neg Bool.false_ne_true, if_neg Bool.false_ne_true,
      Nat.zero_add, Nat.add_mod_mod, ← Nat.add_assoc]
  · rw [if_pos hroot]
    rfl

theorem map_captures (hcap : captures clcf = true) (hroot : clcf.rootLengths = true)
    (hvalid : r.validLocation = true) :
    ngxHttpMapUriToPath clcf r uri 0 = some (if r.addUriToAlias then
      finish r.mem clcf uri ((clcf.root.length+(uri.len+1)%2^64)%2^64) 0
      else ⟨(clcf.root.length+1%2^64)%2^64,clcf.root++[nul],clcf.root.length,⟨uri.data,0⟩,
        clcf.root.length⟩) := by
  unfold ngxHttpMapUriToPath
  rw [if_neg fun h => h.2 hvalid, if_neg (not_not.mpr hroot), hcap]
  cases r.addUriToAlias <;> simp

theorem read_bytes (mem : ℕ → UInt8) (s : Str) : (s.bytes mem).length = s.len := by
  rw [Str.bytes, read_length, Nat.add_sub_cancel_left]

variable {dest : Str} {copy : Copy}

theorem plain_maps (hpath : copy.duri.bytes r.mem = destinationPath r dest)
    (hnul : nul ∉ copy.duri.bytes r.mem) (hsmall : copy.duri.len < 2^63)
    (hpre : (locationPrefix clcf).length = aliasLen clcf)
    (hstart : locationPrefix clcf <+: destinationPath r dest) :
    Maps clcf r dest copy (finish r.mem clcf copy.duri
      ((clcf.root.length+sizeSub copy.duri.len (aliasLen clcf)+1)%2^64) (aliasLen clcf)) := by
  obtain ⟨rest,hrest⟩ := hstart
  have hlen := read_bytes r.mem copy.duri
  have hdrop : (copy.duri.bytes r.mem).drop (aliasLen clcf) = rest := by
    rw [hpath, ← hrest]
    exact List.drop_left' hpre
  rw [hpath, ← hrest, List.length_append, hpre] at hlen
  have hroot := clcf.small.2
  rw [finish_data _ (by omega) hsmall hnul, hdrop]
  refine ⟨hpath,⟨rest,hrest.symm,rfl⟩,?_,by omega,?_,?_⟩
  · rw [sizeSub, if_pos (by omega), Nat.mod_eq_of_lt (by omega)]
    simp only [List.length_append, List.length_singleton]
    omega
  · exact Nat.le_add_right _ _
  · show copy.duri.data+aliasLen clcf+(copy.duri.len-aliasLen clcf) ≤ _
    omega

theorem captures_maps (hpath : copy.duri.bytes r.mem = destinationPath r dest)
    (hnul : nul ∉ copy.duri.bytes r.mem) (hsmall : copy.duri.len < 2^63)
    (hpre : locationPrefix clcf = clcf.name) (halias : aliasLen clcf = clcf.name.length)
    (hname : clcf.name ≠ []) :
    Maps clcf r dest copy (if r.addUriToAlias then
      finish r.mem clcf copy.duri ((clcf.root.length+(copy.duri.len+1)%2^64)%2^64) 0
      else ⟨(clcf.root.length+1%2^64)%2^64,clcf.root++[nul],clcf.root.length,⟨copy.duri.data,0⟩,
        clcf.root.length⟩) ↔
      r.addUriToAlias = false ∧ destinationPath r dest = clcf.name := by
  have hroot := clcf.small.2
  have hlen := read_bytes r.mem copy.duri
  cases hadd : r.addUriToAlias with
  | true =>
    refine ⟨fun h => ?_,fun h => absurd h.1.symm Bool.false_ne_true⟩
    rw [if_pos rfl, finish_data _ (Nat.zero_le _) hsmall hnul, List.drop_zero] at h
    obtain ⟨rest,hrest,hdata⟩ := h.file
    have hsame : copy.duri.bytes r.mem = rest :=
      List.append_cancel_left (List.append_cancel_right hdata)
    rw [← hpath, hsame, hpre] at hrest
    exact absurd (List.self_eq_append_left.mp hrest) hname
  | false =>
    rw [if_neg Bool.false_ne_true]
    constructor
    · intro h
      obtain ⟨rest,hrest,hdata⟩ := h.file
      have hnil : clcf.root = clcf.root++rest := List.append_cancel_right hdata
      rw [List.self_eq_append_right.mp hnil, hpre, List.append_nil] at hrest
      exact ⟨rfl,hrest⟩
    · rintro ⟨-,hsame⟩
      refine ⟨hpath,⟨[],?_,?_⟩,?_,?_,?_,?_⟩
      · rw [hpre, List.append_nil, hsame]
      · rw [List.append_nil]
      · rw [Nat.mod_eq_of_lt (by omega)]
        simp only [List.length_append, List.length_singleton]
        omega
      · rw [halias, ← hsame, ← hpath, hlen]
      · exact le_rfl
      · exact Nat.le_add_right _ _

theorem maps_iff (hpath : copy.duri.bytes r.mem = destinationPath r dest)
    (hnul : nul ∉ copy.duri.bytes r.mem) (hsmall : copy.duri.len < 2^63)
    (hcopy : copy.copyPath = ngxHttpMapUriToPath clcf r copy.duri 0) :
    (∃ m, copy.copyPath = some m ∧ Maps clcf r dest copy m) ↔
      AliasFits clcf r (destinationPath r dest) := by
  have hone {m : Mapped} (h : ngxHttpMapUriToPath clcf r copy.duri 0 = some m) :
      (∃ m, copy.copyPath = some m ∧ Maps clcf r dest copy m) ↔ Maps clcf r dest copy m := by
    rw [hcopy, h]
    exact ⟨fun ⟨m',hm,h⟩ => Option.some.inj hm ▸ h,fun h => ⟨m,rfl,h⟩⟩
  by_cases halias : aliasLen clcf = 0
  · have hpre : locationPrefix clcf = [] := by
      unfold locationPrefix
      unfold aliasLen at halias
      split_ifs at halias ⊢
      · exact List.eq_nil_of_length_eq_zero halias
      · rfl
    have hcap : captures clcf = false := by
      rw [captures, decide_eq_false (not_not.mpr halias), Bool.false_and]
    rw [hone (map_plain hcap fun h => absurd halias h)]
    refine ⟨fun _ h => absurd halias h,fun _ => plain_maps hpath hnul hsmall ?_ ?_⟩
    · rw [hpre, halias, List.length_nil]
    · rw [hpre]
      exact List.nil_prefix
  have haliased : clcf.aliased = true := by
    by_contra hf
    exact halias (if_neg hf)
  have hname : aliasLen clcf = clcf.name.length := if_pos haliased
  have hpre : locationPrefix clcf = clcf.name := if_pos haliased
  have hcap := captures_eq halias
  unfold AliasFits
  cases hvalid : r.validLocation with
  | false =>
    have hnone : ngxHttpMapUriToPath clcf r copy.duri 0 = none := by
      unfold ngxHttpMapUriToPath
      exact if_pos ⟨halias,by rw [hvalid]; exact Bool.false_ne_true⟩
    rw [hcopy, hnone]
    exact ⟨fun ⟨_,hm,_⟩ => (by cases hm),fun h => absurd (h halias).1 Bool.false_ne_true⟩
  | true =>
    cases hregex : clcf.regex with
    | false =>
      rw [hregex] at hcap
      rw [hone (map_plain hcap fun _ => hvalid)]
      constructor
      · intro h _
        obtain ⟨rest,hrest,-⟩ := h.file
        rw [hpre] at hrest
        exact ⟨rfl,⟨rest,hrest.symm⟩⟩
      · intro h
        refine plain_maps hpath hnul hsmall ?_ ?_
        · rw [hpre, hname]
        · rw [hpre]
          exact (h halias).2
    | true =>
      rw [hregex] at hcap
      have hne : clcf.name ≠ [] := fun h => halias (by rw [hname, h, List.length_nil])
      rw [hone (map_captures hcap (clcf.compiled haliased hregex) hvalid),
        captures_maps hpath hnul hsmall hpre hname hne]
      exact ⟨fun h _ => ⟨rfl,h⟩,fun h => (h halias).2⟩

end File

/-! The handler -/

theorem handler_ok {clcf : Location} {r : Request} {dest : Str} {copy : Copy}
    (hdest : r.destination = some dest) (h : copyMoveHandler clcf r = .ok copy) :
    ∃ p args, findPath r dest = some p ∧
      ngxHttpParseUnsafeUri r.mem ⟨p,dest.data+dest.len-p⟩ ⟨0,0⟩ 0 = .ok (copy.duri,args) ∧
      copy.copyPath = ngxHttpMapUriToPath clcf r copy.duri 0 := by
  unfold copyMoveHandler at h
  by_cases hbody : r.contentLength > 0
  · rw [if_pos hbody] at h
    cases h
  rw [if_neg hbody, hdest] at h
  dsimp only at h
  cases hp : findPath r dest with
  | none =>
    rw [hp] at h
    cases h
  | some p =>
    rw [hp] at h
    dsimp only at h
    cases hparse : ngxHttpParseUnsafeUri r.mem ⟨p,dest.data+dest.len-p⟩ ⟨0,0⟩ 0 with
    | error logged =>
      rw [hparse] at h
      cases h
    | ok res =>
      rw [hparse] at h
      dsimp only at h
      split at h
      · cases h
      split at h
      · cases h
      cases hover : davOverwrite r.overwrite with
      | none =>
        rw [hover] at h
        cases h
      | some overwrite =>
        rw [hover] at h
        obtain rfl := Except.ok.inj h
        exact ⟨p,res.2,rfl,hparse,rfl⟩

/-- A destination that is accepted has the host of the request, and its file is that of its path
in the location, when a slash or a colon is behind as many bytes as the host has and the path
begins with the name of an alias. -/
theorem destination_mapped {clcf : Location} {r : Request} {dest : Str} {copy : Copy}
    (hdest : r.destination = some dest) (h : copyMoveHandler clcf r = .ok copy) :
    (SameHost r dest ∧ ∃ m, copy.copyPath = some m ∧ Maps clcf r dest copy m) ↔
      HostEnds r dest ∧ AliasFits clcf r (destinationPath r dest) := by
  obtain ⟨p,args,hp,hparse,hcopy⟩ := handler_ok hdest h
  have hle : dest.data ≤ p := by
    rcases find_path hp with ⟨-,rfl⟩|⟨-,hl,-⟩
    · exact le_rfl
    · exact hl
  have hfit : p ≤ dest.data+dest.len := by
    rcases find_path hp with ⟨-,rfl⟩|⟨-,-,hr,-⟩
    · exact Nat.le_add_right _ _
    · exact hr.le
  have hrange : (⟨p,dest.data+dest.len-p⟩ : Str).bytes r.mem =
      readRange r.mem p (dest.data+dest.len) := by
    rw [Str.bytes, Nat.add_sub_cancel' hfit]
  obtain ⟨hbytes,-,-⟩ := parse_ok _ _ _ _ hparse
  have hpath : copy.duri.bytes r.mem = destinationPath r dest := by
    rw [← find_path_bytes hp, ← hrange]
    exact hbytes
  have hsafe : ¬∃ logged,
      ngxHttpParseUnsafeUri r.mem ⟨p,dest.data+dest.len-p⟩ ⟨0,0⟩ 0 = .error logged := by
    rintro ⟨logged,he⟩
    rw [hparse] at he
    cases he
  rw [parse_error] at hsafe
  have hnul : nul ∉ copy.duri.bytes r.mem := fun hn =>
    hsafe (Or.inr (Or.inr (Or.inl (hbytes ▸ hn))))
  have hpos : 0 < dest.len := by
    by_contra hzero
    refine hsafe (Or.inl ?_)
    rw [hrange, show dest.data+dest.len = p by omega, read_empty]
    rfl
  have hlen : copy.duri.len ≤ dest.len := by
    rcases parse_value _ _ _ _ hparse rfl with ⟨-,hr⟩|⟨hlt,hr⟩
    · rw [(Prod.mk.inj hr).1]
      show dest.data+dest.len-p ≤ dest.len
      omega
    rw [(Prod.mk.inj hr).1]
    refine hlt.le.trans ?_
    show dest.data+dest.len-p ≤ dest.len
    omega
  have hsmall : dest.len < 2^63 := r.small dest hdest
  exact and_congr (same_host_iff hp hpos) (maps_iff hpath hnul (by omega) hcopy)

def shared : Location where
  name := [47,100,47]
  root := [47,102,47]
  aliased := true
  regex := false
  rootLengths := false
  compiled h hregex := absurd hregex Bool.false_ne_true
  small := by decide

/-- COPY of `/d/a` on the host `h` -/
def put (header : List UInt8) (h : header.length < 2^63) : Request where
  mem i := ([47,100,47,97]++header).getD i nul
  method := .copy
  contentLength := -1
  destination := some ⟨4,header.length⟩
  depth := none
  overwrite := none
  server := [104]
  ssl := false
  uri := ⟨0,4⟩
  validLocation := true
  addUriToAlias := false
  plain := by decide
  small dest hdest := Option.some.inj hdest ▸ h

/-- `/d/b` becomes `/f/b`. -/
theorem destination_mapped_alias : ∃ r dest copy, r.destination = some dest ∧
    copyMoveHandler shared r = .ok copy ∧ copy.copyPath.map (·.data) = some [47,102,47,98,0] ∧
      SameHost r dest ∧ ∃ m, copy.copyPath = some m ∧ Maps shared r dest copy m := by
  refine ⟨put [47,100,47,98] (by decide),⟨4,4⟩,_,rfl,rfl,by decide,?_⟩
  exact (destination_mapped rfl rfl).mpr
    ⟨fun h => absurd (by decide) h,fun _ => ⟨rfl,by decide⟩⟩

/-- `/x/ab` becomes `/f/ab`, and `http://hx/d/b` is taken for a destination on the host `h`. -/
theorem foreign_accepted :
    (∃ r dest copy, r.destination = some dest ∧ copyMoveHandler shared r = .ok copy ∧
      copy.copyPath.map (·.data) = some [47,102,47,97,98,0] ∧
      ¬∃ m, copy.copyPath = some m ∧ Maps shared r dest copy m) ∧
    ∃ r dest copy, r.destination = some dest ∧ copyMoveHandler shared r = .ok copy ∧
      ¬SameHost r dest := by
  refine ⟨⟨put [47,120,47,97,98] (by decide),⟨4,5⟩,_,rfl,rfl,by decide,?_⟩,
    ⟨put [104,116,116,112,58,47,47,104,120,47,100,47,98] (by decide),⟨4,13⟩,_,rfl,rfl,
      ?_⟩⟩
  · rintro ⟨m,-,hm⟩
    obtain ⟨rest,hrest,-⟩ := hm.file
    have hstart : [47,100,47] <+: ([47,120,47,97,98] : List UInt8) := ⟨rest,hrest.symm⟩
    exact absurd hstart (by decide)
  · intro h
    rcases h (by decide) with h|h
    · exact absurd h (by decide)
    · exact absurd h (by decide)

end Nginx.DavDestination
