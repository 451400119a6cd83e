import Nginx.Autoindex

/-!
# The page that a listing writes

Each call writes behind what is written, the few bytes written twice apart: so the page is one text,
put together from one text for each entry. Its length is compared with the length of the buffer.
-/

set_option autoImplicit false

namespace Nginx.AutoindexLaw
open Nginx.Autoindex Nginx.CharsetRecode Nginx.CharsetRecodeLaw Nginx.HttpTime Nginx.HttpTimeRound
open Nginx.MemoryRange Nginx.UriBytes Nginx.UriEscape Nginx.Utf8Text

variable (b : Out)

theorem put_put (x y : List UInt8) : (b.put x).put y = b.put (x++y) := by
  simp only [Out.put, write_append, List.length_append, Nat.add_assoc]

theorem put_nil : b.put [] = b := by
  simp only [Out.put, write_empty]
  rfl

/-! ## Escapes of HTML -/

theorem entity_length (ch : UInt8) : (htmlEntity ch).length = 1+(if ch = 60 then 3
    else if ch = 62 then 3 else if ch = 38 then 4 else if ch = 34 then 5 else 0) := by
  rw [htmlEntity]
  split_ifs <;> rfl

theorem html_length (src : List UInt8) :
    (ngxEscapeHtml src).length = src.length+ngxEscapeHtmlCount src := by
  induction src with
  | nil => rfl
  | cons ch src ih =>
    rw [ngxEscapeHtml, ngxEscapeHtmlCount, List.length_append, ih, entity_length, List.length_cons]
    omega

theorem html_count_append (a b : List UInt8) :
    ngxEscapeHtmlCount (a++b) = ngxEscapeHtmlCount a+ngxEscapeHtmlCount b := by
  induction a with
  | nil => exact (Nat.zero_add _).symm
  | cons ch a ih => rw [List.cons_append, ngxEscapeHtmlCount, ngxEscapeHtmlCount, ih, Nat.add_assoc]

theorem html_count_prefix {a b : List UInt8} (h : a <+: b) :
    ngxEscapeHtmlCount a ≤ ngxEscapeHtmlCount b := by
  obtain ⟨c,rfl⟩ := h
  rw [html_count_append]
  exact Nat.le_add_right _ _

theorem html_kept {src : List UInt8} (h : ngxEscapeHtmlCount src = 0) :
    ngxEscapeHtml src = src := by
  induction src with
  | nil => rfl
  | cons ch src ih =>
    rw [ngxEscapeHtmlCount] at h
    rw [ngxEscapeHtml, ih (by omega), htmlEntity]
    split_ifs at h ⊢ <;> first | rfl | omega

theorem html_plain (src : List UInt8) : ∀ c ∈ ngxEscapeHtml src, c ≠ 60 ∧ c ≠ 62 := by
  induction src with
  | nil => simp [ngxEscapeHtml]
  | cons ch src ih =>
    rw [ngxEscapeHtml, List.forall_mem_append]
    refine ⟨?_,ih⟩
    rw [htmlEntity]
    split_ifs with hlt hgt hamp hquot
    · simp
    · simp
    · simp
    · simp
    · simpa using ⟨hlt,hgt⟩

/-! ## Characters of a name -/

/-- A character as the decoder takes it: a byte, or as many bytes as the first one says. -/
def Part (p : List UInt8) : Prop :=
  ∃ u b, p = u::b ∧ b.length = need u ∧ (0x80 ≤ u.toNat →
    ∃ v ≤ 0x10ffff, ∀ y n, need u < n → n < 2^64 →
      ngxUtf8Decode (u::b++y) n = .ok (v,need u+1))

theorem need_ascii {u : UInt8} (h : u.toNat < 0x80) : need u = 0 := by
  rw [need, if_neg (by omega), if_neg (by omega), if_neg (by omega)]

theorem tail_part (valid len u at' : ℕ) (b : List UInt8) : ∃ v k,
    decodeTail valid len u at' (b++[0]) = .ok (v,k) ∧ (v ≤ 0x10ffff → k = at'+len ∧
      len ≤ b.length ∧ ∀ y, decodeTail valid len u at' (b.take len++y) = .ok (v,k)) := by
  induction len generalizing u at' b with
  | zero => exact ⟨_,at',rfl,fun _ => ⟨rfl,Nat.zero_le _,fun _ => rfl⟩⟩
  | succ len ih =>
    cases b with
    | nil => exact ⟨invalid,at'+1,rfl,fun h => absurd h (by decide)⟩
    | cons i b =>
      rw [List.cons_append, decodeTail]
      by_cases hi : i.toNat < 0x80
      · rw [if_pos hi]
        exact ⟨invalid,at'+1,rfl,fun h => absurd h (by decide)⟩
      rw [if_neg hi]
      obtain ⟨v,k,heq,hv⟩ := ih (u*64+i.toNat%64) (at'+1) b
      refine ⟨v,k,heq,fun h => ?_⟩
      obtain ⟨hk,hlen,hall⟩ := hv h
      refine ⟨by omega,by simpa using hlen,fun y => ?_⟩
      rw [List.take_succ_cons, List.cons_append, decodeTail, if_neg hi, hall]

theorem decode_part (u : UInt8) (b : List UInt8) (n : ℕ) :
    ∃ v k, ngxUtf8Decode (u::(b++[0])) n = .ok (v,k) ∧ (v ≤ 0x10ffff → k = need u+1 ∧
      need u ≤ b.length ∧ ∀ y m, need u < m → m < 2^64 →
        ngxUtf8Decode (u::b.take (need u)++y) m = .ok (v,k)) := by
  by_cases hu : 0xc2 ≤ u.toNat
  · rw [decode_lead _ n hu]
    by_cases hless : (n+(2^64-1))%2^64 < need u
    · rw [if_pos hless]
      exact ⟨incomplete,0,rfl,fun h => absurd h (by decide)⟩
    rw [if_neg hless]
    obtain ⟨v,k,heq,hv⟩ := tail_part (shorter u) (need u) (lead u) 1 b
    refine ⟨v,k,heq,fun h => ?_⟩
    obtain ⟨hk,hlen,hall⟩ := hv h
    refine ⟨by omega,hlen,fun y m hm hm' => ?_⟩
    rw [List.cons_append, decode_lead _ m hu, if_neg (by omega), hall]
  · rw [decode_low _ n (by omega)]
    exact ⟨invalid,1,rfl,fun h => absurd h (by decide)⟩

variable {x : List UInt8}

theorem length_parts {n : ℕ} (fuel i len : ℕ) (hi : i+x.length = n) (hfuel : x.length < fuel) :
    ∃ r, lengthLoop n fuel (x++[0]) i len = .ok r ∧
      (r = n ∨ ∃ parts : List (List UInt8), (∀ p ∈ parts, Part p) ∧ x = parts.flatten ∧
        r = len+parts.length) := by
  induction fuel generalizing x i len with
  | zero => exact absurd hfuel (Nat.not_lt_zero _)
  | succ fuel ih =>
    cases x with
    | nil =>
      rw [List.length_nil, Nat.add_zero] at hi
      rw [List.nil_append, lengthLoop, if_neg (by omega)]
      exact ⟨len,rfl,Or.inr ⟨[],by simp,rfl,rfl⟩⟩
    | cons u b =>
      rw [List.length_cons] at hi hfuel
      rw [List.cons_append, lengthLoop, if_pos (by omega)]
      by_cases hu : u.toNat < 0x80
      · rw [if_pos hu]
        obtain ⟨r,hr,hcase⟩ := ih (i+1) (len+1) (x := b) (by omega) (by omega)
        refine ⟨r,hr,hcase.imp_right fun ⟨parts,hparts,hx,hlen⟩ => ?_⟩
        refine ⟨[u]::parts,List.forall_mem_cons.mpr ⟨?_,hparts⟩,by rw [hx]; rfl,?_⟩
        · exact ⟨u,[],rfl,(need_ascii hu).symm,fun h => absurd hu (by omega)⟩
        · rw [hlen, List.length_cons]
          omega
      rw [if_neg hu]
      obtain ⟨v,k,hdecode,hgood⟩ := decode_part u b n
      rw [hdecode]
      simp only
      by_cases hv : v > 0x10ffff
      · rw [if_pos hv]
        exact ⟨n,rfl,Or.inl rfl⟩
      rw [if_neg hv]
      obtain ⟨rfl,hneed,hall⟩ := hgood (by omega)
      have hdrop : (u::(b++[0])).drop (need u+1) = b.drop (need u)++[0] := by
        rw [List.drop_succ_cons, List.drop_append_of_le_length hneed]
      have hlength : (b.drop (need u)).length = b.length-need u := List.length_drop
      rw [hdrop]
      obtain ⟨r,hr,hcase⟩ := ih (i+(need u+1)) (len+1) (x := b.drop (need u)) (by omega)
        (by omega)
      refine ⟨r,hr,hcase.imp_right fun ⟨parts,hparts,hx,hlen⟩ => ?_⟩
      refine ⟨(u::b.take (need u))::parts,List.forall_mem_cons.mpr ⟨?_,hparts⟩,?_,?_⟩
      · exact ⟨u,b.take (need u),rfl,List.length_take_of_le hneed,fun _ => ⟨v,by omega,hall⟩⟩
      · rw [List.flatten_cons, ← hx, List.cons_append, List.take_append_drop]
      · rw [hlen, List.length_cons]
        omega

@[grind =] def firstChars : ℕ → List UInt8 → List UInt8
  | 0, _ => []
  | _+1, [] => []
  | n+1, u::b => u::b.take (need u)++firstChars n (b.drop (need u))

variable (n : ℕ)

theorem first_parts {parts : List (List UInt8)} (h : ∀ p ∈ parts, Part p) :
    firstChars n parts.flatten = (parts.take n).flatten := by
  induction n generalizing parts with
  | zero => rfl
  | succ n ih =>
    cases parts with
    | nil => rfl
    | cons p parts =>
      obtain ⟨⟨u,b,rfl,hlength,-⟩,hparts⟩ := List.forall_mem_cons.mp h
      rw [List.flatten_cons, List.cons_append, firstChars, ← hlength, List.take_left,
        List.drop_left, ih hparts, List.take_succ_cons, List.flatten_cons]

theorem parts_length {l : List (List UInt8)} (h : ∀ p ∈ l, Part p) :
    l.length ≤ l.flatten.length := by
  induction l with
  | nil => exact le_rfl
  | cons p l ih =>
    obtain ⟨⟨u,b,rfl,-,-⟩,hparts⟩ := List.forall_mem_cons.mp h
    have hle := ih hparts
    rw [List.flatten_cons, List.length_append, List.length_cons, List.length_cons]
    omega

theorem copy_parts (mem : ℕ → UInt8) (dst : ℕ) {parts : List (List UInt8)} (h : ∀ p ∈ parts, Part p)
    (hzero : 0 ∉ parts.flatten) (hlength : parts.flatten.length+1 < 2^64) :
    cpystrnLoop n mem dst (parts.flatten++[0]) (parts.flatten.length+1) =
      .ok (writeRange mem dst ((parts.take n).flatten++[0]),
        dst+(parts.take n).flatten.length) := by
  induction n generalizing mem dst parts with
  | zero => rfl
  | succ n ih =>
    cases parts with
    | nil => rfl
    | cons p parts =>
      obtain ⟨⟨u,b,rfl,hneed,hdecode⟩,hparts⟩ := List.forall_mem_cons.mp h
      rw [List.flatten_cons, List.mem_append, not_or] at hzero
      obtain ⟨hp,hrest⟩ := hzero
      rw [List.flatten_cons, List.length_append, List.length_cons] at hlength
      have hnext : writeRange (writeRange mem dst (u::b)) (dst+(b.length+1))
          ((parts.take n).flatten++[0]) =
            writeRange mem dst (u::b++(parts.take n).flatten++[0]) :=
        write_next mem dst (u::b) _
      have hsum : dst+(b.length+1)+(parts.take n).flatten.length =
          dst+(u::b++(parts.take n).flatten).length := by
        rw [List.length_append, List.length_cons]
        omega
      rw [List.flatten_cons, List.take_succ_cons, List.flatten_cons, List.length_append,
        List.length_cons, List.cons_append, List.cons_append, cpystrnLoop]
      by_cases hu : u.toNat < 0x80
      · rw [need_ascii hu] at hneed
        obtain rfl := List.length_eq_zero_iff.mp hneed
        have hu0 : u ≠ 0 := fun h0 => hp (by rw [h0]; exact List.mem_cons_self)
        rw [if_pos hu, if_pos hu0,
          show (([] : List UInt8).length+1+parts.flatten.length+1+(2^64-1))%2^64 =
            parts.flatten.length+1 by simp only [List.length_nil]; omega]
        rw [List.nil_append, ih _ _ hparts hrest (by omega)]
        exact congrArg₂ (fun m k => Except.ok (m,k)) hnext hsum
      rw [if_neg hu]
      obtain ⟨v,hv,hall⟩ := hdecode (by omega)
      have htake : (u::(b++parts.flatten++[0])).take (need u+1) = u::b := by
        rw [List.take_succ_cons, ← hneed, List.append_assoc, List.take_left]
      have hdrop : (u::(b++parts.flatten++[0])).drop (need u+1) = parts.flatten++[0] := by
        rw [List.drop_succ_cons, ← hneed, List.append_assoc, List.drop_left]
      have hover : writeRange (writeRange mem dst [u]) dst (u::b) = writeRange mem dst (u::b) :=
        write_over mem dst (by simp)
      have hle := need_le u
      have hhere := hall (parts.flatten++[0]) (b.length+1+parts.flatten.length+1) (by omega)
        (by omega)
      rw [List.cons_append, ← List.append_assoc] at hhere
      rw [hhere]
      simp only
      rw [if_neg (by omega), htake, hdrop, hover,
        show (b.length+1+parts.flatten.length+1+(2^64-(need u+1)))%2^64 =
          parts.flatten.length+1 by omega, ih _ _ hparts hrest (by omega), ← hneed]
      exact congrArg₂ (fun m k => Except.ok (m,k)) hnext hsum

theorem cpystrn_name (b : Out) (hzero : 0 ∉ x) :
    cpystrnFrom n b (x++[0]) =
      .ok ⟨writeRange b.mem b.last (x.take n++[0]),b.last+(x.take n).length⟩ := by
  induction n generalizing b x with
  | zero => rfl
  | succ n ih =>
    cases x with
    | nil => rfl
    | cons c x =>
      rw [List.mem_cons, not_or] at hzero
      obtain ⟨hc,hrest⟩ := hzero
      rw [List.cons_append, cpystrnFrom, if_neg (Ne.symm hc), ih _ hrest, List.take_succ_cons,
        List.length_cons]
      have hnext := write_next b.mem b.last [c] (x.take n)
      rw [List.length_singleton] at hnext
      simp only [Out.put, List.length_singleton, hnext, List.cons_append, List.nil_append,
        Nat.add_assoc, Nat.add_comm 1]

/-! ## Entries -/

def utfLength (utf8 : Bool) (name : List UInt8) : ℕ :=
  if utf8 then (ngxUtf8Length (name++[0]) name.length).toOption.getD 0 else name.length

def entryOf (utf8 : Bool) (d : DirEntry) : Entry :=
  ⟨d.name,utfLength utf8 d.name,2*ngxEscapeUriCount .uriComponent d.name,
    ngxEscapeHtmlCount d.name,d.dir,d.mtime,d.size⟩

structure EntryLaw (e : Entry) : Prop where
  zero : 0 ∉ e.name
  bound : e.name.length+1 < 2^64
  escape : e.escape = 2*ngxEscapeUriCount .uriComponent e.name
  html : e.escapeHtml = ngxEscapeHtmlCount e.name
  parts : e.utfLen = e.name.length ∨ ∃ parts : List (List UInt8), (∀ p ∈ parts, Part p) ∧
    e.name = parts.flatten ∧ e.utfLen = parts.length

theorem utf_length_read (d : DirEntry) : ∃ r,
    ngxUtf8Length (d.name++[0]) d.name.length = .ok r ∧ utfLength true d.name = r ∧
      (r = d.name.length ∨ ∃ parts : List (List UInt8), (∀ p ∈ parts, Part p) ∧
        d.name = parts.flatten ∧ r = parts.length) := by
  obtain ⟨r,hr,hcase⟩ := length_parts (n := d.name.length) (d.name.length+1) 0 0 (Nat.zero_add _)
    (Nat.lt_succ_self _)
  rw [← ngxUtf8Length] at hr
  refine ⟨r,hr,?_,?_⟩
  · rw [utfLength, if_pos rfl, hr]
    rfl
  · simpa only [Nat.zero_add] using hcase

theorem entry_read (utf8 : Bool) (d : DirEntry) : readEntry utf8 d = .ok (entryOf utf8 d) := by
  cases utf8 with
  | false => rfl
  | true =>
    obtain ⟨r,hr,hlength,-⟩ := utf_length_read d
    simp only [readEntry, entryOf, if_pos, hr, hlength]
    rfl

theorem entry_law (utf8 : Bool) (d : DirEntry) : EntryLaw (entryOf utf8 d) where
  zero := d.terminated
  bound := d.addressable
  escape := rfl
  html := rfl
  parts := by
    cases utf8 with
    | false => exact Or.inl rfl
    | true =>
      obtain ⟨r,-,hlength,hcase⟩ := utf_length_read d
      simp only [entryOf, hlength]
      exact hcase

theorem entries_read (utf8 : Bool) (ds : List DirEntry) :
    readEntries utf8 ds = .ok ((listed ds).map (entryOf utf8)) := by
  rw [readEntries]
  induction listed ds with
  | nil => rfl
  | cons d ds ih =>
    rw [List.mapM_cons, entry_read, ih]
    rfl

def shownName (e : Entry) : List UInt8 :=
  if e.utfLen ≤ nameLen then e.name
  else if e.name.length ≠ e.utfLen then firstChars (nameLen-3) e.name
  else e.name.take (nameLen-3)

def shownMark (e : Entry) : List UInt8 :=
  if e.utfLen > nameLen then [46,46,38,103,116,59]
  else if e.dir ∧ e.utfLen < nameLen then [47] else []

def shownPad (e : Entry) : ℕ := nameLen-e.utfLen-(if e.dir then 1 else 0)

def shownText (e : Entry) : List UInt8 :=
  ngxEscapeHtml (shownName e)++shownMark e++linkEnd++List.replicate (shownPad e) 32

variable {e : Entry}

theorem shown_front (h : EntryLaw e) : shownName e <+: e.name := by
  rw [shownName]
  split_ifs with hle hchars
  · exact List.prefix_rfl
  · obtain hbytes | ⟨parts,hparts,hname,-⟩ := h.parts
    · exact absurd hbytes.symm hchars
    · rw [hname, first_parts _ hparts]
      refine ⟨(parts.drop (nameLen-3)).flatten,?_⟩
      rw [← List.flatten_append, List.take_append_drop]
  · exact List.take_prefix _ _

theorem link_end_short (last : ℕ) (h : e.utfLen ≤ nameLen) :
    writeLinkEnd b last e = b.put (shownMark e++linkEnd++List.replicate (shownPad e) 32) := by
  have hnot : ¬e.utfLen > nameLen := by omega
  rw [writeLinkEnd, if_neg hnot, shownMark, if_neg hnot, shownPad]
  cases hdir : e.dir with
  | false => simp [put_put]
  | true =>
    by_cases hlt : e.utfLen < nameLen
    · have hpos : nameLen-e.utfLen > 0 := by omega
      simp [hpos, hlt, put_put, Nat.sub_sub]
    · have hpad : nameLen-e.utfLen = 0 := by omega
      simp [hlt, put_put, hpad]

theorem link_end_long (last : ℕ) (h : ¬e.utfLen ≤ nameLen) :
    writeLinkEnd b last e =
      Out.put ⟨b.mem,last⟩ (shownMark e++linkEnd++List.replicate (shownPad e) 32) := by
  have hgt : e.utfLen > nameLen := by omega
  have hpad : shownPad e = 0 := by
    rw [shownPad]
    omega
  rw [writeLinkEnd, if_pos hgt, shownMark, if_pos hgt, hpad]
  rfl

theorem put_over {x y : List UInt8} (h : x.length ≤ y.length) :
    Out.put ⟨writeRange b.mem b.last x,b.last⟩ y = b.put y := by
  simp only [Out.put, write_over b.mem b.last h]

theorem put_behind (x z y : List UInt8) (h : z.length ≤ y.length) :
    Out.put ⟨writeRange b.mem b.last (x++z),b.last+x.length⟩ y = b.put (x++y) := by
  have hover := write_over (writeRange b.mem b.last x) (b.last+x.length) h
  simp only [Out.put, ← write_append, hover, List.length_append, Nat.add_assoc]

def endText (e : Entry) : List UInt8 := shownMark e++linkEnd++List.replicate (shownPad e) 32

theorem end_length (e : Entry) : 1 ≤ (endText e).length := by
  simp only [endText, List.length_append]
  have : linkEnd.length = 4 := rfl
  omega

theorem shown_text (e : Entry) : shownText e = ngxEscapeHtml (shownName e)++endText e := by
  rw [shownText, endText, List.append_assoc, List.append_assoc, List.append_assoc]

theorem link_end_last (e : Entry) : writeLinkEnd b b.last e = b.put (endText e) := by
  by_cases hle : e.utfLen ≤ nameLen
  · exact link_end_short b b.last hle
  · exact link_end_long b b.last hle

theorem html_part (h : EntryLaw e) (hhtml : e.escapeHtml = 0) (hx : x <+: e.name) :
    ngxEscapeHtml x = x := by
  refine html_kept (Nat.le_zero.mp ?_)
  rw [← hhtml, h.html]
  exact html_count_prefix hx

theorem bytes_written (h : EntryLaw e) (hbytes : e.name.length = e.utfLen)
    (hhtml : e.escapeHtml = 0) :
    ∃ b' last, writeName b e = .ok (b',last) ∧ writeLinkEnd b' last e = b.put (shownText e) := by
  have hend := end_length e
  rw [writeName, if_neg (not_not.mpr hbytes), if_neg (not_not.mpr hhtml), ngxCpystrn,
    cpystrn_name nameLen b h.zero]
  refine ⟨_,_,rfl,?_⟩
  rw [shown_text, html_part h hhtml (shown_front h)]
  by_cases hle : e.utfLen ≤ nameLen
  · have hall : e.name.take nameLen = e.name := List.take_of_length_le (by omega)
    rw [link_end_short _ _ hle, hall, shownName, if_pos hle]
    exact put_behind b e.name [0] _ hend
  have hlong : 50 < e.name.length := by
    rw [hbytes]
    exact Nat.not_le.mp hle
  have hsplit : e.name.take nameLen = e.name.take (nameLen-3)++(e.name.drop 47).take 3 :=
    List.take_add (i := 47) (j := 3)
  have hlength : (e.name.take nameLen).length = (e.name.take (nameLen-3)).length+3 := by
    rw [List.length_take_of_le hlong.le,
      List.length_take_of_le (show nameLen-3 ≤ e.name.length by omega)]
    rfl
  have hlast : b.last+(e.name.take nameLen).length-3 =
      b.last+(e.name.take (nameLen-3)).length := by omega
  rw [link_end_long _ _ hle, hlast, hsplit, shownName, if_neg hle, if_neg (not_not.mpr hbytes),
    List.append_assoc]
  refine put_behind b _ _ _ ?_
  have hmark : (shownMark e).length = 6 := by
    rw [shownMark, if_pos (Nat.not_le.mp hle)]
    rfl
  have hlink : linkEnd.length = 4 := rfl
  simp only [List.length_append, List.length_take, List.length_singleton]
  omega

theorem html_written (hbytes : e.name.length = e.utfLen) (hhtml : e.escapeHtml ≠ 0) :
    ∃ b' last, writeName b e = .ok (b',last) ∧ writeLinkEnd b' last e = b.put (shownText e) := by
  rw [writeName, if_neg (not_not.mpr hbytes), if_pos hhtml]
  refine ⟨_,_,rfl,?_⟩
  have hname : e.name.take (if e.utfLen > nameLen then nameLen-3 else e.utfLen) = shownName e := by
    rw [shownName]
    by_cases hle : e.utfLen ≤ nameLen
    · rw [if_neg (by omega), if_pos hle]
      exact List.take_of_length_le (by omega)
    · rw [if_pos (by omega), if_neg hle, if_neg (not_not.mpr hbytes)]
  rw [link_end_last, put_put, hname, shown_text]

theorem chars_written (h : EntryLaw e) (hbytes : e.name.length ≠ e.utfLen) :
    ∃ b' last, writeName b e = .ok (b',last) ∧ writeLinkEnd b' last e = b.put (shownText e) := by
  obtain heq | ⟨parts,hparts,hname,hlen⟩ := h.parts
  · exact absurd heq.symm hbytes
  have hzero := h.zero
  have hbound := h.bound
  obtain ⟨n,hn,hchars⟩ : ∃ n, (if e.utfLen > nameLen then nameLen-3+1 else nameLen+1) = n+1 ∧
      (parts.take n).flatten = shownName e := by
    by_cases hle : e.utfLen ≤ nameLen
    · refine ⟨nameLen,if_neg (by omega),?_⟩
      rw [shownName, if_pos hle, hname, List.take_of_length_le (by omega)]
    · refine ⟨nameLen-3,if_pos (by omega),?_⟩
      rw [shownName, if_neg hle, if_pos hbytes, hname, first_parts _ hparts]
  have hcopy : ngxUtf8Cpystrn b.mem b.last (e.name++[0]) (n+1) (e.name.length+1) =
      .ok (writeRange b.mem b.last (shownName e++[0]),b.last+(shownName e).length) := by
    rw [hname] at hzero hbound ⊢
    rw [← hchars]
    exact copy_parts n b.mem b.last hparts hzero hbound
  have htake : e.name.take (shownName e).length = shownName e :=
    (List.prefix_iff_eq_take.mp (shown_front h)).symm
  have hend := end_length e
  rw [writeName, if_pos hbytes, hn]
  simp only [hcopy, Except.bind, bind, Nat.add_sub_cancel_left, htake]
  refine ⟨_,_,rfl,?_⟩
  rw [link_end_last, shown_text]
  by_cases hhtml : e.escapeHtml = 0
  · rw [if_neg (not_not.mpr hhtml), html_part h hhtml (shown_front h)]
    exact put_behind b _ [0] _ hend
  rw [if_pos hhtml, put_put]
  refine put_over b ?_
  simp only [List.length_append, html_length, List.length_singleton]
  omega

theorem name_written (h : EntryLaw e) :
    ∃ b' last, writeName b e = .ok (b',last) ∧ writeLinkEnd b' last e = b.put (shownText e) := by
  by_cases hbytes : e.name.length = e.utfLen
  · by_cases hhtml : e.escapeHtml = 0
    · exact bytes_written b h hbytes hhtml
    · exact html_written b hbytes hhtml
  · exact chars_written b h hbytes

end Nginx.AutoindexLaw
