import Mathlib.Algebra.Order.BigOperators.Group.List
import Nginx.AutoindexLaw

/-!
# Whether the listing fits

The parts of an entry are as long as the sum says, but for the year, for which four bytes are
counted, and for what is counted and not used. So the page fits exactly when the years take no more
than both together. The escapes hold in any case.
-/

set_option autoImplicit false

namespace Nginx.AutoindexPage
open Nginx.Autoindex Nginx.AutoindexLaw Nginx.HttpTime Nginx.HttpTimeLaw Nginx.HttpTimeRound
open Nginx.HttpTimeWidth Nginx.MemoryRange Nginx.UriBytes Nginx.UriEscape

/-! ## The text of an entry -/

def hrefText (e : Entry) : List UInt8 :=
  ngxEscapeUri .uriComponent e.name++(if e.dir then [47] else [])

def entryText (alcf : LocConf) (gmtoff : ℤ) (e : Entry) : List UInt8 :=
  hrefStart++hrefText e++hrefEnd++shownText e++[32]++dateText alcf gmtoff e++sizeText alcf e++
    [13,10]

theorem uri_kept {type : EscapeType} {src : List UInt8} (h : ngxEscapeUriCount type src = 0) :
    ngxEscapeUri type src = src := by
  induction src with
  | nil => rfl
  | cons ch src ih =>
    rw [ngxEscapeUriCount] at h
    have hch : ¬escapes type ch = true := fun hch => by
      rw [if_pos hch] at h
      omega
    rw [ngxEscapeUri, if_neg hch, ih (by omega)]

variable {e : Entry}

theorem href_written (b : Out) (h : EntryLaw e) :
    writeHref b e = b.put (hrefStart++hrefText e++hrefEnd) := by
  have hname : (if e.escape ≠ 0 then
      (⟨writeRange (b.put hrefStart).mem (b.put hrefStart).last (ngxEscapeUri .uriComponent e.name),
        (b.put hrefStart).last+(e.name.length+e.escape)⟩ : Out)
      else (b.put hrefStart).put e.name) =
      (b.put hrefStart).put (ngxEscapeUri .uriComponent e.name) := by
    by_cases hescape : e.escape = 0
    · have hcount := h.escape
      rw [if_neg (not_not.mpr hescape), uri_kept (by omega)]
    · rw [if_pos hescape, h.escape]
      simp only [Out.put, escape_length]
  rw [writeHref, hrefText]
  simp only [hname]
  cases e.dir with
  | false => simp [put_put]
  | true => simp [put_put]

variable (alcf : LocConf) (gmtoff : ℤ)

theorem entry_written (b : Out) (h : EntryLaw e) :
    writeEntry alcf gmtoff b e = .ok (b.put (entryText alcf gmtoff e)) := by
  obtain ⟨b',last,hname,hend⟩ := name_written (writeHref b e) h
  rw [writeEntry, hname]
  simp only [bind, Except.bind, hend, href_written b h, put_put, entryText, List.append_assoc]

theorem entries_written (b : Out) {es : List Entry} (h : ∀ e ∈ es, EntryLaw e) :
    es.foldlM (writeEntry alcf gmtoff) b =
      .ok (b.put (es.map (entryText alcf gmtoff)).flatten) := by
  induction es generalizing b with
  | nil => exact congrArg Except.ok (put_nil b).symm
  | cons e es ih =>
    obtain ⟨he,hes⟩ := List.forall_mem_cons.mp h
    rw [List.foldlM_cons, entry_written alcf gmtoff b he]
    exact (ih _ hes).trans (by rw [put_put, List.map_cons, List.flatten_cons])

/-! ## The page -/

theorem sort_perm (es : List Entry) : (sortEntries es).Perm es := by
  rw [sortEntries]
  split_ifs
  · exact List.mergeSort_perm es _
  · exact List.Perm.refl es

def entries (r : Request) (ds : List DirEntry) : List Entry :=
  (listed ds).map (entryOf (isUtf8 r.charset))

theorem entries_law {r : Request} {ds : List DirEntry} : ∀ e ∈ entries r ds, EntryLaw e := by
  intro e he
  obtain ⟨d,-,rfl⟩ := List.mem_map.mp he
  exact entry_law _ d

def frame (uri : List UInt8) (rows : List (List UInt8)) : List UInt8 :=
  title++ngxEscapeHtml uri++header++ngxEscapeHtml uri++h1End++parentLink++rows.flatten++preEnd++tail

def pageText (r : Request) (alcf : LocConf) (gmtoff : ℤ) (ds : List DirEntry) : List UInt8 :=
  frame r.uri ((sortEntries (entries r ds)).map (entryText alcf gmtoff))

variable (r : Request)

theorem page_written (alcf : LocConf) (gmtoff : ℤ) (ds : List DirEntry) (mem : ℕ → UInt8) :
    ngxHttpAutoindexHandler r alcf gmtoff ds mem =
      .ok (pageLen r.uri (entries r ds),Out.put ⟨mem,0⟩ (pageText r alcf gmtoff ds)) := by
  have hlaw : ∀ e ∈ sortEntries (entries r ds), EntryLaw e := fun e he =>
    entries_law e ((sort_perm _).mem_iff.mp he)
  have huri (b : Out) : (if ngxEscapeHtmlCount r.uri ≠ 0 then
      ((b.put (ngxEscapeHtml r.uri)).put header).put (ngxEscapeHtml r.uri)
      else ((b.put r.uri).put header).put r.uri) =
      ((b.put (ngxEscapeHtml r.uri)).put header).put (ngxEscapeHtml r.uri) := by
    by_cases hcount : ngxEscapeHtmlCount r.uri = 0
    · rw [if_neg (not_not.mpr hcount), html_kept hcount]
    · rw [if_pos hcount]
  rw [ngxHttpAutoindexHandler, entries_read, ← entries]
  simp only [bind, Except.bind, huri, entries_written _ _ _ hlaw]
  simp only [put_put, pageText, frame, List.append_assoc]

/-! ## Lengths -/

theorem date_length (e : Entry) :
    (dateText alcf gmtoff e).length = 14+(yearText alcf gmtoff e).length := by
  obtain ⟨hmday,hmon,hhour,hmin,-⟩ := gmtime_clock (shownTime alcf gmtoff e)
  unfold dateText
  simp only [sprintf_two hmday, sprintf_two hhour, sprintf_two hmin, two, List.length_append,
    List.length_cons, List.length_nil, month_name hmon]
  omega

theorem rounded_bound {length unit : ℤ} (h : 0 ≤ length) (h' : length < 2^63) (hunit : 0 < unit) :
    -2^63 ≤ rounded length unit ∧ rounded length unit ≤ 2^63 := by
  have hlow := Int.ediv_nonneg h hunit.le
  have hhigh := Int.ediv_le_self unit h
  rw [rounded]
  split_ifs <;> omega

/-- The column of the size, which is wider by one for a file than what is counted for it -/
def sizeWidth (e : Entry) : ℕ := if e.dir then 20 else 21

theorem size_length (e : Entry) : (sizeText alcf e).length ≤ sizeWidth e := by
  have hlow := e.size.le_toInt
  have hhigh := e.size.toInt_lt
  rw [sizeText, sizeWidth]
  cases hdir : e.dir with
  | true => cases alcf.exactSize <;> simp
  | false =>
    have hscale {u : ℤ} (c : UInt8) (hu : 0 < u) (h : 0 ≤ e.size.toInt) :
        (sprintfInt 32 6 (rounded e.size.toInt u)++[c]).length ≤ 21 := by
      obtain ⟨hl,hr⟩ := rounded_bound h hhigh hu
      have hle := int_length (w := 6) (by decide) hl hr
      rw [List.length_append, List.length_singleton]
      omega
    simp only [Bool.false_eq_true, if_false]
    split_ifs with hexact hG hM hK
    · have hle := int_length (w := 19) le_rfl hlow hhigh.le
      omega
    · exact hscale 71 (by decide) (by omega)
    · exact hscale 77 (by decide) (by omega)
    · exact hscale 75 (by decide) (by omega)
    · have hle := int_length (w := 6) (by decide) hlow hhigh.le
      rw [List.length_append, List.length_singleton]
      omega

def nameSlack (e : Entry) : ℕ :=
  if e.utfLen ≤ nameLen then 3
  else (e.name.length-(shownName e).length)-(e.utfLen-(nameLen-3))+
    (e.escapeHtml-ngxEscapeHtmlCount (shownName e))

/-- What is counted for an entry besides its year and not used: the `/` of a file as well -/
def slack (alcf : LocConf) (e : Entry) : ℕ :=
  nameSlack e+(sizeWidth e-(sizeText alcf e).length)

theorem utf_length_le (h : EntryLaw e) : e.utfLen ≤ e.name.length := by
  obtain heq | ⟨parts,hparts,hname,hlen⟩ := h.parts
  · exact heq.le
  · rw [hname, hlen]
    exact parts_length hparts

theorem left_out (h : EntryLaw e) (hlong : ¬e.utfLen ≤ nameLen) :
    (shownName e).length+(e.utfLen-(nameLen-3)) ≤ e.name.length := by
  rw [shownName, if_neg hlong]
  by_cases hbytes : e.name.length = e.utfLen
  · rw [if_neg (not_not.mpr hbytes), List.length_take]
    omega
  obtain heq | ⟨parts,hparts,hname,hlen⟩ := h.parts
  · exact absurd heq.symm hbytes
  · rw [if_pos hbytes, hname, first_parts _ hparts, hlen]
    have hsplit := congrArg List.length (List.take_append_drop (nameLen-3) parts)
    have hrest := parts_length (l := parts.drop (nameLen-3)) fun p hp =>
      hparts p (List.mem_of_mem_drop hp)
    have hflat : parts.flatten.length = (parts.take (nameLen-3)).flatten.length+
        (parts.drop (nameLen-3)).flatten.length := by
      rw [← List.length_append, ← List.flatten_append, List.take_append_drop]
    rw [List.length_drop] at hrest
    omega

theorem shown_length (h : EntryLaw e) :
    (shownText e).length+nameSlack e = (e.name.length-e.utfLen)+e.escapeHtml+57 := by
  have hle := utf_length_le h
  have hlink : linkEnd.length = 4 := rfl
  have hfifty : nameLen = 50 := rfl
  rw [shownText, nameSlack]
  simp only [List.length_append, html_length, List.length_replicate, shownMark, shownPad, hlink,
    h.html]
  by_cases hlong : e.utfLen ≤ nameLen
  · rw [if_pos hlong, if_neg (by omega), shownName, if_pos hlong]
    cases e.dir with
    | false =>
      simp only [Bool.false_eq_true, false_and, if_false, List.length_nil]
      omega
    | true =>
      simp only [true_and, if_true]
      split_ifs
      · rw [List.length_singleton]
        omega
      · rw [List.length_nil]
        omega
  have hout := left_out h hlong
  have hcount := html_count_prefix (shown_front h)
  rw [if_neg hlong, if_pos (by omega)]
  simp only [List.length_cons, List.length_nil]
  omega

theorem entry_length (h : EntryLaw e) :
    (entryText alcf gmtoff e).length+(4+slack alcf e) =
      entryLen e+(yearText alcf gmtoff e).length := by
  have hshown := shown_length h
  have hsize := size_length alcf e
  have hhref : (hrefText e).length+sizeWidth e = e.name.length+e.escape+21 := by
    rw [hrefText, sizeWidth, List.length_append, escape_length, h.escape]
    cases e.dir <;> rfl
  have hstart : hrefStart.length = 9 := rfl
  have hend : hrefEnd.length = 2 := rfl
  have hlink : linkEnd.length = 4 := rfl
  have hfifty : nameLen = 50 := rfl
  rw [entryText, entryLen, slack]
  simp only [List.length_append, List.length_cons, List.length_nil, date_length, hstart, hend,
    hlink]
  omega

theorem rows_length {l : List Entry} (h : ∀ e ∈ l, EntryLaw e) :
    (l.map (entryText alcf gmtoff)).flatten.length+(l.map fun e => 4+slack alcf e).sum =
      (l.map entryLen).sum+(l.map fun e => (yearText alcf gmtoff e).length).sum := by
  induction l with
  | nil => simp only [List.map_nil, List.flatten_nil, List.length_nil, List.sum_nil]
  | cons e l ih =>
    obtain ⟨he,hes⟩ := List.forall_mem_cons.mp h
    have hfirst := entry_length alcf gmtoff he
    have hrest := ih hes
    simp only [List.map_cons, List.flatten_cons, List.length_append, List.sum_cons]
    omega

/-- The bytes that the years take, and those that are there for them -/
def YearsFit (r : Request) (alcf : LocConf) (gmtoff : ℤ) (ds : List DirEntry) : Prop :=
  ((entries r ds).map fun e => (yearText alcf gmtoff e).length).sum ≤
    ((entries r ds).map fun e => 4+slack alcf e).sum

instance (r : Request) (alcf : LocConf) (gmtoff : ℤ) (ds : List DirEntry) :
    Decidable (YearsFit r alcf gmtoff ds) := inferInstanceAs (Decidable (_ ≤ _))

theorem page_length (alcf : LocConf) (gmtoff : ℤ) (ds : List DirEntry) :
    (pageText r alcf gmtoff ds).length ≤ pageLen r.uri (entries r ds) ↔
      YearsFit r alcf gmtoff ds := by
  have hperm := sort_perm (entries r ds)
  have hrows := rows_length alcf gmtoff (l := sortEntries (entries r ds)) fun e he =>
    entries_law e (hperm.mem_iff.mp he)
  rw [(hperm.map _).sum_eq, (hperm.map _).sum_eq, (hperm.map _).sum_eq] at hrows
  rw [pageText, pageLen, frame, YearsFit]
  simp only [List.length_append, html_length]
  omega

/-! ## The laws -/

def Fits (r : Request) (alcf : LocConf) (gmtoff : ℤ) (ds : List DirEntry) : Prop :=
  ∀ mem, ∃ len b, ngxHttpAutoindexHandler r alcf gmtoff ds mem = .ok (len,b) ∧
    ∀ a, len ≤ a → b.mem a = mem a

theorem fits_iff (alcf : LocConf) (gmtoff : ℤ) (ds : List DirEntry) :
    Fits r alcf gmtoff ds ↔ YearsFit r alcf gmtoff ds := by
  rw [← page_length]
  constructor
  · intro h
    obtain ⟨len,b,hrun,hkeep⟩ := h fun _ => 0
    rw [page_written] at hrun
    obtain ⟨rfl,rfl⟩ := Prod.mk.inj (Except.ok.inj hrun)
    by_contra hlong
    -- the last byte of the page is a line feed
    obtain ⟨front,hfront⟩ : ∃ front, pageText r alcf gmtoff ds = front++[10] :=
      ⟨_,(List.append_assoc _ (tail.take 17) [10]).symm⟩
    have hlength : (pageText r alcf gmtoff ds).length = front.length+1 := by
      rw [hfront, List.length_append, List.length_singleton]
    have hlast := hkeep front.length (by omega)
    simp only [Out.put, hfront, writeRange, Nat.zero_le, if_true, Nat.sub_zero] at hlast
    rw [List.getD_append_right _ _ _ _ le_rfl, Nat.sub_self] at hlast
    exact absurd hlast (by decide)
  · intro h mem
    refine ⟨_,_,page_written r alcf gmtoff ds mem,fun a ha => ?_⟩
    simp only [Out.put, writeRange, Nat.zero_le, if_true, Nat.sub_zero]
    exact List.getD_eq_default _ _ (by omega)

def markup : List UInt8 := [34,39,38,60,62]

/-- A row: a link to the file whose name its reference says, and a text that shows it -/
def Row (alcf : LocConf) (gmtoff : ℤ) (e : Entry) (row : List UInt8) : Prop :=
  ∃ href text k, row = hrefStart++href++hrefEnd++text++linkEnd++List.replicate k 32++[32]++
      dateText alcf gmtoff e++sizeText alcf e++[13,10] ∧
    ngxUnescapeUri plainType href = (e.name++(if e.dir then [47] else []),[]) ∧
    (∀ c ∈ href, c ∉ markup) ∧ ∀ c ∈ text, c ≠ 60 ∧ c ≠ 62

/-- The page, the URI in it twice and a row for each entry that is listed -/
def Shown (r : Request) (alcf : LocConf) (gmtoff : ℤ) (ds : List DirEntry) : Prop :=
  ∀ mem, ∃ len b uri es rows, ngxHttpAutoindexHandler r alcf gmtoff ds mem = .ok (len,b) ∧
    readRange b.mem 0 b.last = title++uri++header++uri++h1End++parentLink++rows.flatten++preEnd++
      tail ∧
    uri = ngxEscapeHtml r.uri ∧ (∀ c ∈ uri, c ≠ 60 ∧ c ≠ 62) ∧
    es.Perm (entries r ds) ∧ List.Forall₂ (Row alcf gmtoff) es rows

theorem escaped_bytes (type : EscapeType) (src : List UInt8) : ∀ c ∈ ngxEscapeUri type src,
    c = percent ∨ c ∈ hex ∨ escapes type c = false := by
  induction src with
  | nil => simp [ngxEscapeUri]
  | cons ch src ih =>
    rw [ngxEscapeUri]
    split_ifs with hescape
    · have hdigits := hex_written ch
      refine List.forall_mem_cons.mpr ⟨Or.inl rfl,List.forall_mem_cons.mpr ⟨?_,?_⟩⟩
      · exact Or.inr (Or.inl hdigits.1)
      · exact List.forall_mem_cons.mpr ⟨Or.inr (Or.inl hdigits.2),ih⟩
    · exact List.forall_mem_cons.mpr ⟨Or.inr (Or.inr (by simpa using hescape)),ih⟩

theorem href_clean (e : Entry) : ∀ c ∈ hrefText e, c ∉ markup := by
  have hslash : ∀ c ∈ (if e.dir then [47] else []), c ∉ markup := by
    cases e.dir with
    | false => simp
    | true => simp [markup]
  refine List.forall_mem_append.mpr ⟨fun c hc hmark => ?_,hslash⟩
  have hall : markup.all (fun c => c != percent && !hex.contains c &&
      escapes .uriComponent c) = true := by decide
  have hc' := List.all_eq_true.mp hall c hmark
  simp only [Bool.and_eq_true, bne_iff_ne, Bool.not_eq_true', List.contains_eq_mem,
    decide_eq_false_iff_not] at hc'
  obtain h | h | h := escaped_bytes _ _ c hc
  · exact hc'.1.1 h
  · exact hc'.1.2 h
  · rw [h] at hc'
    exact absurd hc'.2 Bool.false_ne_true

theorem unescape_before {type : EscapeType} (hpercent : escapes type percent = true)
    (src rest : List UInt8) : unescapeLoop plainType .usual (ngxEscapeUri type src++rest) =
      written src (unescapeLoop plainType .usual rest) := by
  induction src with
  | nil => rfl
  | cons ch src ih =>
    rw [ngxEscapeUri]
    split_ifs with hescape
    · obtain ⟨hhigh,hlow,hbyte⟩ := nibbles ch
      simp only [List.cons_append, List.nil_append]
      rw [unescape_percent, quoted_digit _ (nibble_digit hhigh),
        second_digit _ _ _ (nibble_digit hlow), hbyte, ih]
      rfl
    · have hch : ch ≠ percent := fun h => hescape (h ▸ hpercent)
      rw [List.cons_append, unescape_plain _ hch, ih]
      rfl

theorem href_back (e : Entry) :
    ngxUnescapeUri plainType (hrefText e) = (e.name++(if e.dir then [47] else []),[]) := by
  rw [ngxUnescapeUri, hrefText, unescape_before ((percent_escaped _).mpr (by decide))]
  cases e.dir <;> rfl

theorem row_shown : Row alcf gmtoff e (entryText alcf gmtoff e) := by
  refine ⟨hrefText e,ngxEscapeHtml (shownName e)++shownMark e,shownPad e,?_,href_back e,
    href_clean e,List.forall_mem_append.mpr ⟨html_plain _,?_⟩⟩
  · simp only [entryText, shownText, List.append_assoc]
  · rw [shownMark]
    split_ifs <;> simp

theorem page_shown (alcf : LocConf) (gmtoff : ℤ) (ds : List DirEntry) : Shown r alcf gmtoff ds := by
  intro mem
  refine ⟨_,_,_,_,_,page_written r alcf gmtoff ds mem,?_,rfl,html_plain r.uri,
    sort_perm (entries r ds),List.forall₂_map_right_iff.mpr (List.forall₂_same.mpr fun e _ =>
      row_shown alcf gmtoff)⟩
  have hread := read_write mem 0 (pageText r alcf gmtoff ds)
  rw [Out.put]
  exact hread

/-- The page fits its buffer, and all of it is escaped, exactly when the years take no more bytes
than are there for them. -/
theorem autoindex_page (r : Request) (alcf : LocConf) (gmtoff : ℤ) (ds : List DirEntry) :
    Fits r alcf gmtoff ds ∧ Shown r alcf gmtoff ds ↔ YearsFit r alcf gmtoff ds :=
  ⟨fun h => (fits_iff r alcf gmtoff ds).mp h.1,
    fun h => ⟨(fits_iff r alcf gmtoff ds).mpr h,page_shown r alcf gmtoff ds⟩⟩

def before1970 : DirEntry := ⟨[97],true,-1,0,by decide,by decide⟩

theorem before_epoch_overflows : (ngxGmtime (-1)).year = 584554051223 ∧
    ¬(Fits ⟨[47],[]⟩ ⟨false,true⟩ 0 [before1970] ∧
      Shown ⟨[47],[]⟩ ⟨false,true⟩ 0 [before1970]) := by
  refine ⟨by decide,fun h => ?_⟩
  exact absurd ((fits_iff _ _ _ _).mp h.1) (by decide)

end Nginx.AutoindexPage
