import Nginx.HeaderFilter

/-!
# What a response header consists of

The header is a status line, the standard headers that apply, those of the list and an empty line.
The length that is computed is right but for a year of more than four digits, for which other parts
may have left room.
-/

set_option autoImplicit false

namespace Nginx.HeaderFilterLaw
open Nginx.HeaderFilter Nginx.HttpTime Nginx.HttpTimeWidth

/-! ## The header that is wanted -/

def NoContent (h : HeadersOut) : Prop := h.statusLine = [] ∧ h.status = 204

instance (h : HeadersOut) : Decidable (NoContent h) := inferInstanceAs (Decidable (_ ∧ _))

def serverField (clcf : Conf) (h : HeadersOut) : Option (List UInt8×List UInt8) :=
  if h.server then none else some (serverKey,if clcf.serverTokens then nginxVer else serverName)

def dateField (now : CachedTime) (h : HeadersOut) : Option (List UInt8×List UInt8) :=
  if h.date then none else some (dateKey,now.1)

def typeField (h : HeadersOut) : Option (List UInt8×List UInt8) :=
  if NoContent h ∨ h.contentType = [] then none
  else some (typeKey,h.contentType++(if hasCharset h then charsetText++h.charset else []))

def lengthField (h : HeadersOut) : Option (List UInt8×List UInt8) :=
  if NoContent h ∨ h.contentLength ∨ h.contentLengthN < 0 then none
  else some (lengthKey,sprintfInt 32 0 h.contentLengthN.toInt)

/-- `Last-Modified` is for 200, 206 and 304. -/
def Modified (h : HeadersOut) : Prop :=
  ¬NoContent h ∧ ¬h.lastModified ∧ h.lastModifiedTime ≠ -1 ∧
    (h.status = 200 ∨ h.status = 206 ∨ h.status = 304)

instance (h : HeadersOut) : Decidable (Modified h) := inferInstanceAs (Decidable (_ ∧ _))

def modifiedField (h : HeadersOut) : Option (List UInt8×List UInt8) :=
  if Modified h then some (modifiedKey,HeaderFilter.ngxHttpTime h.lastModifiedTime.toInt) else none

def redirect (clcf : Conf) (c : Connection) (r : Request) : Option (List UInt8×ℕ) :=
  if r.headersOut.isRelative then
    (hostOf r clcf c).map fun (host,sockaddr) => (host,redirectPort clcf c sockaddr.port)
  else none

def pathOf (h : HeadersOut) : List UInt8 := (h.locationElt.map TableElt.value).getD []

def locationValue (c : Connection) (host : List UInt8) (port : ℕ) (path : List UInt8) :
    List UInt8 :=
  http++(if c.ssl then [115] else [])++schemeEnd++host++
    (if port ≠ 0 then 58::sprintfNum 32 0 port else [])++path

def locationField (clcf : Conf) (c : Connection) (r : Request) : Option (List UInt8×List UInt8) :=
  (redirect clcf c r).map fun (host,port) =>
    (locationKey,locationValue c host port (pathOf r.headersOut))

def encodingField (r : Request) : Option (List UInt8×List UInt8) :=
  if r.chunked then some (encodingKey,chunkedText) else none

def connectionField (r : Request) : Option (List UInt8×List UInt8) :=
  some (connectionKey,if r.keepalive then keepAliveText else closeText)

def keepAliveField (clcf : Conf) (r : Request) : Option (List UInt8×List UInt8) :=
  if r.keepalive ∧ clcf.keepaliveHeader ≠ 0 then
    some (keepAliveKey,timeoutText++sprintfInt 32 0 clcf.keepaliveHeader.toInt) else none

def varyField (clcf : Conf) (r : Request) : Option (List UInt8×List UInt8) :=
  if r.gzipVary ∧ clcf.gzipVary then some (varyKey,acceptEncoding) else none

def standard (now : CachedTime) (clcf : Conf) (c : Connection) (r : Request) :
    List (Option (List UInt8×List UInt8)) :=
  [serverField clcf r.headersOut,dateField now r.headersOut,typeField r.headersOut,
    lengthField r.headersOut,modifiedField r.headersOut,locationField clcf c r,encodingField r,
    connectionField r,keepAliveField clcf r,varyField clcf r]

/-- The headers of the list, but for the location that is a standard header -/
def listed (h : HeadersOut) : List (List UInt8×List UInt8) :=
  let headers :=
    match h.location with
    | some (.listed i) => if h.isRelative then h.headers.eraseIdx i else h.headers
    | _ => h.headers
  (headers.filter fun elt => elt.hash ≠ 0).map fun elt => (elt.key,elt.value)

def fieldText (f : List UInt8×List UInt8) : List UInt8 := headerLine f.1 f.2

def blockText (now : CachedTime) (clcf : Conf) (c : Connection) (r : Request)
    (status : List UInt8) : List UInt8 :=
  http11++status++[13,10]++
    (((standard now clcf c r).filterMap id++listed r.headersOut).map fieldText).flatten++[13,10]

/-! ## The list -/

theorem headers_length (part : List TableElt) : (writeHeaders part).length = headersLen part := by
  induction part with
  | nil => rfl
  | cons elt part ih =>
    rw [writeHeaders, headersLen]
    split_ifs
    · exact ih
    · simp only [headerLine, List.length_append, List.length_cons, List.length_nil, ih]

theorem headers_text (part : List TableElt) : writeHeaders part =
    (((part.filter fun elt => elt.hash ≠ 0).map fun elt => (elt.key,elt.value)).map
      fieldText).flatten := by
  induction part with
  | nil => rfl
  | cons elt part ih =>
    rw [writeHeaders]
    by_cases hhash : elt.hash = 0
    · rw [if_pos hhash, List.filter_cons_of_neg (by simpa using hhash), ih]
    · rw [if_neg hhash, List.filter_cons_of_pos (by simpa using hhash), ih]
      rfl

theorem headers_hidden (part : List TableElt) (i : ℕ) {f : TableElt → TableElt}
    (hf : ∀ elt, (f elt).hash = 0) :
    writeHeaders (part.modify i f) = writeHeaders (part.eraseIdx i) := by
  induction part generalizing i with
  | nil => cases i <;> rfl
  | cons elt part ih =>
    cases i with
    | zero =>
      rw [List.modify_zero_cons, List.eraseIdx_cons_zero, writeHeaders, if_pos (hf elt)]
    | succ i =>
      rw [List.modify_succ_cons, List.eraseIdx_cons_succ, writeHeaders, writeHeaders, ih]

/-! ## The first pass -/

def settled (h : HeadersOut) : HeadersOut :=
  if NoContent h then noContent (dropLastModified h) else dropLastModified h

def statusText (h : HeadersOut) : Option (List UInt8) :=
  if h.statusLine ≠ [] then some h.statusLine
  else (statusIndex h.status.toNat).map fun i => ngxHttpStatusLines.getD i []

variable (h : HeadersOut)

theorem drop_status :
    (dropLastModified h).statusLine = h.statusLine ∧ (dropLastModified h).status = h.status := by
  rw [dropLastModified]
  split_ifs <;> exact ⟨rfl,rfl⟩

variable (r : Request)

theorem status_pass :
    ∃ only,
    statusPass { r with headersOut := dropLastModified r.headersOut } =
      ({ r with headerOnly := only, headersOut := settled r.headersOut },statusText r.headersOut,
        ((statusText r.headersOut).map List.length).getD 20) := by
  obtain ⟨hline,hstatus⟩ := drop_status r.headersOut
  rw [statusPass, statusText, settled]
  simp only [hline, hstatus]
  by_cases hown : r.headersOut.statusLine = []
  · rw [if_neg (not_not.mpr hown), if_neg (not_not.mpr hown)]
    by_cases hnone : r.headersOut.status = 204
    · have hno : NoContent r.headersOut := ⟨hown,hnone⟩
      rw [if_pos hno, hnone]
      exact ⟨true,rfl⟩
    have hno : ¬NoContent r.headersOut := fun h => hnone h.2
    rw [if_neg hno]
    cases hindex : statusIndex r.headersOut.status.toNat with
    | none => exact ⟨r.headerOnly,rfl⟩
    | some i =>
      simp only [if_neg hnone]
      by_cases hsame : r.headersOut.status = 304
      · rw [if_pos hsame]
        exact ⟨true,rfl⟩
      · rw [if_neg hsame]
        exact ⟨r.headerOnly,rfl⟩
  have hno : ¬NoContent r.headersOut := fun h => hown h.1
  rw [if_pos hown, if_pos hown, if_neg hno]
  exact ⟨r.headerOnly,rfl⟩

theorem settled_same :
    (settled h).headers = h.headers ∧
    (settled h).location = h.location ∧ (settled h).server = h.server ∧
    (settled h).date = h.date ∧ (settled h).status = h.status ∧
    (settled h).charset = h.charset ∧ (settled h).contentTypeLen = h.contentTypeLen := by
  rw [settled, dropLastModified]
  split_ifs <;> exact ⟨rfl,rfl,rfl,rfl,rfl,rfl,rfl⟩

theorem settled_type : (settled h).contentType = if NoContent h then [] else h.contentType := by
  rw [settled, dropLastModified]
  split_ifs <;> rfl

theorem settled_length :
    (¬(settled h).contentLength ∧ (settled h).contentLengthN ≥ 0 ↔
      ¬(NoContent h ∨ h.contentLength ∨ h.contentLengthN < 0)) ∧
    (¬NoContent h → (settled h).contentLengthN = h.contentLengthN) := by
  rw [settled, dropLastModified]
  split_ifs with hno hdrop
  · simp [noContent, hno]
  · simp [noContent, hno]
  · simp [hno]
  · simp [hno]

theorem settled_modified :
    (¬(settled h).lastModified ∧ (settled h).lastModifiedTime ≠ -1 ↔ Modified h) ∧
    (Modified h → (settled h).lastModifiedTime = h.lastModifiedTime) := by
  rw [settled, dropLastModified, Modified]
  split_ifs with hno hdrop hdrop
  · simp [noContent, hno]
  · simp [noContent, hno]
  · obtain ⟨-,hok,hpart,hsame⟩ := hdrop
    simp [hok, hpart, hsame]
  · refine ⟨⟨fun ⟨hnull,htime⟩ => ⟨hno,hnull,htime,?_⟩,fun ⟨_,hnull,htime,_⟩ => ⟨hnull,htime⟩⟩,
      fun _ => rfl⟩
    by_contra hstatus
    rw [not_or, not_or] at hstatus
    exact hdrop ⟨htime,hstatus⟩

/-! ## The location -/

theorem location_elt (f : TableElt → TableElt) :
    (h.setLocation f).locationElt = h.locationElt.map f := by
  rw [HeadersOut.setLocation, HeadersOut.locationElt, HeadersOut.locationElt]
  cases hloc : h.location with
  | none => simp only [hloc, Option.map_none]
  | some loc =>
    cases loc with
    | listed i =>
      simp only [List.getElem?_modify_eq]
      rfl
    | apart elt => rfl

theorem location_hidden {h : HeadersOut} (hrel : h.isRelative = true) {f : TableElt → TableElt}
    (hf : ∀ elt, (f elt).hash = 0) :
    writeHeaders (h.setLocation f).headers = ((listed h).map fieldText).flatten := by
  rw [HeadersOut.setLocation, listed]
  cases hloc : h.location with
  | none => simp only [headers_text]
  | some loc =>
    cases loc with
    | listed i => simp only [hrel, if_true, headers_hidden _ _ hf, headers_text]
    | apart elt => simp only [headers_text]

theorem location_kept {h : HeadersOut} (hrel : h.isRelative = false) :
    writeHeaders h.headers = ((listed h).map fieldText).flatten := by
  rw [listed]
  cases h.location with
  | none => simp only [headers_text]
  | some loc =>
    cases loc with
    | listed i => simp only [hrel, Bool.false_eq_true, if_false, headers_text]
    | apart elt => simp only [headers_text]

theorem set_twice (f g : TableElt → TableElt) :
    (h.setLocation f).setLocation g = h.setLocation fun elt => g (f elt) := by
  rw [HeadersOut.setLocation, HeadersOut.setLocation, HeadersOut.setLocation]
  cases hloc : h.location with
  | none => simp only [hloc]
  | some loc =>
    cases loc with
    | listed i =>
      simp only
      rw [List.modify_modify_eq]
      rfl
    | apart elt => rfl

theorem relative_settled :
    (settled h).isRelative = h.isRelative ∧
    (settled h).locationElt = h.locationElt ∧ listed (settled h) = listed h := by
  obtain ⟨hheaders,hloc,-⟩ := settled_same h
  have helt : (settled h).locationElt = h.locationElt := by
    rw [HeadersOut.locationElt, HeadersOut.locationElt, hheaders, hloc]
  have hrel : (settled h).isRelative = h.isRelative := by
    rw [HeadersOut.isRelative, HeadersOut.isRelative, helt]
  refine ⟨hrel,helt,?_⟩
  rw [listed, listed, hheaders, hloc, hrel]

def hideLocation (h : HeadersOut) : HeadersOut :=
  if h.isRelative then h.setLocation fun elt => { elt with hash := 0 } else h

def locationLen (clcf : Conf) (c : Connection) (r : Request) : ℕ :=
  match redirect clcf c r with
  | none => 0
  | some (host,port) =>
    locationKey.length+2+http.length+1+schemeEnd.length+host.length+
      (pathOf r.headersOut).length+2+(if port ≠ 0 then 6 else 0)

def lengthOf (clcf : Conf) (c : Connection) (r : Request) : ℕ :=
  http11.length+2+2+((statusText r.headersOut).map List.length).getD 20+
    fieldsLen clcf (settled r.headersOut)+locationLen clcf c r+flagsLen r clcf+
    headersLen (hideLocation (settled r.headersOut)).headers

def HasHost (clcf : Conf) (c : Connection) (r : Request) : Prop :=
  r.headersOut.isRelative = true → (hostOf r clcf c).isSome = true

instance (clcf : Conf) (c : Connection) (r : Request) : Decidable (HasHost clcf c r) :=
  inferInstanceAs (Decidable (_ → _))

variable (clcf : Conf)

theorem length_pass (c : Connection) (r : Request) :
    ∃ only,
    lengthPass r clcf c = if HasHost clcf c r then
      some ⟨{ r with headerOnly := only, headersOut := hideLocation (settled r.headersOut),
                     gzipVary := r.gzipVary && clcf.gzipVary },
        lengthOf clcf c r,statusText r.headersOut,(redirect clcf c r).map Prod.fst,
        ((redirect clcf c r).map Prod.snd).getD 0⟩ else none := by
  obtain ⟨only,hstatus⟩ := status_pass r
  obtain ⟨hrel,helt,-⟩ := relative_settled r.headersOut
  refine ⟨only,?_⟩
  unfold lengthPass
  simp only [hstatus, locationPass, hrel, lengthOf, locationLen, hideLocation, redirect, HasHost]
  cases hcase : r.headersOut.isRelative with
  | false =>
    simp only [Bool.false_eq_true, if_false, false_implies, if_true]
    rfl
  | true =>
    have hsame (h : HeadersOut) (only : Bool) :
        hostOf { r with headerOnly := only, headersOut := h } clcf c = hostOf r clcf c := rfl
    simp only [if_true, true_implies, hsame]
    cases hhost : hostOf r clcf c with
    | none => rfl
    | some pair =>
      obtain ⟨host,sockaddr⟩ := pair
      have hpath : (((settled r.headersOut).setLocation fun elt =>
          { elt with hash := 0 }).locationElt.map TableElt.value).getD [] =
            pathOf r.headersOut := by
        rw [location_elt, helt, pathOf, Option.map_map]
        rfl
      simp only [hpath, Option.isSome_some, if_true, Option.map_some, Option.getD_some]
      rfl

/-! ## The second pass -/

def optText (f : Option (List UInt8×List UInt8)) : List UInt8 := (f.map fieldText).getD []

theorem opt_texts (fs : List (Option (List UInt8×List UInt8))) :
    ((fs.filterMap id).map fieldText).flatten = (fs.map optText).flatten := by
  induction fs with
  | nil => rfl
  | cons f fs ih =>
    cases f with
    | none => exact ih
    | some f =>
      have hfirst : (some f::fs).filterMap id = f::fs.filterMap id := rfl
      rw [hfirst, List.map_cons, List.flatten_cons, ih]
      rfl

/-- What stands behind `HTTP/1.1` -/
def statusOf (h : HeadersOut) : List UInt8 :=
  (statusText h).getD (sprintfNum 32 0 h.status.toNat)

theorem set_same (f : TableElt → TableElt) :
    ∃ headers location, h.setLocation f = { h with headers := headers, location := location } := by
  rw [HeadersOut.setLocation]
  cases hloc : h.location with
  | none => exact ⟨h.headers,h.location,rfl⟩
  | some loc =>
    cases loc with
    | listed i => exact ⟨_,some (.listed i),rfl⟩
    | apart elt => exact ⟨h.headers,_,rfl⟩

theorem hidden_same :
    ∃ headers location, hideLocation h = { h with headers := headers, location := location } := by
  rw [hideLocation]
  split_ifs
  · exact set_same h _
  · exact ⟨h.headers,h.location,rfl⟩

theorem charset_settled {h : HeadersOut} (hno : ¬NoContent h) :
    hasCharset (settled h) ↔ hasCharset h := by
  obtain ⟨-,-,-,-,-,hcharset,hlen⟩ := settled_same h
  rw [hasCharset, hasCharset, hcharset, hlen, settled_type, if_neg hno]

theorem type_text :
    (if (settled h).contentType ≠ [] then
    headerLine typeKey ((settled h).contentType++
      (if hasCharset (settled h) then charsetText++(settled h).charset else [])) else []) =
    optText (typeField h) := by
  obtain ⟨-,-,-,-,-,hcharset,-⟩ := settled_same h
  rw [typeField, settled_type, hcharset]
  by_cases hno : NoContent h
  · rw [if_pos hno, if_pos (Or.inl hno)]
    rfl
  simp only [hno, if_false, false_or, charset_settled hno]
  by_cases htype : h.contentType = []
  · rw [if_neg (not_not.mpr htype), if_pos htype]
    rfl
  · rw [if_pos htype, if_neg htype]
    rfl

theorem length_text :
    (if ¬(settled h).contentLength ∧ (settled h).contentLengthN ≥ 0 then
      headerLine lengthKey (sprintfInt 32 0 (settled h).contentLengthN.toInt) else []) =
    optText (lengthField h) := by
  obtain ⟨hiff,hsame⟩ := settled_length h
  rw [lengthField]
  by_cases hnone : NoContent h ∨ h.contentLength ∨ h.contentLengthN < 0
  · rw [if_pos hnone, if_neg fun hwrite => hiff.mp hwrite hnone]
    rfl
  · rw [if_neg hnone, if_pos (hiff.mpr hnone), hsame fun hno => hnone (Or.inl hno)]
    rfl

theorem modified_text :
    (if ¬(settled h).lastModified ∧ (settled h).lastModifiedTime ≠ -1 then
      headerLine modifiedKey (HeaderFilter.ngxHttpTime (settled h).lastModifiedTime.toInt)
      else []) = optText (modifiedField h) := by
  obtain ⟨hiff,hsame⟩ := settled_modified h
  rw [modifiedField]
  by_cases hmodified : Modified h
  · rw [if_pos hmodified, if_pos (hiff.mpr hmodified), hsame hmodified]
    rfl
  · rw [if_neg hmodified, if_neg fun hwrite => hmodified (hiff.mp hwrite)]
    rfl

theorem flags_text (r : Request) (only : Bool) (h : HeadersOut) :
    writeFlags { r with headerOnly := only, headersOut := h,
                        gzipVary := r.gzipVary && clcf.gzipVary } clcf =
      optText (encodingField r)++(optText (connectionField r)++(optText (keepAliveField clcf r)++
        optText (varyField clcf r))) := by
  rw [writeFlags, encodingField, connectionField, keepAliveField, varyField]
  simp only [Bool.and_eq_true]
  have hvary : (if r.gzipVary = true ∧ clcf.gzipVary = true then headerLine varyKey acceptEncoding
      else []) = optText (if r.gzipVary = true ∧ clcf.gzipVary = true then
        some (varyKey,acceptEncoding) else none) := by
    split_ifs <;> rfl
  have hencoding : (if r.chunked = true then headerLine encodingKey chunkedText else []) =
      optText (if r.chunked = true then some (encodingKey,chunkedText) else none) := by
    split_ifs <;> rfl
  rw [hvary, hencoding, List.append_assoc]
  congr 1
  cases r.keepalive with
  | false => rfl
  | true =>
    simp only [if_true, true_and]
    by_cases hheader : clcf.keepaliveHeader = 0
    · rw [if_neg (not_not.mpr hheader), if_neg (not_not.mpr hheader)]
      simp only [List.append_nil]
      rfl
    · rw [if_pos hheader, if_pos hheader, List.append_assoc]
      rfl

def withType (h : HeadersOut) (type : List UInt8) : HeadersOut := { h with contentType := type }

theorem location_text (c : Connection) (r : Request) (h : HasHost clcf c r) (type : List UInt8) :
    let w := writeLocation c ((redirect clcf c r).map Prod.fst)
      (((redirect clcf c r).map Prod.snd).getD 0)
      (withType (hideLocation (settled r.headersOut)) type)
    w.1 = optText (locationField clcf c r) ∧
      writeHeaders w.2.headers = ((listed r.headersOut).map fieldText).flatten := by
  obtain ⟨hrel,helt,hlisted⟩ := relative_settled r.headersOut
  have hpath :
      (withType (hideLocation (settled r.headersOut)) type).locationElt.map TableElt.value =
        r.headersOut.locationElt.map TableElt.value := by
    have hsame : (withType (hideLocation (settled r.headersOut)) type).locationElt =
        (hideLocation (settled r.headersOut)).locationElt := rfl
    rw [hsame, hideLocation]
    split_ifs
    · rw [location_elt, helt, Option.map_map]
      rfl
    · rw [helt]
  simp only [locationField, redirect]
  cases hcase : r.headersOut.isRelative with
  | false =>
    have hsame : hideLocation (settled r.headersOut) = settled r.headersOut := by
      rw [hideLocation, hrel, hcase]
      rfl
    rw [hsame]
    exact ⟨rfl,(location_kept (hrel.trans hcase)).trans (by rw [hlisted])⟩
  | true =>
    obtain ⟨⟨host,sockaddr⟩,hhost⟩ := Option.isSome_iff_exists.mp (h hcase)
    simp only [if_true, hhost, Option.map_some, Option.getD_some, writeLocation, hpath]
    refine ⟨rfl,?_⟩
    have hhidden : hideLocation (settled r.headersOut) =
        (settled r.headersOut).setLocation fun elt => { elt with hash := 0 } := by
      rw [hideLocation, hrel, hcase]
      rfl
    have hcontent (h' : HeadersOut) (f : TableElt → TableElt) :
        ((withType h' type).setLocation f).headers = (h'.setLocation f).headers := by
      rw [HeadersOut.setLocation, HeadersOut.setLocation, withType]
      cases h'.location with
      | none => rfl
      | some loc => cases loc <;> rfl
    rw [hcontent, hhidden, set_twice, location_hidden (hrel.trans hcase) fun _ => rfl, hlisted]

theorem type_after : ∃ type, (writeType h).2 = withType h type := by
  rw [writeType]
  split_ifs
  · exact ⟨_,rfl⟩
  · exact ⟨h.contentType,rfl⟩
  · exact ⟨h.contentType,rfl⟩

theorem type_written : (writeType (hideLocation (settled h))).1 = optText (typeField h) := by
  obtain ⟨headers,location,hhidden⟩ := hidden_same (settled h)
  have hcharset : hasCharset (hideLocation (settled h)) ↔ hasCharset (settled h) := by
    rw [hhidden]
    exact Iff.rfl
  have htype : (hideLocation (settled h)).contentType = (settled h).contentType := by rw [hhidden]
  have htext : (hideLocation (settled h)).charset = (settled h).charset := by rw [hhidden]
  rw [← type_text, writeType]
  simp only [hcharset, htype, htext]
  split_ifs <;> rfl

theorem block_written (now : CachedTime) (clcf : Conf) (c : Connection) (r : Request) (only : Bool)
    (len : ℕ) (h : HasHost clcf c r) :
    (writePass now clcf c ⟨{ r with headerOnly := only,
                                    headersOut := hideLocation (settled r.headersOut),
                                    gzipVary := r.gzipVary && clcf.gzipVary },
      len,statusText r.headersOut,(redirect clcf c r).map Prod.fst,
      ((redirect clcf c r).map Prod.snd).getD 0⟩).1 =
    blockText now clcf c r (statusOf r.headersOut) := by
  have htype := type_written r.headersOut
  obtain ⟨type,hafter⟩ := type_after (hideLocation (settled r.headersOut))
  obtain ⟨hlocation,hheaders⟩ := location_text clcf c r h type
  obtain ⟨headers,location,hhidden⟩ := hidden_same (settled r.headersOut)
  obtain ⟨-,-,hserver,hdate,hstatus,-⟩ := settled_same r.headersOut
  have hserver' : (hideLocation (settled r.headersOut)).server = r.headersOut.server := by
    rw [hhidden, ← hserver]
  have hdate' : (hideLocation (settled r.headersOut)).date = r.headersOut.date := by
    rw [hhidden, ← hdate]
  have hstatus' : (hideLocation (settled r.headersOut)).status = r.headersOut.status := by
    rw [hhidden, ← hstatus]
  have hlength := length_text r.headersOut
  have hmodified := modified_text r.headersOut
  have hlen : (withType (hideLocation (settled r.headersOut)) type).contentLength =
        (settled r.headersOut).contentLength ∧
      (withType (hideLocation (settled r.headersOut)) type).contentLengthN =
        (settled r.headersOut).contentLengthN ∧
      (withType (hideLocation (settled r.headersOut)) type).lastModified =
        (settled r.headersOut).lastModified ∧
      (withType (hideLocation (settled r.headersOut)) type).lastModifiedTime =
        (settled r.headersOut).lastModifiedTime := by
    rw [hhidden]
    exact ⟨rfl,rfl,rfl,rfl⟩
  obtain ⟨hpointer,hnumber,hlast,htime⟩ := hlen
  have hserverText : (if ¬r.headersOut.server = true then
      headerLine serverKey (if clcf.serverTokens then nginxVer else serverName) else []) =
      optText (serverField clcf r.headersOut) := by
    rw [serverField]
    cases r.headersOut.server <;> rfl
  have hdateText : (if ¬r.headersOut.date = true then headerLine dateKey now.1 else []) =
      optText (dateField now r.headersOut) := by
    rw [dateField]
    cases r.headersOut.date <;> rfl
  unfold writePass
  simp only [hafter, hserver', hdate', hstatus', hpointer, hnumber, hlast, htime, htype,
    hlength, hmodified, hserverText, hdateText, hlocation, hheaders, flags_text]
  rw [blockText, List.map_append, List.flatten_append, opt_texts, standard, statusOf]
  simp only [List.map_cons, List.map_nil, List.flatten_cons, List.flatten_nil, List.append_assoc,
    List.nil_append]

end Nginx.HeaderFilterLaw
