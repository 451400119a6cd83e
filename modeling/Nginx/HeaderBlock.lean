import Nginx.HeaderFilterLaw

/-!
# Whether the header fits and has a status

The length and the text are compared part by part. A year may take the bytes that other parts leave;
and of the statuses in the table, some have no line.
-/

set_option autoImplicit false

namespace Nginx.HeaderBlock
open Nginx.HeaderFilter Nginx.HeaderFilterLaw Nginx.HttpTime Nginx.HttpTimeRound
open Nginx.HttpTimeWidth

/-! ## Lengths -/

theorem line_length (key value : List UInt8) :
    (headerLine key value).length = key.length+2+value.length+2 := by
  simp only [headerLine, List.length_append, List.length_cons, List.length_nil]

def room (width : ℕ) (f : Option (List UInt8×List UInt8)) : ℕ :=
  (f.map fun f => width-f.2.length).getD 0

def statusRoom (h : HeadersOut) : ℕ :=
  match statusText h with
  | some _ => 0
  | none => 20-(sprintfNum 32 0 h.status.toNat).length

/-- One byte is for the `s` of `https`, five are for the port. -/
def locationRoom (clcf : Conf) (c : Connection) (r : Request) : ℕ :=
  match redirect clcf c r with
  | none => 0
  | some (_,port) =>
    (if c.ssl then 0 else 1)+(if port ≠ 0 then 5-(sprintfNum 32 0 port).length else 0)

/-- What is counted and not used: of a number in the status line, the length, the location and the
timeout, and one byte as `closed` is counted for `close` -/
def spare (clcf : Conf) (c : Connection) (r : Request) : ℕ :=
  statusRoom r.headersOut+room 20 (lengthField r.headersOut)+locationRoom clcf c r+
    (if r.keepalive then 0 else 1)+room 28 (keepAliveField clcf r)

def yearText (h : HeadersOut) : List UInt8 :=
  sprintfInt 32 4 (yearInt (ngxGmtime h.lastModifiedTime.toInt).year)

def yearExtra (h : HeadersOut) : ℕ := if Modified h then (yearText h).length-4 else 0

variable (h : HeadersOut)

theorem status_digits : (sprintfNum 32 0 h.status.toNat).length ≤ 20 := by
  have hlt : h.status.toNat < 10^20 := by
    have hword := h.status.toNat_lt
    omega
  exact num_length (w := 0) (by decide) hlt

theorem status_length :
    (statusOf h).length+statusRoom h = ((statusText h).map List.length).getD 20 := by
  have hle := status_digits h
  rw [statusOf, statusRoom]
  cases statusText h with
  | some line => rfl
  | none => exact Nat.add_sub_cancel' hle

theorem year_width : 4 ≤ (yearText h).length := by
  have hnum (n : ℕ) : 4 ≤ (sprintfNum 32 4 n).length := by
    simp only [sprintfNum, List.length_append, List.length_replicate]
    omega
  have hyear := hnum (yearInt (ngxGmtime h.lastModifiedTime.toInt).year).natAbs
  rw [yearText, sprintfInt]
  split_ifs
  · rw [List.length_cons]
    exact hyear.trans (Nat.le_succ _)
  · exact hyear

theorem time_length :
    (HeaderFilter.ngxHttpTime h.lastModifiedTime.toInt).length = 25+(yearText h).length := by
  obtain ⟨hmday,hmon,hhour,hmin,hsec,hwday⟩ := gmtime_clock h.lastModifiedTime.toInt
  unfold HeaderFilter.ngxHttpTime
  rw [yearText]
  simp only [List.length_append, List.length_cons, List.length_nil, sprintf_two hmday,
    sprintf_two hhour, sprintf_two hmin, sprintf_two hsec, HttpTimeLaw.two, month_name hmon,
    week_day hwday]
  omega

theorem opt_length (f : Option (List UInt8×List UInt8)) : (optText f).length =
    match f with
    | none => 0
    | some (key,value) => key.length+2+value.length+2 := by
  cases f with
  | none => rfl
  | some f => exact line_length f.1 f.2

theorem part_length {P : Prop} [Decidable P] (key value : List UInt8) :
    (if P then key.length+2+value.length+2 else 0) =
      (if P then headerLine key value else []).length := by
  split_ifs
  · exact (line_length key value).symm
  · rfl

theorem length_width {h : HeadersOut} {f : List UInt8×List UInt8}
    (hf : lengthField h = some f) : f.1 = lengthKey ∧ f.2.length ≤ 20 := by
  rw [lengthField] at hf
  split_ifs at hf
  obtain rfl := Option.some.inj hf
  exact ⟨rfl,int_length (by decide) h.contentLengthN.le_toInt h.contentLengthN.toInt_lt.le⟩

variable (clcf : Conf) (now : CachedTime)

theorem fields_length (h : HeadersOut) :
    (optText (serverField clcf h)).length+(optText (dateField now h)).length+
      (optText (typeField h)).length+(optText (lengthField h)).length+
      (optText (modifiedField h)).length+room 20 (lengthField h) =
    fieldsLen clcf (settled h)+yearExtra h := by
  obtain ⟨-,-,hserver,hdate,-⟩ := settled_same h
  have hserverLen : (if ¬(settled h).server = true then serverKey.length+2+
      (if clcf.serverTokens = true then nginxVer.length else serverName.length)+2 else 0) =
      (optText (serverField clcf h)).length := by
    rw [hserver, serverField, opt_length]
    cases h.server <;> cases clcf.serverTokens <;> rfl
  have hdateLen : (if ¬(settled h).date = true then dateKey.length+2+29+2 else 0) =
      (optText (dateField now h)).length := by
    rw [hdate, dateField, opt_length]
    cases h.date with
    | true => rfl
    | false => simp only [Bool.false_eq_true, not_false_eq_true, if_true, if_false, now.2]
  have htypeLen : (if (settled h).contentType ≠ [] then typeKey.length+2+
      (settled h).contentType.length+2+(if hasCharset (settled h) then
        charsetText.length+(settled h).charset.length else 0) else 0) =
      (optText (typeField h)).length := by
    rw [← type_text, ← part_length]
    split_ifs <;> simp only [List.length_append, List.length_nil] <;> omega
  have hlengthLen : (if ¬(settled h).contentLength = true ∧ (settled h).contentLengthN ≥ 0 then
      lengthKey.length+2+20+2 else 0) =
      (optText (lengthField h)).length+room 20 (lengthField h) := by
    obtain ⟨hiff,-⟩ := settled_length h
    by_cases hnone : NoContent h ∨ h.contentLength ∨ h.contentLengthN < 0
    · rw [if_neg fun hwrite => hiff.mp hwrite hnone, lengthField, if_pos hnone]
      rfl
    have hfield : lengthField h = some (lengthKey,sprintfInt 32 0 h.contentLengthN.toInt) := by
      rw [lengthField, if_neg hnone]
    have hwidth := (length_width hfield).2
    rw [if_pos (hiff.mpr hnone), hfield, opt_length, room]
    simp only [Option.map_some, Option.getD_some] at hwidth ⊢
    omega
  have hmodifiedLen : (if ¬(settled h).lastModified = true ∧ (settled h).lastModifiedTime ≠ -1 then
      modifiedKey.length+2+29+2 else 0)+yearExtra h = (optText (modifiedField h)).length := by
    obtain ⟨hiff,-⟩ := settled_modified h
    have hyear := year_width h
    rw [yearExtra, modifiedField, opt_length]
    by_cases hmodified : Modified h
    · rw [if_pos (hiff.mpr hmodified), if_pos hmodified, if_pos hmodified]
      simp only [time_length]
      omega
    · rw [if_neg fun hwrite => hmodified (hiff.mp hwrite), if_neg hmodified, if_neg hmodified]
  rw [fieldsLen, hserverLen, hdateLen, htypeLen, hlengthLen]
  omega

variable (c : Connection)

theorem port_bound (sockaddr : Sockaddr) : redirectPort clcf c sockaddr.port < 10^5 := by
  have hport : sockaddr.port < 2^16 := by
    cases sockaddr with
    | inet port => exact port.toNat_lt
    | inet6 port => exact port.toNat_lt
    | unix => exact Nat.two_pow_pos 16
  rw [redirectPort]
  split_ifs <;> omega

variable (r : Request)

theorem location_length :
    (optText (locationField clcf c r)).length+locationRoom clcf c r = locationLen clcf c r := by
  rw [locationField, locationRoom, locationLen]
  cases hredirect : redirect clcf c r with
  | none => rfl
  | some pair =>
    obtain ⟨host,port⟩ := pair
    have hport : port < 10^5 := by
      rw [redirect] at hredirect
      split_ifs at hredirect
      obtain ⟨⟨host',sockaddr⟩,-,heq⟩ := Option.map_eq_some_iff.mp hredirect
      obtain ⟨-,rfl⟩ := Prod.mk.inj heq
      exact port_bound clcf c sockaddr
    have hdigits := num_length (z := 32) (w := 0) (by decide) hport
    simp only [Option.map_some, opt_length, locationValue, List.length_append]
    cases c.ssl <;> by_cases hzero : port = 0
    · simp only [hzero, Bool.false_eq_true, ne_eq, not_true_eq_false, if_false, List.length_nil]
      omega
    · simp only [hzero, Bool.false_eq_true, ne_eq, not_false_eq_true, if_true, if_false,
        List.length_nil, List.length_cons]
      omega
    · simp only [hzero, ne_eq, not_true_eq_false, if_true, if_false, List.length_nil,
        List.length_cons]
      omega
    · simp only [hzero, ne_eq, not_false_eq_true, if_true, List.length_nil, List.length_cons]
      omega

theorem flags_length :
    (optText (encodingField r)).length+(optText (connectionField r)).length+
      (optText (keepAliveField clcf r)).length+(optText (varyField clcf r)).length+
      (if r.keepalive then 0 else 1)+room 28 (keepAliveField clcf r) = flagsLen r clcf := by
  have hencoding : (optText (encodingField r)).length =
      if r.chunked then encodingKey.length+2+chunkedText.length+2 else 0 := by
    rw [encodingField]
    cases r.chunked <;> rfl
  have hvary : (optText (varyField clcf r)).length =
      if r.gzipVary ∧ clcf.gzipVary then varyKey.length+2+acceptEncoding.length+2 else 0 := by
    rw [varyField]
    split_ifs <;> rfl
  have hconnection : (optText (connectionField r)).length+(if r.keepalive then 0 else 1) =
      connectionKey.length+2+
        (if r.keepalive then keepAliveText.length else closedText.length)+2 := by
    rw [connectionField]
    cases r.keepalive <;> rfl
  have htimeout : (optText (keepAliveField clcf r)).length+room 28 (keepAliveField clcf r) =
      if r.keepalive ∧ clcf.keepaliveHeader ≠ 0 then
        keepAliveKey.length+2+timeoutText.length+20+2 else 0 := by
    have hwidth := int_length (w := 0) (by decide) clcf.keepaliveHeader.le_toInt
      clcf.keepaliveHeader.toInt_lt.le
    have height : timeoutText.length = 8 := rfl
    rw [keepAliveField, opt_length, room]
    split_ifs
    · simp only [Option.map_some, Option.getD_some, List.length_append]
      omega
    · rfl
  rw [flagsLen]
  cases hkeep : r.keepalive with
  | false =>
    simp only [hkeep, Bool.false_eq_true, if_false, false_and] at hconnection htimeout ⊢
    omega
  | true =>
    simp only [hkeep, if_true, true_and] at hconnection htimeout ⊢
    omega

theorem list_length :
    ((listed h).map fieldText).flatten.length = headersLen (hideLocation (settled h)).headers := by
  obtain ⟨hrel,-,hlisted⟩ := relative_settled h
  rw [← headers_length, hideLocation, ← hlisted]
  cases hcase : (settled h).isRelative with
  | false => exact congrArg List.length (location_kept hcase).symm
  | true => exact congrArg List.length (location_hidden hcase fun _ => rfl).symm

theorem block_length (clcf : Conf) (c : Connection) (r : Request) :
    (blockText now clcf c r (statusOf r.headersOut)).length+spare clcf c r =
      lengthOf clcf c r+yearExtra r.headersOut := by
  have hstatus := status_length r.headersOut
  have hfields := fields_length clcf now r.headersOut
  have hlocation := location_length clcf c r
  have hflags := flags_length clcf r
  have hlist := list_length r.headersOut
  rw [blockText, lengthOf, spare, List.map_append, List.flatten_append, opt_texts, standard]
  simp only [List.length_append, List.map_cons, List.map_nil, List.flatten_cons, List.flatten_nil,
    List.length_cons, List.length_nil]
  omega

/-! ## The status line -/

def unnamed : List ℕ := [203,205,305,306,407,414,505,506]

def Named (h : HeadersOut) : Prop := h.statusLine ≠ [] ∨ h.status.toNat ∉ unnamed

instance (h : HeadersOut) : Decidable (Named h) := inferInstanceAs (Decidable (_ ∨ _))

def IsStatus (h : HeadersOut) (text : List UInt8) : Prop :=
  if h.statusLine ≠ [] then text = h.statusLine
  else sprintfNum 32 0 h.status.toNat <+: text

def LineOf (status : ℕ) (line : List UInt8) : Prop :=
  sprintfNum 32 0 status <+: line ∧ status ∉ unnamed ∨ line = [] ∧ status ∈ unnamed

instance (status : ℕ) (line : List UInt8) : Decidable (LineOf status line) :=
  inferInstanceAs (Decidable (_ ∨ _))

theorem table_lines :
    (∀ k < 7, LineOf (200+k) (ngxHttpStatusLines.getD k [])) ∧
    (∀ k < 7, LineOf (301+k) (ngxHttpStatusLines.getD (k+7) [])) ∧
    (∀ k < 17, LineOf (400+k) (ngxHttpStatusLines.getD (k+14) [])) ∧
    ∀ k < 8, LineOf (500+k) (ngxHttpStatusLines.getD (k+31) []) := by
  decide

theorem table_line {status i : ℕ} (h : statusIndex status = some i) :
    LineOf status (ngxHttpStatusLines.getD i []) := by
  obtain ⟨h2,h3,h4,h5⟩ := table_lines
  rw [statusIndex] at h
  split_ifs at h with hin hin hin hin
  · obtain rfl := Option.some.inj h
    have hline := h2 (status-200) (by omega)
    rwa [Nat.add_sub_cancel' hin.1] at hline
  · obtain rfl := Option.some.inj h
    have hline := h3 (status-301) (by omega)
    rwa [Nat.add_sub_cancel' hin.1] at hline
  · obtain rfl := Option.some.inj h
    have hline := h4 (status-400) (by omega)
    rwa [Nat.add_sub_cancel' hin.1] at hline
  · obtain rfl := Option.some.inj h
    have hline := h5 (status-500) (by omega)
    rwa [Nat.add_sub_cancel' hin.1] at hline

theorem not_unnamed {status : ℕ} (h : statusIndex status = none) : status ∉ unnamed := by
  intro hin
  have hall : unnamed.all (fun s => (statusIndex s).isSome) = true := by decide
  have hsome := List.all_eq_true.mp hall status hin
  rw [h] at hsome
  exact absurd hsome Bool.false_ne_true

theorem status_named : IsStatus h (statusOf h) ↔ Named h := by
  rw [IsStatus, Named, statusOf, statusText]
  by_cases hown : h.statusLine = []
  · rw [if_neg (not_not.mpr hown), if_neg (not_not.mpr hown)]
    simp only [hown, ne_eq, not_true_eq_false, false_or]
    cases hindex : statusIndex h.status.toNat with
    | none => exact iff_of_true List.prefix_rfl (not_unnamed hindex)
    | some i =>
      simp only [Option.map_some, Option.getD_some]
      obtain ⟨hpre,hin⟩ | ⟨hnil,hin⟩ := table_line hindex
      · exact iff_of_true hpre hin
      · rw [hnil]
        refine iff_of_false (fun hpre => ?_) (not_not.mpr hin)
        have hall : unnamed.all (fun s => !(sprintfNum 32 0 s).isEmpty) = true := by decide
        have hdigits := List.all_eq_true.mp hall _ hin
        rw [List.prefix_nil.mp hpre] at hdigits
        exact absurd hdigits Bool.false_ne_true
  · rw [if_pos hown, if_pos hown]
    exact iff_of_true rfl (Or.inl hown)

/-! ## The law -/

/-- The header is sent by the main request, once, and not in HTTP/0.9. -/
def Sends (clcf : Conf) (c : Connection) (r : Request) : Prop :=
  r.headerSent = false ∧ r.isMain = true ∧ 1000 ≤ r.httpVersion ∧ HasHost clcf c r

instance (clcf : Conf) (c : Connection) (r : Request) : Decidable (Sends clcf c r) :=
  inferInstanceAs (Decidable (_ ∧ _))

def passes (now : CachedTime) (clcf : Conf) (c : Connection) (r : Request) : Result :=
  match lengthPass r clcf c with
  | none => .error
  | some v => .sent v.len (writePass now clcf c v).1 (writePass now clcf c v).2

theorem passes_send (clcf : Conf) (c : Connection) (r : Request) :
    (HasHost clcf c r → ∃ r', passes now clcf c r = .sent (lengthOf clcf c r)
      (blockText now clcf c r (statusOf r.headersOut)) r') ∧
    (¬HasHost clcf c r → passes now clcf c r = .error) := by
  obtain ⟨only,hlength⟩ := length_pass clcf c r
  unfold passes
  rw [hlength]
  constructor
  · intro hhost
    have hwritten := block_written now clcf c r only (lengthOf clcf c r) hhost
    rw [if_pos hhost, ← hwritten]
    exact ⟨_,rfl⟩
  · intro hhost
    rw [if_neg hhost]

theorem filter_passes (clcf : Conf) (c : Connection) (r : Request) :
    if r.headerSent = false ∧ r.isMain = true ∧ 1000 ≤ r.httpVersion then
      ∃ only, ngxHttpHeaderFilter now clcf c r =
        passes now clcf c { r with headerSent := true, headerOnly := only }
    else ∃ r', ngxHttpHeaderFilter now clcf c r = .ok r' := by
  unfold ngxHttpHeaderFilter
  cases r.headerSent with
  | true => exact ⟨r,rfl⟩
  | false =>
    cases r.isMain with
    | false => exact ⟨_,rfl⟩
    | true =>
      by_cases hversion : r.httpVersion < 1000
      · rw [if_neg (by omega)]
        exact ⟨_,if_pos hversion⟩
      rw [if_pos ⟨rfl,rfl,by omega⟩]
      simp only [Bool.false_eq_true, if_false, not_true_eq_false, hversion]
      cases r.head with
      | true => exact ⟨true,rfl⟩
      | false => exact ⟨r.headerOnly,rfl⟩

theorem filter_sends (clcf : Conf) (c : Connection) (r : Request) :
    (Sends clcf c r → ∃ r', ngxHttpHeaderFilter now clcf c r = .sent (lengthOf clcf c r)
      (blockText now clcf c r (statusOf r.headersOut)) r') ∧
    (¬Sends clcf c r → ∀ len out r', ngxHttpHeaderFilter now clcf c r ≠ .sent len out r') := by
  have hfilter := filter_passes now clcf c r
  by_cases htests : r.headerSent = false ∧ r.isMain = true ∧ 1000 ≤ r.httpVersion
  · rw [if_pos htests] at hfilter
    obtain ⟨only,hfilter⟩ := hfilter
    obtain ⟨hsent,herror⟩ :=
      passes_send now clcf c { r with headerSent := true, headerOnly := only }
    rw [hfilter]
    refine ⟨fun h => hsent h.2.2.2,fun h len out r' heq => ?_⟩
    rw [herror fun hhost => h ⟨htests.1,htests.2.1,htests.2.2,hhost⟩] at heq
    exact Result.noConfusion heq
  rw [if_neg htests] at hfilter
  obtain ⟨r',hfilter⟩ := hfilter
  rw [hfilter]
  exact ⟨fun h => absurd ⟨h.1,h.2.1,h.2.2.1⟩ htests,fun _ len out r'' heq =>
    Result.noConfusion heq⟩

/-- The header fits its buffer: a status line, the standard headers that apply, each once, those
of the list, and an empty line -/
def HeaderLaw (now : CachedTime) (clcf : Conf) (c : Connection) (r : Request) : Prop :=
  ∀ len out r', ngxHttpHeaderFilter now clcf c r = .sent len out r' →
    out.length ≤ len ∧ (((standard now clcf c r).filterMap id).map Prod.fst).Nodup ∧
      ∃ status, IsStatus r.headersOut status ∧ out = blockText now clcf c r status

theorem block_status {now : CachedTime} {clcf : Conf} {c : Connection} {r : Request}
    {a b : List UInt8} (h : blockText now clcf c r a = blockText now clcf c r b) : a = b := by
  rw [blockText, blockText] at h
  have hfront := List.append_cancel_right (List.append_cancel_right h)
  exact List.append_cancel_left (List.append_cancel_right hfront)

theorem keys_sublist {fs : List (Option (List UInt8×List UInt8))} {keys : List (List UInt8)}
    (h : List.Forall₂ (fun f key => ∀ p ∈ f, p.1 = key) fs keys) :
    ((fs.filterMap id).map Prod.fst).Sublist keys := by
  induction h with
  | nil => exact List.Sublist.slnil
  | @cons f key fs keys hf _ ih =>
    cases f with
    | none => exact ih.cons key
    | some p =>
      rw [← hf p rfl]
      exact ih.cons_cons p.1

def standardKeys : List (List UInt8) :=
  [serverKey, dateKey, typeKey, lengthKey, modifiedKey, locationKey, encodingKey, connectionKey,
    keepAliveKey, varyKey]

theorem standard_once (clcf : Conf) (c : Connection) (r : Request) :
    (((standard now clcf c r).filterMap id).map Prod.fst).Nodup := by
  have hkeys : standardKeys.Nodup := by decide
  have hguard {P : Prop} [Decidable P] (key value : List UInt8) :
      ∀ p ∈ (if P then some (key,value) else none), p.1 = key := by
    split_ifs <;> simp
  have hguard' {P : Prop} [Decidable P] (key value : List UInt8) :
      ∀ p ∈ (if P then none else some (key,value)), p.1 = key := by
    split_ifs <;> simp
  refine (@keys_sublist _ standardKeys ?_).nodup hkeys
  refine .cons (hguard' _ _) (.cons (hguard' _ _) (.cons (hguard' _ _) (.cons (hguard' _ _)
    (.cons (hguard _ _) (.cons ?_ (.cons (hguard _ _) (.cons ?_ (.cons (hguard _ _)
      (.cons (hguard _ _) .nil)))))))))
  · intro p hp
    obtain ⟨pair,-,rfl⟩ := Option.map_eq_some_iff.mp hp
    rfl
  · intro p hp
    obtain rfl := Option.some.inj hp
    rfl

theorem law_needs {now : CachedTime} {clcf : Conf} {c : Connection} {r : Request}
    (h : HeaderLaw now clcf c r) (hsends : Sends clcf c r) :
    Named r.headersOut ∧ yearExtra r.headersOut ≤ spare clcf c r := by
  have hlength := block_length now clcf c r
  obtain ⟨r',hrun⟩ := (filter_sends now clcf c r).1 hsends
  obtain ⟨hfit,-,status,hstatus,htext⟩ := h _ _ _ hrun
  rw [← block_status htext] at hstatus
  exact ⟨(status_named r.headersOut).mp hstatus,by omega⟩

/-- The law holds exactly when the status has a line and the year takes no more bytes than there
are for it, in every response that is sent. -/
theorem header_filter_block (now : CachedTime) (clcf : Conf) (c : Connection) (r : Request) :
    HeaderLaw now clcf c r ↔ (Sends clcf c r →
      Named r.headersOut ∧ yearExtra r.headersOut ≤ spare clcf c r) := by
  refine ⟨law_needs,fun h len out r' heq => ?_⟩
  obtain ⟨hsent,hnone⟩ := filter_sends now clcf c r
  have hlength := block_length now clcf c r
  by_cases hsends : Sends clcf c r
  · obtain ⟨hnamed,hyear⟩ := h hsends
    obtain ⟨r'',hrun⟩ := hsent hsends
    rw [hrun] at heq
    obtain ⟨rfl,rfl,-⟩ := Result.sent.inj heq
    exact ⟨by omega,standard_once now clcf c r,_,(status_named r.headersOut).mpr hnamed,rfl⟩
  · exact absurd heq (hnone hsends len out r')

def plainResponse (status : UInt64) (modified : Int64) : Request where
  headerSent := false
  isMain := true
  httpVersion := 1001
  head := false
  headerOnly := false
  keepalive := true
  chunked := true
  gzipVary := false
  server := []
  headersOut := ⟨[],status,[],false,false,false,false,none,0,[],[],-1,modified⟩

/-- `"Sun, 06 Nov 1994 08:49:37 GMT"` -/
def november : CachedTime := ⟨HeaderFilter.ngxHttpTime 784111777,by decide⟩

def plainConf : Conf := ⟨false,false,true,false,0,[]⟩

/-- A status without a line, and a file that was modified two seconds before the epoch -/
theorem header_filter_fails :
    ¬HeaderLaw november plainConf ⟨false,.unix,none⟩ (plainResponse 203 (-1)) ∧
      ¬HeaderLaw november plainConf ⟨false,.unix,none⟩ (plainResponse 200 (-2)) := by
  refine ⟨fun h => ?_,fun h => ?_⟩
  · exact absurd (law_needs h (by decide)).1 (by decide)
  · exact absurd (law_needs h (by decide)).2 (by decide)

end Nginx.HeaderBlock
