import Nginx.ProxyRequestLaw

/-!
# The key of the cache and the URI of the request

`ngx_http_proxy_create_key` builds the URI a second time, before the request, and asks for
escaping by a condition of its own: a space in the URI is not reason enough.
-/

set_option autoImplicit false

namespace Nginx.ProxyCacheKey
open TempMemory Script ProxyRequest ProxyRequestLaw

/-! The key -/

def escapesKey (r : Request) : Bool := r.values.quotedUri || r.internal

inductive KeyOutcome where
  | error
  | ok (keys : List (List UInt8)) (uri : Option (List UInt8))

/-- The escape and the length of the key in `size_t`, as `uriLen` has them -/
def keyLen (conf : LocConf) (r : Request) : Option (ℕ × ℕ) :=
  if escapesKey r && r.uri.length < locLen conf r then none
  else
    let escape :=
      if escapesKey r then 2*ngxEscapeCount .uri (r.uri.drop (locLen conf r)) else 0
    let total := r.varsUri.length+r.uri.length+escape+1+r.args.length
    some (escape,
      if locLen conf r ≤ total then total-locLen conf r else total+2^64-locLen conf r)

def writeKey (conf : LocConf) (r : Request) (escape : ℕ) (b : Block UInt8) :
    Option (Block UInt8) :=
  (b.put (if r.validLocation then r.varsUri else [])).bind fun b =>
  if r.uri.length < locLen conf r then none
  else
    (b.put (if escape > 0 then ngxEscapeUri .uri (r.uri.drop (locLen conf r))
      else r.uri.drop (locLen conf r))).bind fun b =>
    if r.args.length > 0 then (b.put [question]).bind (·.put r.args) else some b

/-- `cacheKey` is the value of `proxy_cache_key`, if it is set, and `keyStart` is
`ctx->vars.key_start`; `none` is an access outside of memory. -/
def ngxHttpProxyCreateKey (memory : ℕ → Bool) (cacheKey : Option (List UInt8))
    (keyStart : List UInt8) (conf : LocConf) (r : Request) : Option KeyOutcome :=
  match cacheKey with
  | some value => some (.ok [value] none)
  | none =>
    if conf.proxyLengths then some (.ok [keyStart, r.varsUri] (some r.varsUri))
    else if unparsed r then some (.ok [keyStart, r.unparsedUri] (some r.unparsedUri))
    else
      (keyLen conf r).bind fun k =>
      if memory k.2 then
        (writeKey conf r k.1 (Block.create k.2)).bind fun b =>
        (written b.cells).map fun s => .ok [keyStart, s] (some s)
      else some .error

/-! The URI of the request -/

/-- `uri` is what `writeUri` puts behind the method into the header of `out`. -/
def UriSent (le : Engine) (conf : LocConf) (r : Request) (out : Out) (uri : List UInt8) : Prop :=
  ∃ u len b b', uriLen conf r = some u ∧
    writeHeader conf r (headersSetLen r.values
      ((conf.bodySet.map fun body => lenRun r.values le body.codes).elim le Prod.snd)
        conf.headersSet).2 u.1 len = some out.header ∧
    (Block.create len).put (method conf r) = some b ∧ writeUri conf r u.1 b = some b' ∧
    Adds b b' uri

variable {b b' : Block UInt8}

theorem put_some {s : List UInt8} (h : b.put s = some b') : Adds b b' s := by
  rw [Block.put] at h
  split at h
  · obtain rfl := Option.some.inj h
    exact ⟨rfl,rfl⟩
  · cases h

theorem adds_inj {s t : List UInt8} (h : Adds b b' s) (h' : Adds b b' t) : s = t := by
  have hc := List.append_cancel_left (h.cells.symm.trans h'.cells)
  exact List.map_injective_iff.mpr (Option.some_injective _) hc

/-- The URI that the location, the URI of the request and the arguments make -/
def uriText (escape : Bool) (conf : LocConf) (r : Request) : List UInt8 :=
  (if r.validLocation then r.varsUri else [])++
    ((if escape then ngxEscapeUri .uri (r.uri.drop (locLen conf r))
      else r.uri.drop (locLen conf r))++
    (if r.args = [] then [] else question::r.args))

def escapeSize (escape : Bool) (conf : LocConf) (r : Request) : ℕ :=
  if escape then 2*ngxEscapeCount .uri (r.uri.drop (locLen conf r)) else 0

variable (escape : Bool) (conf : LocConf) (r : Request)

theorem path_eq :
    (if escapeSize escape conf r > 0 then ngxEscapeUri .uri (r.uri.drop (locLen conf r))
      else r.uri.drop (locLen conf r)) =
    if escape then ngxEscapeUri .uri (r.uri.drop (locLen conf r))
      else r.uri.drop (locLen conf r) := by
  cases escape with
  | false => rfl
  | true =>
    simp only [escapeSize, if_true]
    split
    · rfl
    · exact (escape_none (by omega)).symm

theorem writeKey_some {conf : LocConf} {r : Request}
    (h : writeKey conf r (escapeSize escape conf r) b = some b') :
    locLen conf r ≤ r.uri.length ∧ Adds b b' (uriText escape conf r) := by
  obtain ⟨b₁,h₁,h⟩ := Option.bind_eq_some_iff.mp h
  split at h
  · cases h
  · obtain ⟨b₂,h₂,h⟩ := Option.bind_eq_some_iff.mp h
    rw [path_eq] at h₂
    have ha := (put_some h₁).trans (put_some h₂)
    refine ⟨by omega,?_⟩
    split at h
    · rename_i hargs
      obtain ⟨b₃,h₃,h₄⟩ := Option.bind_eq_some_iff.mp h
      have hne : r.args ≠ [] := List.length_pos_iff.mp hargs
      rw [uriText, if_neg hne, ← List.append_assoc]
      exact ha.trans ((put_some h₃).trans (put_some h₄))
    · rename_i hargs
      have he : r.args = [] := List.eq_nil_of_length_eq_zero (by omega)
      obtain rfl := Option.some.inj h
      rw [uriText, if_pos he, List.append_nil]
      exact ha

theorem writeKey_adds {conf : LocConf} {r : Request} (hl : locLen conf r ≤ r.uri.length)
    (hb : b.cells.length+(uriText escape conf r).length ≤ b.size) :
    ∃ b', writeKey conf r (escapeSize escape conf r) b = some b' ∧
      Adds b b' (uriText escape conf r) := by
  simp only [uriText, List.length_append] at hb
  obtain ⟨b₁,h₁,a₁⟩ := put_adds (b := b) (s := if r.validLocation then r.varsUri else [])
    (by omega)
  obtain ⟨b₂,h₂,a₂⟩ := put_adds (b := b₁) (s := if escape then
    ngxEscapeUri .uri (r.uri.drop (locLen conf r)) else r.uri.drop (locLen conf r))
    (by rw [a₁.length, a₁.size]; omega)
  rw [writeKey, h₁, Option.bind_some, if_neg (by omega), path_eq, h₂, Option.bind_some, uriText]
  by_cases ha : r.args = []
  · rw [if_neg (by simp [ha]), if_pos ha, List.append_nil]
    exact ⟨b₂,rfl,a₁.trans a₂⟩
  rw [if_neg ha, List.length_cons] at hb
  obtain ⟨b₃,h₃,a₃⟩ := put_adds (b := b₂) (s := [question])
    (by rw [a₂.length, a₂.size, a₁.length, a₁.size]; change _+1 ≤ _; omega)
  obtain ⟨b₄,h₄,a₄⟩ := put_adds (b := b₃) (s := r.args)
    (by
      rw [a₃.length, a₃.size, a₂.length, a₂.size, a₁.length, a₁.size]
      change _+1+_ ≤ _
      omega)
  rw [if_pos (List.length_pos_iff.mpr ha), if_neg ha, h₃]
  exact ⟨b₄,h₄,a₁.trans (a₂.trans (a₃.trans a₄))⟩

theorem writeUri_some {conf : LocConf} {r : Request} {u : ℕ × ℕ} (hu : uriLen conf r = some u)
    (h : writeUri conf r u.1 b = some b') :
    (cutsLocation conf r = true → locLen conf r ≤ r.uri.length) ∧
      Adds b b' (requestUri conf r) := by
  by_cases hp : conf.proxyLengths = true
  · rw [writeUri, if_pos hp] at h
    rw [requestUri, if_pos hp]
    exact ⟨fun hc => absurd hp ((cuts_iff conf r).mp hc).1,put_some h⟩
  by_cases hun : unparsed r = true
  · rw [writeUri, if_neg hp, if_pos hun] at h
    rw [requestUri, if_neg hp, if_pos hun]
    exact ⟨fun hc => absurd hun ((cuts_iff conf r).mp hc).2,put_some h⟩
  rw [writeUri, if_neg hp, if_neg hun] at h
  rw [uriLen, if_neg hp, if_neg hun] at hu
  split at hu
  · cases hu
  · obtain rfl := Option.some.inj hu
    obtain ⟨hl,ha⟩ := writeKey_some (escapesUri r) h
    rw [requestUri, if_neg hp, if_neg hun]
    exact ⟨fun _ => hl,ha⟩

theorem uri_sent (memory : ℕ → Bool) (le : Engine) (conf : LocConf) (r : Request) {out : Out}
    (h : ngxHttpProxyCreateRequest memory le conf r = some (.ok out)) (uri : List UInt8) :
    UriSent le conf r out uri ↔ uri = requestUri conf r := by
  constructor
  · rintro ⟨u,len,b,b',hu,_,_,hb',ha⟩
    exact adds_inj ha (writeUri_some hu hb').2
  · rintro rfl
    rw [ngxHttpProxyCreateRequest] at h
    obtain ⟨u,hu,h⟩ := Option.bind_eq_some_iff.mp h
    split at h
    · cases h
    · simp only at h
      split at h
      · obtain ⟨b,hb,he⟩ := Option.map_eq_some_iff.mp h
        obtain rfl := Outcome.ok.inj he
        obtain ⟨b₁,h₁,hb₁⟩ := Option.bind_eq_some_iff.mp hb
        obtain ⟨b₂,h₂,_⟩ := Option.bind_eq_some_iff.mp hb₁
        exact ⟨u,_,b₁,b₂,hu,hb,h₁,h₂,(writeUri_some hu h₂).2⟩
      · cases h

/-! The key -/

theorem key_uncut (memory : ℕ → Bool) (keyStart : List UInt8) (conf : LocConf) (r : Request)
    (hcut : ¬ cutsLocation conf r = true) :
    ngxHttpProxyCreateKey memory none keyStart conf r =
      some (.ok [keyStart, requestUri conf r] (some (requestUri conf r))) := by
  rw [ngxHttpProxyCreateKey, requestUri]
  by_cases hp : conf.proxyLengths = true
  · rw [if_pos hp, if_pos hp]
  by_cases hun : unparsed r = true
  · rw [if_neg hp, if_neg hp, if_pos hun, if_pos hun]
  · exact absurd ((cuts_iff conf r).mpr ⟨hp,hun⟩) hcut

theorem uriText_length (hl : locLen conf r ≤ r.uri.length) :
    (uriText escape conf r).length+locLen conf r ≤
      r.varsUri.length+r.uri.length+escapeSize escape conf r+1+r.args.length := by
  have hvars : (if r.validLocation then r.varsUri else []).length ≤ r.varsUri.length := by
    split
    · exact le_rfl
    · exact Nat.zero_le _
  have hargs : (if r.args = [] then [] else question::r.args).length ≤ 1+r.args.length := by
    split
    · exact Nat.zero_le _
    · rw [List.length_cons]
      omega
  have hpath : (if escape then ngxEscapeUri .uri (r.uri.drop (locLen conf r))
      else r.uri.drop (locLen conf r)).length =
        r.uri.length-locLen conf r+escapeSize escape conf r := by
    cases escape with
    | false => exact List.length_drop
    | true => simp only [escapeSize, if_true, escape_length, List.length_drop]
  simp only [uriText, List.length_append, hpath]
  omega

theorem key_cut (memory : ℕ → Bool) (keyStart : List UInt8) (conf : LocConf) (r : Request)
    (hcut : cutsLocation conf r = true) (hl : locLen conf r ≤ r.uri.length) :
    ngxHttpProxyCreateKey memory none keyStart conf r = some .error ∨
      ngxHttpProxyCreateKey memory none keyStart conf r =
        some (.ok [keyStart, uriText (escapesKey r) conf r]
          (some (uriText (escapesKey r) conf r))) := by
  obtain ⟨hp,hun⟩ := (cuts_iff conf r).mp hcut
  have hlen := uriText_length (escapesKey r) conf r hl
  have hk : keyLen conf r = some (escapeSize (escapesKey r) conf r,
      r.varsUri.length+r.uri.length+escapeSize (escapesKey r) conf r+1+r.args.length-
        locLen conf r) := by
    have hif : locLen conf r ≤ r.varsUri.length+r.uri.length+
        escapeSize (escapesKey r) conf r+1+r.args.length := by omega
    rw [keyLen, if_neg (by simp; omega)]
    exact congrArg some (Prod.ext rfl (if_pos hif))
  simp only [ngxHttpProxyCreateKey]
  rw [if_neg hp, if_neg hun, hk, Option.bind_some]
  split
  · obtain ⟨b,hb,ha⟩ := writeKey_adds (escapesKey r) hl (b := Block.create (r.varsUri.length+
      r.uri.length+escapeSize (escapesKey r) conf r+1+r.args.length-locLen conf r))
      (by simp only [Block.create, List.length_nil]; omega)
    refine Or.inr ?_
    rw [hb, Option.bind_some, ha.cells, Block.create, List.nil_append, written_map_some]
    rfl
  · exact Or.inl rfl

/-- Whenever both functions succeed, the URI of the key is the one of the request if and only
if the location is no longer than the URI and a space alone does not call for escaping. -/
theorem cache_key (memory memory' : ℕ → Bool) (le : Engine) (keyStart : List UInt8)
    (conf : LocConf) (r : Request)
    (hkey : ngxHttpProxyCreateKey memory none keyStart conf r ≠ some .error)
    (hreq : ngxHttpProxyCreateRequest memory' le conf r ≠ some .error) :
    (∃ key out, ngxHttpProxyCreateKey memory none keyStart conf r =
        some (.ok [keyStart, key] (some key)) ∧
      ngxHttpProxyCreateRequest memory' le conf r = some (.ok out) ∧
      UriSent le conf r out key) ↔
    (cutsLocation conf r = true → locLen conf r ≤ r.uri.length ∧
      (escapesUri r = true → escapesKey r = false →
        ngxEscapeCount .uri (r.uri.drop (locLen conf r)) = 0)) := by
  constructor
  · rintro ⟨key,out,hk,hout,hsent⟩ hcut
    obtain ⟨hp,hun⟩ := (cuts_iff conf r).mp hcut
    have he := (uri_sent memory' le conf r hout key).mp hsent
    obtain ⟨u,len,b,b',hu,_,_,hb',_⟩ := hsent
    have hl := (writeUri_some hu hb').1 hcut
    refine ⟨hl,fun hu hn => ?_⟩
    rcases key_cut memory keyStart conf r hcut hl with h | h
    · exact absurd h hkey
    rw [hk] at h
    have htext : key = uriText (escapesKey r) conf r := by
      have h := (KeyOutcome.ok.inj (Option.some.inj h)).2
      exact Option.some.inj h
    rw [he, requestUri, if_neg hp, if_neg hun, hu, hn, uriText] at htext
    have hlen := congrArg List.length (List.append_cancel_right
      (List.append_cancel_left htext))
    simp only [if_true, escape_length, Bool.false_eq_true, if_false] at hlen
    omega
  · intro hcond
    have hloc : cutsLocation conf r = true → locLen conf r ≤ r.uri.length :=
      fun hc => (hcond hc).1
    rcases create_spec memory' le conf r hloc with h | ⟨out,hout,_,_⟩
    · exact absurd h hreq
    refine ⟨requestUri conf r,out,?_,hout,(uri_sent memory' le conf r hout _).mpr rfl⟩
    by_cases hcut : cutsLocation conf r = true
    · obtain ⟨hl,hesc⟩ := hcond hcut
      obtain ⟨hp,hun⟩ := (cuts_iff conf r).mp hcut
      have htext : uriText (escapesKey r) conf r = requestUri conf r := by
        rw [requestUri, if_neg hp, if_neg hun, uriText]
        cases hk : escapesKey r with
        | true =>
          have hu : escapesUri r = true := by
            simp only [escapesKey, Bool.or_eq_true] at hk
            simp only [escapesUri, Bool.or_eq_true]
            exact hk.imp_left Or.inl
          rw [hu]
        | false =>
          cases hu : escapesUri r with
          | false => rfl
          | true =>
            simp only [Bool.false_eq_true, if_false, if_true]
            rw [escape_none (hesc hu hk)]
      rcases key_cut memory keyStart conf r hcut hl with h | h
      · exact absurd h hkey
      · rw [h, htext]
    · exact key_uncut memory keyStart conf r hcut

/-- "GET /a b" in a location with the URI "/" -/
def spaceRequest : Request :=
  { smallRequest with
    unparsedUri := [47,97,32,98]
    uri := [47,97,32,98]
    varsUri := [47]
    spaceInUri := true }

/-- "GET /a%20b?c" in that location -/
def quotedRequest : Request :=
  { spaceRequest with args := [99], values.quotedUri := true }

theorem cache_key_quoted : ∃ key out,
    ngxHttpProxyCreateKey (fun _ => true) none [] (smallConf []) quotedRequest =
        some (.ok [[], key] (some key)) ∧
      ngxHttpProxyCreateRequest (fun _ => true) zeroEngine (smallConf []) quotedRequest =
        some (.ok out) ∧
      UriSent zeroEngine (smallConf []) quotedRequest out key :=
  (cache_key (fun _ => true) (fun _ => true) zeroEngine [] (smallConf []) quotedRequest
    (by rintro ⟨⟩) (created_of (u := (2, 8)) rfl (by decide))).mpr
    (fun _ => ⟨by decide,fun _ h => by cases h⟩)

/-- The key has the space, and the request is sent with "%20". -/
theorem space_in_key : ∃ key out,
    ngxHttpProxyCreateKey (fun _ => true) none [] (smallConf []) spaceRequest =
        some (.ok [[], key] (some key)) ∧
      ngxHttpProxyCreateRequest (fun _ => true) zeroEngine (smallConf []) spaceRequest =
        some (.ok out) ∧
      ¬ UriSent zeroEngine (smallConf []) spaceRequest out key := by
  have hcut : cutsLocation (smallConf []) spaceRequest = true := by decide
  have hl : locLen (smallConf []) spaceRequest ≤ spaceRequest.uri.length := by decide
  have hkey : ngxHttpProxyCreateKey (fun _ => true) none [] (smallConf []) spaceRequest ≠
      some .error := by rintro ⟨⟩
  have hreq : ngxHttpProxyCreateRequest (fun _ => true) zeroEngine (smallConf []) spaceRequest ≠
      some .error := created_of (u := (2, 7)) rfl (by decide)
  rcases create_spec (fun _ => true) zeroEngine (smallConf []) spaceRequest fun _ => hl with
    h | ⟨out,hout,_⟩
  · exact absurd h hreq
  rcases key_cut (fun _ => true) [] (smallConf []) spaceRequest hcut hl with h | h
  · exact absurd h hkey
  refine ⟨_,out,h,hout,fun hs => ?_⟩
  have he := (uri_sent _ _ _ _ hout _).mp hs
  exact absurd (congrArg List.length he) (by decide)

end Nginx.ProxyCacheKey
