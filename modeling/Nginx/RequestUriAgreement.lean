import Nginx.RequestUri

/-!
# Agreement of the two URI readers

The invariant of the request line loop says, for every state that reads a URI,
that the complex URI scanner run over the same characters has copied them and
stands in the matching state with the same extension. Agreement follows for
every request line whose URI the parser has looked at completely.
-/

set_option autoImplicit false

namespace Nginx.RequestUriAgreement
open Nginx.UriBytes Nginx.ComplexUri Nginx.ComplexUriPath Nginx.RequestLine Nginx.RequestUri

def Flagged (r : Request) : Prop := r.complexUri = true ∨ r.quotedUri = true

def ExtAt (r : Request) : Option ℕ → Prop
  | none => r.uriExt = 0
  | some k => r.uriExt = r.uriStart+k

/-- The URI has been read up to `e`, the scanner being in one of `states`. -/
structure Read (mem : Memory) (states : List PlainState) (r : Request) (e : ℤ) : Prop where
  start : 0 < r.uriStart
  nonempty : r.uriStart < pathEnd r e
  args : r.argsStart ≠ 0 →
    r.argsStart ≤ e ∧ mem (r.argsStart-1) = question ∧ mem (r.argsStart-2) ≠ space
  path : Examined (bytes mem r.uriStart e) →
    ∃ ext, ∃ state ∈ states, ExtAt r ext ∧
      PathRead (bytes mem r.uriStart (pathEnd r e)) ext state
  no_hash : Examined (bytes mem r.uriStart e) → r.argsStart ≠ 0 →
    hash ∉ bytes mem r.argsStart e

def open2 : List PlainState := [.swUsual, .swSlash]

variable (mem : Memory) (states : List PlainState) (r r' : Request)

theorem read_congr (e : ℤ) (h : Read mem states r e) (hs : r'.uriStart = r.uriStart)
    (ha : r'.argsStart = r.argsStart) (hx : r'.uriExt = r.uriExt) : Read mem states r' e := by
  have hp : pathEnd r' e = pathEnd r e := by simp only [pathEnd, ha]
  refine ⟨by rw [hs]; exact h.start,by rw [hs, hp]; exact h.nonempty,
    by rw [ha]; exact h.args,?_,by rw [hs, ha]; exact h.no_hash⟩
  intro hex
  rw [hs] at hex
  obtain ⟨ext,state,hstate,hext,hread⟩ := h.path hex
  refine ⟨ext,state,hstate,?_,by rw [hs, hp]; exact hread⟩
  cases ext <;> simpa [ExtAt, hs, hx] using hext

theorem read_widen (e : ℤ) (states : List PlainState) (h : Read mem states r e)
    (hsub : states ⊆ open2) : Read mem open2 r e :=
  ⟨h.start,h.nonempty,h.args,fun hex => by
    obtain ⟨ext,state,hstate,hrest⟩ := h.path hex
    exact ⟨ext,state,hsub hstate,hrest⟩,h.no_hash⟩

theorem bytes_last (first last : ℤ) (h : first < last) :
    (bytes mem first last).getLast? = some (mem (last-1)) := by
  have hs := bytes_succ mem first (last-1) (by omega)
  have he : last-1+1 = last := by omega
  rw [he] at hs
  simp [hs]

theorem examined_step (first p : ℤ) (h : first ≤ p) (hex : Examined (bytes mem first (p+1))) :
    Examined (bytes mem first p) := by
  rw [bytes_succ mem first p h] at hex
  exact examined_prefix _ _ hex

theorem read_step (states' : List PlainState) (r r' : Request) (p : ℤ) (h : Read mem states r p)
    (ha : r.argsStart = 0) (ha' : r'.argsStart = 0) (hs : r'.uriStart = r.uriStart)
    (hpath : Examined (bytes mem r.uriStart (p+1)) → ∀ ext, ∀ state ∈ states, ExtAt r ext →
      PathRead (bytes mem r.uriStart p) ext state → ∃ ext', ∃ state' ∈ states', ExtAt r' ext' ∧
      PathRead (bytes mem r.uriStart p ++ [mem p]) ext' state') : Read mem states' r' (p+1) := by
  have hp : pathEnd r p = p := by simp [pathEnd, ha]
  have hp' : pathEnd r' (p+1) = p+1 := by simp [pathEnd, ha']
  have hlt := h.nonempty
  rw [hp] at hlt
  refine ⟨by rw [hs]; exact h.start,by rw [hs, hp']; omega,fun hn => absurd ha' hn,?_,
    fun _ hn => absurd ha' hn⟩
  intro hex
  rw [hs] at hex ⊢
  obtain ⟨ext,state,hstate,hext,hread⟩ := h.path (examined_step mem _ p (le_of_lt hlt) hex)
  rw [hp] at hread
  rw [hp', bytes_succ mem _ _ (le_of_lt hlt)]
  exact hpath hex ext state hstate hext hread

theorem ext_at_congr (ext : Option ℕ) (h : ExtAt r ext) (hs : r'.uriStart = r.uriStart)
    (hx : r'.uriExt = r.uriExt) : ExtAt r' ext := by
  cases ext <;> simpa [ExtAt, hs, hx] using h

variable (p : ℤ)

theorem read_put (h : Read mem states r p) (hsub : states ⊆ open2) (ha : r.argsStart = 0)
    (ha' : r'.argsStart = 0) (hs : r'.uriStart = r.uriStart) (hx : r'.uriExt = r.uriExt)
    (hch : Examined (bytes mem r.uriStart (p+1)) → question ∉ bytes mem r.uriStart p → mem p ∉
      ([nul, percent, hash, question, slash, dot] : List UInt8)) :
    Read mem [.swUsual] r' (p+1) := by
  refine read_step mem states _ r r' p h ha ha' hs ?_
  intro hex ext state hstate hext hread
  refine ⟨ext,.swUsual,List.mem_singleton_self _,ext_at_congr r r' ext hext hs hx,?_⟩
  refine path_read_put _ ext state _ hread (hsub hstate) (hch hex ?_)
  intro hm
  exact hread.no_special question hm (by decide)

theorem read_question (h : Read mem states r p) (hsub : states ⊆ open2) (ha : r.argsStart = 0)
    (ha' : r'.argsStart = p+1) (hs : r'.uriStart = r.uriStart) (hx : r'.uriExt = r.uriExt)
    (hq : mem p = question) (hsp : mem (p-1) ≠ space) : Read mem open2 r' (p+1) := by
  have hp : pathEnd r p = p := by simp [pathEnd, ha]
  have hlt := h.nonempty
  have h0 := h.start
  rw [hp] at hlt
  have hp' : pathEnd r' (p+1) = p := by
    simp only [pathEnd, ha', if_neg (by omega : ¬p+1 = 0)]
    omega
  refine ⟨by omega,by omega,?_,?_,?_⟩
  · intro _
    rw [ha']
    exact ⟨le_rfl,by simpa using hq,by
      have he : p+1-2 = p-1 := by omega
      rw [he]
      exact hsp⟩
  · intro hex
    rw [hs] at hex ⊢
    obtain ⟨ext,state,hstate,hext,hread⟩ := h.path (examined_step mem _ p (le_of_lt hlt) hex)
    rw [hp] at hread
    rw [hp']
    exact ⟨ext,state,hsub hstate,ext_at_congr r r' ext hext hs hx,hread⟩
  · intro _ _
    rw [ha', bytes_self]
    simp

theorem read_question_mem (e : ℤ) (h : Read mem states r e) (ha : r.argsStart ≠ 0) :
    bytes mem r.uriStart e =
      bytes mem r.uriStart (pathEnd r e) ++ question :: bytes mem r.argsStart e := by
  obtain ⟨he,hq,-⟩ := h.args ha
  have hp : pathEnd r e = r.argsStart-1 := by simp [pathEnd, ha]
  have hlt := h.nonempty
  rw [hp] at hlt ⊢
  have hc := bytes_cons mem (r.argsStart-1) e (by omega)
  have he1 : r.argsStart-1+1 = r.argsStart := by omega
  rw [he1, hq] at hc
  rw [bytes_append mem r.uriStart (r.argsStart-1) e (by omega) (by omega), hc]

theorem read_args (h : Read mem open2 r p) (ha : r.argsStart ≠ 0) (ha' : r'.argsStart = r.argsStart)
    (hs : r'.uriStart = r.uriStart) (hx : r'.uriExt = r.uriExt)
    (hch : mem p ≠ hash ∨ mem (p-1) = space) : Read mem open2 r' (p+1) := by
  have hp : pathEnd r p = r.argsStart-1 := by simp [pathEnd, ha]
  have hp' : pathEnd r (p+1) = r.argsStart-1 := by simp [pathEnd, ha]
  obtain ⟨hle,hq,hsp⟩ := h.args ha
  have hlt := h.nonempty
  rw [hp] at hlt
  have hstep : Read mem open2 r (p+1) := by
    refine ⟨h.start,by rw [hp']; exact hlt,fun _ => ⟨by omega,hq,hsp⟩,?_,?_⟩
    · intro hex
      obtain hrest := h.path (examined_step mem _ p (by omega) hex)
      rw [hp', ← hp]
      exact hrest
    · intro hex _ hm
      rw [bytes_succ mem _ _ hle] at hm
      rcases List.mem_append.mp hm with hm | hm
      · exact h.no_hash (examined_step mem _ p (by omega) hex) ha hm
      have hh : mem p = hash := (List.mem_singleton.mp hm).symm
      have hspace : mem (p-1) = space := hch.resolve_left (fun hne => hne hh)
      rw [bytes_succ mem _ _ (by omega)] at hex
      have hlast := bytes_last mem r.uriStart p (by omega)
      rw [hspace] at hlast
      refine (examined_last _ _ hlast hex).2 ?_ hh
      rw [read_question_mem mem open2 r p h ha]
      simp
  exact read_congr mem open2 r r' (p+1) hstep hs ha' hx

structure Fresh (r : Request) : Prop where
  no_ext : r.uriExt = 0
  no_args : r.argsStart = 0

def Ended (mem : Memory) (r : Request) : Prop := Flagged r ∨ Read mem open2 r r.uriEnd

def Inv (mem : Memory) : LineState → Request → ℤ → Prop
  | .swStart, r, p | .swMethod, r, p | .swSpacesBeforeUri, r, p | .swSchema, r, p =>
    0 < p ∧ Fresh r
  | .swSchemaSlash, r, p => 0 < p ∧ Fresh r ∧ 0 < r.schemaEnd ∧ r.schemaEnd+1 = p
  | .swSchemaSlashSlash, r, p | .swHost, r, p | .swPort, r, p =>
    0 < p ∧ Fresh r ∧ 0 < r.schemaEnd ∧ mem (r.schemaEnd+1) = slash
  | .swAfterSlashInUri, r, p =>
    r.argsStart = 0 ∧ mem (p-1) ≠ space ∧ (Flagged r ∨ Read mem open2 r p)
  | .swCheckUri, r, p =>
    r.argsStart = 0 ∧ mem (p-1) ≠ space ∧ (Flagged r ∨ Read mem [.swUsual] r p ∧
      (Examined (bytes mem r.uriStart p) → mem (p-1) ≠ slash))
  | .swCheckUriHttp09, r, p =>
    r.argsStart = 0 ∧ mem (p-1) = space ∧
      (Flagged r ∨ Read mem [.swUsual] r p ∧ Read mem open2 r r.uriEnd)
  | .swUri, r, p => Flagged r ∨ r.argsStart ≠ 0 ∧ Read mem open2 r p
  | .swHttp09, r, p => Flagged r ∨ r.argsStart ≠ 0 ∧ mem (p-1) = space ∧ Read mem open2 r p ∧
      Read mem open2 r r.uriEnd
  | _, r, _ => Ended mem r

theorem read_single_slash (hp : 0 < p) (hf : Fresh r) (hs : r.uriStart = p) (hm : mem p = slash) :
    Read mem open2 r (p+1) := by
  have he : pathEnd r (p+1) = p+1 := by simp [pathEnd, hf.no_args]
  have hb : bytes mem p (p+1) = [slash] := by
    rw [bytes_succ mem p p le_rfl, bytes_self, hm]
    rfl
  refine ⟨by omega,by omega,fun hn => absurd hf.no_args hn,?_,
    fun _ hn => absurd hf.no_args hn⟩
  intro _
  rw [he, hs, hb]
  exact ⟨none,.swSlash,by simp [open2],hf.no_ext,path_read_start⟩

theorem bare_host_ended (hf : Fresh r) (hs : 0 < r.schemaEnd) (hm : mem (r.schemaEnd+1) = slash) :
    Ended mem (bareHost r) := by
  have hr := read_single_slash mem (bareHost r) (r.schemaEnd+1) (by omega)
    ⟨hf.no_ext,hf.no_args⟩ rfl hm
  have he : (bareHost r).uriEnd = r.schemaEnd+1+1 := by
    simp only [bareHost]
    omega
  exact Or.inr (by rw [he]; exact hr)

theorem ended_congr (h : Ended mem r) (hc : r'.complexUri = r.complexUri)
    (hq : r'.quotedUri = r.quotedUri) (hs : r'.uriStart = r.uriStart)
    (ha : r'.argsStart = r.argsStart) (hx : r'.uriExt = r.uriExt) (he : r'.uriEnd = r.uriEnd) :
    Ended mem r' := by
  rcases h with h | h
  · left
    simpa [Flagged, hc, hq] using h
  right
  rw [he]
  exact read_congr mem open2 r r' _ h hs ha hx

theorem usual_copied (ch : UInt8) (h : usual ch = true) :
    ch ∉ ([nul, percent, hash, question, slash, dot] : List UInt8) ∧ ch ≠ space := by
  have hm := (usual_iff ch).mp h
  simp only [List.mem_cons, List.not_mem_nil, or_false] at hm ⊢
  tauto

theorem check_uri_put (hsub : states ⊆ open2) (ha : r.argsStart = 0)
    (hread : Flagged r ∨ Read mem states r p)
    (hch : mem p ∉ ([nul, percent, hash, question, slash, dot] : List UInt8)) (hsp : mem p ≠ space)
    (hc : r'.complexUri = r.complexUri) (hq : r'.quotedUri = r.quotedUri)
    (ha' : r'.argsStart = r.argsStart) (hs : r'.uriStart = r.uriStart) (hx : r'.uriExt = r.uriExt) :
    Inv mem .swCheckUri r' (p+1) := by
  have hp : p+1-1 = p := by omega
  refine ⟨by rw [ha', ha],by rw [hp]; exact hsp,?_⟩
  rcases hread with hf | hread
  · left
    simpa [Flagged, hc, hq] using hf
  refine Or.inr ⟨read_put mem states r r' p hread hsub ha (by rw [ha', ha]) hs hx
    (fun _ _ => hch),fun _ => ?_⟩
  rw [hp]
  intro h
  rw [h] at hch
  simp at hch

theorem path_end_next (other : Move) (state' : LineState) (r r' : Request) (p : ℤ)
    (hsub : states ⊆ open2) (ha : r.argsStart = 0) (hread : Flagged r ∨ Read mem states r p)
    (h : uriEndMove .swCheckUriHttp09 other r p (mem p) = .next state' r')
    (hother : mem p ≠ space → other = .next state' r' → Inv mem state' r' (p+1)) :
    Inv mem state' r' (p+1) := by
  unfold uriEndMove at h
  split_ifs at h with h1 h2 h3
  · cases h
    have hp : p+1-1 = p := by omega
    refine ⟨ha,by rw [hp]; exact h1,?_⟩
    rcases hread with hf | hread
    · exact Or.inl hf
    refine Or.inr ⟨read_put mem states r _ p hread hsub ha ha rfl rfl ?_,?_⟩
    · intro _ _
      rw [h1]
      decide
    · exact read_congr mem open2 r _ p (read_widen mem r p states hread hsub) rfl rfl rfl
  · cases h
    rcases hread with hf | hread
    · exact Or.inl hf
    · exact Or.inr (read_congr mem open2 r _ p (read_widen mem r p states hread hsub) rfl rfl rfl)
  · exact hother h1 h

variable (state' : LineState)

theorem after_slash_next (r r' : Request) (p : ℤ) (hinv : Inv mem .swAfterSlashInUri r p)
    (h : move mem .swAfterSlashInUri r p = .next state' r') : Inv mem state' r' (p+1) := by
  obtain ⟨ha,hsp,hread⟩ := hinv
  simp only [move, afterSlashInUriMove] at h
  by_cases hu : usual (mem p) = true
  · rw [if_pos hu] at h
    cases h
    obtain ⟨hch,hne⟩ := usual_copied _ hu
    exact check_uri_put mem open2 r r p (List.Subset.refl _) ha hread hch hne rfl rfl rfl rfl rfl
  rw [if_neg hu] at h
  refine path_end_next mem open2 _ state' r r' p (List.Subset.refl _) ha hread h ?_
  intro hne hother
  split_ifs at hother with h1 h2 h3 h4 h5 h6 h7 <;> cases hother
  · exact Or.inl (Or.inl rfl)
  · exact Or.inl (Or.inr rfl)
  · exact Or.inl (Or.inl rfl)
  · rcases hread with hf | hread
    · exact Or.inl hf
    have hp := hread.nonempty
    have h0 := hread.start
    simp only [pathEnd, ha, if_true] at hp
    exact Or.inr ⟨by simp only; omega,read_question mem open2 r _ p hread
      (List.Subset.refl _) ha rfl rfl rfl h4 hsp⟩
  · exact Or.inl (Or.inl rfl)
  · refine ⟨ha,by simpa using hne,?_⟩
    rcases hread with hf | hread
    · exact Or.inl hf
    refine Or.inr (read_widen mem _ _ [.swUsual] (read_put mem open2 r _ p hread
      (List.Subset.refl _) ha ha rfl rfl ?_) (by simp [open2]))
    intro _ _
    rw [h6]
    decide
  · refine check_uri_put mem open2 r r p (List.Subset.refl _) ha hread ?_ hne rfl rfl rfl rfl rfl
    simp only [List.mem_cons, List.not_mem_nil, or_false]
    tauto

theorem check_uri_next (r r' : Request) (p : ℤ) (hinv : Inv mem .swCheckUri r p)
    (h : move mem .swCheckUri r p = .next state' r') : Inv mem state' r' (p+1) := by
  obtain ⟨ha,hsp,hinv⟩ := hinv
  have hsub : [PlainState.swUsual] ⊆ open2 := by simp [open2]
  have hread : Flagged r ∨ Read mem [.swUsual] r p := hinv.imp_right And.left
  have hp1 : p+1-1 = p := by omega
  simp only [move, checkUriMove] at h
  by_cases hu : usual (mem p) = true
  · rw [if_pos hu] at h
    cases h
    obtain ⟨hch,hne⟩ := usual_copied _ hu
    exact check_uri_put mem _ r r p hsub ha hread hch hne rfl rfl rfl rfl rfl
  rw [if_neg hu] at h
  by_cases hslash : mem p = slash
  · rw [if_pos hslash] at h
    cases h
    refine ⟨ha,by rw [hp1, hslash]; decide,?_⟩
    rcases hinv with hf | ⟨hread,hlast⟩
    · exact Or.inl hf
    refine Or.inr (read_step mem _ open2 r _ p hread ha ha rfl ?_)
    intro hex ext state hstate hext hpath
    have hlt := hread.nonempty
    simp only [pathEnd, ha, if_true] at hlt
    rw [List.mem_singleton] at hstate
    subst hstate
    rw [hslash]
    refine ⟨none,.swSlash,by simp [open2],rfl,path_read_slash _ ext hpath ?_⟩
    rw [bytes_last mem _ _ hlt]
    simpa using hlast (examined_step mem _ p (le_of_lt hlt) hex)
  rw [if_neg hslash] at h
  by_cases hdot : mem p = dot
  · rw [if_pos hdot] at h
    cases h
    refine ⟨ha,by rw [hp1, hdot]; decide,?_⟩
    rcases hinv with hf | ⟨hread,hlast⟩
    · exact Or.inl hf
    refine Or.inr ⟨read_step mem _ _ r _ p hread ha ha rfl ?_,?_⟩
    · intro hex ext state hstate hext hpath
      have hlt := hread.nonempty
      simp only [pathEnd, ha, if_true] at hlt
      rw [List.mem_singleton] at hstate
      subst hstate
      rw [hdot]
      refine ⟨some ((bytes mem r.uriStart p).length+1),.swUsual,by simp,?_,
        path_read_dot _ ext hpath ?_⟩
      · simp only [ExtAt, bytes_length]
        omega
      · rw [bytes_last mem _ _ hlt]
        simpa using hlast (examined_step mem _ p (le_of_lt hlt) hex)
    · intro _
      rw [hp1, hdot]
      decide
  rw [if_neg hdot] at h
  refine path_end_next mem _ _ state' r r' p hsub ha hread h ?_
  intro hne hother
  split_ifs at hother with h1 h2 h3 h4 h5 <;> cases hother
  · exact Or.inl (Or.inr rfl)
  · rcases hread with hf | hread
    · exact Or.inl hf
    have hp := hread.nonempty
    have h0 := hread.start
    simp only [pathEnd, ha, if_true] at hp
    exact Or.inr ⟨by simp only; omega,read_question mem _ r _ p hread hsub ha rfl rfl rfl h2 hsp⟩
  · exact Or.inl (Or.inl rfl)
  · refine check_uri_put mem _ r _ p hsub ha hread ?_ hne rfl rfl rfl rfl rfl
    rw [h4]
    decide
  · refine check_uri_put mem _ r r p hsub ha hread ?_ hne rfl rfl rfl rfl rfl
    simp only [List.mem_cons, List.not_mem_nil, or_false]
    tauto

theorem check_uri_http_09_next (r r' : Request) (p : ℤ) (hinv : Inv mem .swCheckUriHttp09 r p)
    (h : move mem .swCheckUriHttp09 r p = .next state' r') : Inv mem state' r' (p+1) := by
  obtain ⟨ha,hsp,hinv⟩ := hinv
  have hsub : [PlainState.swUsual] ⊆ open2 := by simp [open2]
  have hp1 : p+1-1 = p := by omega
  simp only [move, checkUriHttp09Move, http09Move] at h
  split_ifs at h with h1 h2 h3 h4 <;> cases h
  · refine ⟨ha,by rw [hp1]; exact h1,hinv.imp_right ?_⟩
    rintro ⟨hread,hend⟩
    refine ⟨read_put mem _ r _ p hread hsub ha ha rfl rfl ?_,hend⟩
    intro _ _
    rw [h1]
    decide
  · exact hinv.imp_right (fun hr => read_congr mem _ r _ _ hr.2 rfl rfl rfl)
  · exact hinv.imp_right (fun hr => read_congr mem _ r _ _ hr.2 rfl rfl rfl)
  · refine ⟨ha,by rw [hp1]; exact h1,hinv.imp_right ?_⟩
    rintro ⟨hread,-⟩
    have hlt := hread.nonempty
    simp only [pathEnd, ha, if_true] at hlt
    have hlast := bytes_last mem r.uriStart p hlt
    rw [hsp] at hlast
    have hbad : Examined (bytes mem r.uriStart (p+1)) → question ∉ bytes mem r.uriStart p →
        mem p ∉ ([nul, percent, hash, question, slash, dot] : List UInt8) := by
      intro hex
      rw [bytes_succ mem _ _ (le_of_lt hlt)] at hex
      exact (examined_last _ _ hlast hex).1
    refine ⟨read_put mem _ r _ p hread hsub ha ha rfl rfl hbad,?_⟩
    intro hex hm
    rw [hp1] at hm
    obtain ⟨ext,state,-,-,hpath⟩ := hread.path (examined_step mem _ p (le_of_lt hlt) hex)
    simp only [pathEnd, ha, if_true] at hpath
    refine hbad hex (fun hq => hpath.no_special question hq (by decide)) ?_
    rw [hm]
    decide

theorem uri_next (r r' : Request) (p : ℤ) (hinv : Inv mem .swUri r p)
    (h : move mem .swUri r p = .next state' r') : Inv mem state' r' (p+1) := by
  have hp1 : p+1-1 = p := by omega
  simp only [move, uriMove, uriEndMove] at h
  split_ifs at h with h1 h2 h3 h4 h5 h6 <;> cases h
  · refine hinv.imp_right ?_
    rintro ⟨ha,hread⟩
    refine ⟨ha,read_args mem r r p hread ha rfl rfl rfl (Or.inl ?_)⟩
    intro hh
    have hm := (usual_copied _ h1).1
    rw [hh] at hm
    simp at hm
  · refine hinv.imp_right ?_
    rintro ⟨ha,hread⟩
    refine ⟨ha,by rw [hp1]; exact h2,read_args mem r _ p hread ha rfl rfl rfl (Or.inl ?_),
      read_congr mem _ r _ p hread rfl rfl rfl⟩
    rw [h2]
    decide
  · exact hinv.imp_right (fun hr => read_congr mem _ r _ p hr.2 rfl rfl rfl)
  · exact Or.inl (Or.inl rfl)
  · refine hinv.imp_right ?_
    rintro ⟨ha,hread⟩
    exact ⟨ha,read_args mem r r p hread ha rfl rfl rfl (Or.inl h5)⟩

theorem uri_http_09_next (r r' : Request) (p : ℤ) (hinv : Inv mem .swHttp09 r p)
    (h : move mem .swHttp09 r p = .next state' r') : Inv mem state' r' (p+1) := by
  have hp1 : p+1-1 = p := by omega
  simp only [move, uriHttp09Move, http09Move] at h
  split_ifs at h with h1 h2 h3 h4 <;> cases h
  · refine hinv.imp_right ?_
    rintro ⟨ha,hsp,hread,hend⟩
    refine ⟨ha,by rw [hp1]; exact h1,read_args mem r r p hread ha rfl rfl rfl (Or.inr hsp),hend⟩
  · exact hinv.imp_right (fun hr => read_congr mem _ r _ _ hr.2.2.2 rfl rfl rfl)
  · exact hinv.imp_right (fun hr => read_congr mem _ r _ _ hr.2.2.2 rfl rfl rfl)
  · refine hinv.imp_right ?_
    rintro ⟨ha,hsp,hread,-⟩
    exact ⟨ha,read_args mem r _ p hread ha rfl rfl rfl (Or.inr hsp)⟩

theorem outer_next (state state' : LineState) (r r' : Request) (p : ℤ) (hinv : Inv mem state r p)
    (h : move mem state r p = .next state' r')
    (hstate : state ∉ ([.swAfterSlashInUri, .swCheckUri, .swCheckUriHttp09, .swUri, .swHttp09] :
      List LineState)) : Inv mem state' r' (p+1) := by
  cases state with
  | swStart =>
    obtain ⟨hp,hf⟩ := hinv
    simp only [move, startMove] at h
    split_ifs at h <;> cases h <;> exact ⟨by omega,hf.no_ext,hf.no_args⟩
  | swMethod =>
    obtain ⟨hp,hf⟩ := hinv
    simp only [move, methodMove] at h
    split_ifs at h <;> cases h <;> exact ⟨by omega,hf.no_ext,hf.no_args⟩
  | swSpacesBeforeUri =>
    obtain ⟨hp,hf⟩ := hinv
    simp only [move, spacesBeforeUriMove] at h
    split_ifs at h with h1 h2 h3 <;> cases h
    · have hm : mem (p+1-1) = slash := by simpa using h1
      refine ⟨hf.no_args,by rw [hm]; decide,Or.inr ?_⟩
      exact read_single_slash mem _ p hp ⟨hf.no_ext,hf.no_args⟩ rfl h1
    · exact ⟨by omega,hf.no_ext,hf.no_args⟩
    · exact ⟨by omega,hf⟩
  | swSchema =>
    obtain ⟨hp,hf⟩ := hinv
    simp only [move, schemaMove] at h
    split_ifs at h <;> cases h
    · exact ⟨by omega,hf⟩
    · exact ⟨by omega,⟨hf.no_ext,hf.no_args⟩,hp,rfl⟩
  | swSchemaSlash =>
    obtain ⟨hp,hf,hs,he⟩ := hinv
    simp only [move, expectMove] at h
    split_ifs at h with h1
    cases h
    exact ⟨by omega,hf,hs,by rw [he]; exact h1⟩
  | swSchemaSlashSlash =>
    obtain ⟨hp,hf,hs,hm⟩ := hinv
    simp only [move, expectMove] at h
    split_ifs at h
    cases h
    exact ⟨by omega,⟨hf.no_ext,hf.no_args⟩,hs,hm⟩
  | swHost =>
    obtain ⟨hp,hf,hs,hm⟩ := hinv
    simp only [move, hostMove] at h
    split_ifs at h with h1 h2 h3 h4 <;> cases h
    · exact ⟨by omega,hf,hs,hm⟩
    · exact ⟨by omega,hf,hs,hm⟩
    · exact ⟨by omega,⟨hf.no_ext,hf.no_args⟩,hs,hm⟩
    · have hm' : mem (p+1-1) = slash := by simpa using h4
      refine ⟨hf.no_args,by rw [hm']; decide,Or.inr ?_⟩
      exact read_single_slash mem _ p hp ⟨hf.no_ext,hf.no_args⟩ rfl h4
    · exact bare_host_ended mem { r with hostEnd := p } ⟨hf.no_ext,hf.no_args⟩ hs hm
  | swPort =>
    obtain ⟨hp,hf,hs,hm⟩ := hinv
    simp only [move, portMove] at h
    split_ifs at h with h1 h2 h3 <;> cases h
    · exact ⟨by omega,hf,hs,hm⟩
    · have hm' : mem (p+1-1) = slash := by simpa using h2
      refine ⟨hf.no_args,by rw [hm']; decide,Or.inr ?_⟩
      exact read_single_slash mem _ p hp ⟨hf.no_ext,hf.no_args⟩ rfl h2
    · exact bare_host_ended mem { r with portEnd := p } ⟨hf.no_ext,hf.no_args⟩ hs hm
  | swHostHttp09 =>
    simp only [move, hostHttp09Move, http09Move] at h
    split_ifs at h <;> cases h <;> exact ended_congr mem r _ hinv rfl rfl rfl rfl rfl rfl
  | swAfterSlashInUri | swCheckUri | swCheckUriHttp09 | swUri | swHttp09 => simp at hstate
  | swHttpH | swHttpHT | swHttpHTT | swHttpHTTP =>
    simp only [move, expectMove] at h
    split_ifs at h
    cases h
    exact hinv
  | swFirstMajorDigit =>
    simp only [move, firstMajorDigitMove] at h
    split_ifs at h
    cases h
    exact ended_congr mem r _ hinv rfl rfl rfl rfl rfl rfl
  | swMajorDigit =>
    simp only [move, majorDigitMove] at h
    split_ifs at h <;> cases h <;> exact ended_congr mem r _ hinv rfl rfl rfl rfl rfl rfl
  | swFirstMinorDigit =>
    simp only [move, firstMinorDigitMove] at h
    split_ifs at h
    cases h
    exact ended_congr mem r _ hinv rfl rfl rfl rfl rfl rfl
  | swMinorDigit =>
    simp only [move, minorDigitMove] at h
    split_ifs at h <;> cases h <;> exact ended_congr mem r _ hinv rfl rfl rfl rfl rfl rfl
  | swSpacesAfterDigit =>
    simp only [move, spacesAfterDigitMove] at h
    split_ifs at h <;> cases h <;> exact hinv
  | swAlmostDone =>
    simp only [move, almostDoneMove] at h
    split_ifs at h

theorem inv_next (state : LineState) (r : Request) (p : ℤ) (state' : LineState) (r' : Request)
    (hinv : Inv mem state r p) (h : move mem state r p = .next state' r') :
    Inv mem state' r' (p+1) := by
  by_cases hstate : state ∈ ([.swAfterSlashInUri, .swCheckUri, .swCheckUriHttp09, .swUri,
      .swHttp09] : List LineState)
  · simp only [List.mem_cons, List.not_mem_nil, or_false] at hstate
    rcases hstate with rfl | rfl | rfl | rfl | rfl
    · exact after_slash_next mem state' r r' p hinv h
    · exact check_uri_next mem state' r r' p hinv h
    · exact check_uri_http_09_next mem state' r r' p hinv h
    · exact uri_next mem state' r r' p hinv h
    · exact uri_http_09_next mem state' r r' p hinv h
  · exact outer_next mem state state' r r' p hinv h hstate

theorem uri_end_done (spaces : LineState) (other : Move) (r r' : Request) (p : ℤ) (ch : UInt8)
    (h : uriEndMove spaces other r p ch = .done r') :
    r' = { r with uriEnd := p, httpMinor := 9 } ∨ other = .done r' := by
  unfold uriEndMove at h
  split_ifs at h
  · cases h
    exact Or.inl rfl
  · exact Or.inr h

theorem inv_done (state : LineState) (r : Request) (p : ℤ) (r' : Request) (hinv : Inv mem state r p)
    (h : move mem state r p = .done r') : Ended mem r' := by
  cases state with
  | swAfterSlashInUri =>
    obtain ⟨-,-,hread⟩ := hinv
    simp only [move, afterSlashInUriMove] at h
    rw [ite_eq_iff] at h
    rcases h with ⟨-,h⟩ | ⟨-,h⟩
    · cases h
    rcases uri_end_done _ _ r r' p _ h with rfl | hother
    · exact hread.imp_right (fun hr => read_congr mem _ r _ p hr rfl rfl rfl)
    · split_ifs at hother
  | swCheckUri =>
    obtain ⟨-,-,hread⟩ := hinv
    simp only [move, checkUriMove] at h
    by_cases hu : usual (mem p) = true ∨ mem p = slash ∨ mem p = dot
    · rcases hu with hu | hu | hu <;> split_ifs at h
    rw [not_or, not_or] at hu
    rw [if_neg hu.1, if_neg hu.2.1, if_neg hu.2.2] at h
    rcases uri_end_done _ _ r r' p _ h with rfl | hother
    · exact hread.imp_right (fun hr => read_congr mem _ r _ p
        (read_widen mem r p _ hr.1 (by simp [open2])) rfl rfl rfl)
    · split_ifs at hother
  | swCheckUriHttp09 =>
    obtain ⟨-,-,hread⟩ := hinv
    simp only [move, checkUriHttp09Move, http09Move] at h
    split_ifs at h
    cases h
    exact hread.imp_right (fun hr => read_congr mem _ r _ _ hr.2 rfl rfl rfl)
  | swUri =>
    simp only [move, uriMove, uriEndMove] at h
    split_ifs at h
    cases h
    exact hinv.imp_right (fun hr => read_congr mem _ r _ p hr.2 rfl rfl rfl)
  | swHttp09 =>
    simp only [move, uriHttp09Move, http09Move] at h
    split_ifs at h
    cases h
    exact hinv.imp_right (fun hr => read_congr mem _ r _ _ hr.2.2.2 rfl rfl rfl)
  | swHostHttp09 =>
    simp only [move, hostHttp09Move, http09Move] at h
    split_ifs at h
    cases h
    exact ended_congr mem r _ hinv rfl rfl rfl rfl rfl rfl
  | swMinorDigit =>
    simp only [move, minorDigitMove] at h
    split_ifs at h
    cases h
    exact hinv
  | swSpacesAfterDigit =>
    simp only [move, spacesAfterDigitMove] at h
    split_ifs at h
    cases h
    exact hinv
  | swAlmostDone =>
    simp only [move, almostDoneMove] at h
    split_ifs at h
    cases h
    exact ended_congr mem r _ hinv rfl rfl rfl rfl rfl rfl
  | swStart | swMethod | swSpacesBeforeUri | swSchema | swSchemaSlash | swSchemaSlashSlash
  | swHost | swPort | swHttpH | swHttpHT | swHttpHTT | swHttpHTTP | swFirstMajorDigit
  | swMajorDigit | swFirstMinorDigit =>
    simp only [move, startMove, methodMove, spacesBeforeUriMove, schemaMove, expectMove, hostMove,
      portMove, firstMajorDigitMove, majorDigitMove, firstMinorDigitMove] at h
    split_ifs at h

theorem parsed_line_ended (pos last next : ℤ) (r : Request) (hpos : 0 < pos)
    (h : ngxHttpParseRequestLine mem newRequest pos last = .ok r next) : Ended mem r := by
  obtain ⟨rd,q,hrd,hfin⟩ := parse_loop_accepts mem (Inv mem) (Ended mem) (inv_next mem)
    (inv_done mem) .swStart newRequest pos (last-pos).toNat ⟨hpos,rfl,rfl⟩ r next h
  simp only [finishLine] at hfin
  split_ifs at hfin <;> cases hfin <;> exact ended_congr mem rd _ hrd rfl rfl rfl rfl rfl rfl

theorem bytes_drop (first last : ℤ) (k : ℕ) (h : first+k ≤ last) :
    (bytes mem first last).drop k = bytes mem (first+k) last := by
  have hl : (bytes mem first (first+k)).length = k := by
    rw [bytes_length]
    omega
  rw [bytes_append mem first (first+k) last (by omega) h, List.drop_left' hl]

theorem turn_question (c : UriScan) (state : PlainState) (h : c.state = .plain state) :
    turn true c question = .args c := by
  rw [turn, h]
  show plainTurn true state c question = .args c
  rw [plain_turn_leave true state c question (Or.inr (Or.inl rfl))]
  rfl

theorem path_read_plain (raw : List UInt8) (ext : Option ℕ) (state : PlainState)
    (h : PathRead raw ext state) : Plain raw := by
  have hfind : ∀ (x : UInt8) (rest : List UInt8), (slash :: x :: rest) <:+: raw →
      x ≠ slash ∧ x ≠ dot := by
    rintro x rest ⟨pre,post,rfl⟩
    exact h.guarded pre x (rest ++ post) (by simp)
  refine ⟨fun ch hch hm => h.no_special ch hch ?_,fun hi => (hfind _ _ hi).1 rfl,
    fun hi => (hfind _ _ hi).2 rfl,fun hi => (hfind _ _ hi).2 rfl⟩
  simp only [List.mem_cons, List.not_mem_nil, or_false] at hm ⊢
  tauto

theorem uri_strings_eq (s t : UriStrings) (h1 : s.uri = t.uri) (h2 : s.exten = t.exten)
    (h3 : s.args = t.args) : s = t := by
  cases s
  cases t
  simp_all

theorem read_agrees (hc : r.complexUri = false) (hq : r.quotedUri = false)
    (h : Read mem open2 r r.uriEnd) (hex : Examined (rawUri mem r)) : Agrees mem r := by
  obtain ⟨ext,state,hstate,hext,hpath⟩ := h.path hex
  obtain ⟨c,hscan,hcs,hu,hce⟩ := hpath.scanned
  have hlt := h.nonempty
  have hstart := h.start
  refine ⟨?_,path_read_plain _ ext state hpath⟩
  have hexten : (pointerStrings mem r).exten = (finish c).exten := by
    simp only [pointerStrings, finish, hce, hu, List.reverse_reverse]
    cases ext with
    | none => simp only [ExtAt] at hext; rw [if_pos hext]
    | some k =>
      simp only [ExtAt] at hext
      rw [if_neg (by omega), hext]
      by_cases hk : r.uriStart+k ≤ pathEnd r r.uriEnd
      · exact (bytes_drop mem _ _ k hk).symm
      have hl : (bytes mem r.uriStart (pathEnd r r.uriEnd)).length ≤ k := by
        rw [bytes_length]
        omega
      rw [bytes_empty mem _ _ (by omega)]
      exact (List.drop_of_length_le hl).symm
  have huri : (pointerStrings mem r).uri = (finish c).uri := by
    simp only [pointerStrings, finish, hu, List.reverse_reverse]
  have hfast : ngxHttpProcessRequestLine mem r true = some (pointerStrings mem r) := by
    simp [ngxHttpProcessRequestLine, hc, hq]
  rw [hfast, ngxHttpParseComplexUri]
  by_cases ha : r.argsStart = 0
  · have hraw : rawUri mem r = bytes mem r.uriStart (pathEnd r r.uriEnd) ++ [] := by
      simp [rawUri, pathEnd, ha]
    have hargs : (pointerStrings mem r).args = (complexStrings (finish c)).args := by
      simp [pointerStrings, complexStrings, finish, ha]
    rw [hraw, scan_after true scanStart c _ [] hscan, scan, Option.map_some]
    exact congrArg some (uri_strings_eq _ _ huri hexten hargs)
  have hraw := read_question_mem mem open2 r r.uriEnd h ha
  have hnh := h.no_hash hex ha
  have hargs : (pointerStrings mem r).args =
      (complexStrings { finish c with argsStart := some (bytes mem r.argsStart r.uriEnd) }).args := by
    simp only [pointerStrings, complexStrings]
    by_cases hlt2 : r.argsStart < r.uriEnd
    · rw [if_pos ⟨ha,hlt2⟩, bytes_cons mem _ _ hlt2]
    · rw [if_neg (fun hh => hlt2 hh.2), bytes_empty mem _ _ (by omega)]
      rfl
  rw [rawUri, hraw, scan_after true scanStart c _ _ hscan, scan, turn_question c state hcs]
  simp only [finishArgs, if_neg hnh, Option.map_some]
  exact congrArg some (uri_strings_eq _ _ huri hexten hargs)

theorem complex_uri_subset (raw path : List UInt8) (p : ParsedUri)
    (h : ngxHttpParseComplexUri raw true = some p) (hp : pathBytes raw = some path) :
    p.uri ⊆ path := by
  have hw := scan_walk true raw scanStart .swUsual rfl
  have hs : scan true scanStart raw = some p := h
  rw [hs, hp, Option.bind_some, Option.map_some] at hw
  obtain ⟨w,hwalk,hrev⟩ := Option.map_eq_some_iff.mp hw.symm
  have hsub := DotSegments.walk_subset slash dot true path _ w hwalk
  intro x hx
  rw [← hrev, List.mem_reverse] at hx
  simpa [view, scanStart] using hsub hx

theorem path_bytes_question (pre rest : List UInt8)
    (h : ∀ ch ∈ pre, ch ∉ ([percent, hash, question] : List UInt8)) :
    pathBytes (pre ++ question :: rest) = some pre := by
  induction pre with
  | nil => exact path_bytes_end question rest (Or.inl rfl)
  | cons ch pre ih =>
    have hch := h ch (by simp)
    simp only [List.mem_cons, List.not_mem_nil, or_false, not_or] at hch
    rw [List.cons_append, path_bytes_plain ch _ (by tauto) hch.1,
      ih (fun x hx => h x (by simp [hx]))]
    rfl

theorem complex_args_no_hash (c : UriScan) (raw : List UInt8) (p : ParsedUri)
    (h : scan true c raw = some p) : hash ∉ (complexStrings p).args := by
  induction raw generalizing c with
  | nil =>
    simp only [scan, Option.some.injEq] at h
    simp [← h, complexStrings, finish]
  | cons ch raw ih =>
    rw [scan] at h
    cases ht : turn true c ch with
    | next d =>
      rw [ht] at h
      exact ih d h
    | args d =>
      simp only [ht, Option.some.injEq] at h
      rw [← h, finishArgs]
      split_ifs with hm
      · intro hh
        have hne := List.all_takeWhile (p := fun x => decide (x ≠ hash)) (l := raw)
        have hno := List.all_eq_true.mp hne hash hh
        simp at hno
      · cases raw <;> simp_all [complexStrings, finish]
    | done d =>
      simp only [ht, Option.some.injEq] at h
      simp [← h, complexStrings, finish]
    | invalid =>
      simp [ht] at h

/-- Agreement needs the parser to look behind every space for what only the
scanner can treat. -/
theorem agrees_none_skipped (hc : r.complexUri = false) (hq : r.quotedUri = false)
    (h : Read mem open2 r r.uriEnd) (hagree : Agrees mem r) : NoneSkipped (rawUri mem r) := by
  have hfast : ngxHttpProcessRequestLine mem r true = some (pointerStrings mem r) := by
    simp [ngxHttpProcessRequestLine, hc, hq]
  have hsame := hagree.same
  rw [hfast] at hsame
  obtain ⟨p,hp,hstrings⟩ := Option.map_eq_some_iff.mp hsame.symm
  have hspecial := hagree.plain.no_special
  rw [← hstrings] at hspecial
  have huri : p.uri = bytes mem r.uriStart (pathEnd r r.uriEnd) :=
    congrArg UriStrings.uri hstrings
  have hlt := h.nonempty
  intro pre ch post hraw
  constructor
  · intro hpre hch
    obtain ⟨tail,htail⟩ : ∃ tail, p.uri = pre ++ space :: ch :: tail := by
      by_cases ha : r.argsStart = 0
      · refine ⟨post,?_⟩
        rw [← hraw, rawUri, huri, pathEnd, if_pos ha]
      have hargs := read_question_mem mem open2 r r.uriEnd h ha
      have hlast := bytes_last mem _ _ hlt
      have hpe : pathEnd r r.uriEnd-1 = r.argsStart-2 := by
        simp only [pathEnd, if_neg ha]
        omega
      rw [hpe] at hlast
      rw [rawUri, hargs, ← huri] at hraw
      rw [← huri] at hlast
      rcases List.append_eq_append_iff.mp hraw with ⟨as,rfl,has⟩ | ⟨cs,hcs,hds⟩
      · cases as with
        | nil => simp at has
        | cons a as =>
          simp only [List.cons_append, List.cons.injEq] at has
          exact absurd (by simp [has.1]) hpre
      match cs, hcs, hds with
      | [], _, hds => simp at hds
      | [a], hcs, hds =>
        simp only [List.cons_append, List.cons.injEq] at hds
        rw [hcs, ← hds.1] at hlast
        simp only [List.getLast?_append, List.getLast?_singleton, Option.some_or,
          Option.some.injEq] at hlast
        exact absurd hlast.symm (h.args ha).2.2
      | a :: b :: cs, hcs, hds =>
        simp only [List.cons_append, List.cons.injEq] at hds
        exact ⟨cs,by rw [hcs, hds.1, hds.2.1]⟩
    have hmem : ch ∈ p.uri := by rw [htail]; simp
    have hno := hspecial ch hmem
    have hchq : ch = question := by
      simp only [List.mem_cons, List.not_mem_nil, or_false] at hch hno
      tauto
    subst hchq
    have hplain : ∀ x ∈ pre ++ [space], x ∉ ([percent, hash, question] : List UInt8) := by
      intro x hx hm
      have hxp : x ∈ p.uri := by
        rw [htail]
        rcases List.mem_append.mp hx with hx | hx
        · simp [hx]
        · simp [List.mem_singleton.mp hx]
      have hno := hspecial x hxp
      have hxq : x ≠ question := by
        rintro rfl
        rcases List.mem_append.mp hx with hx | hx
        · exact hpre hx
        · simp at hx
      simp only [List.mem_cons, List.not_mem_nil, or_false] at hm hno
      tauto
    have hpath := path_bytes_question (pre ++ [space]) post hplain
    have hraw' : rawUri mem r = (pre ++ [space]) ++ question :: post := by simp [hraw]
    rw [← hraw'] at hpath
    have hsub := complex_uri_subset _ _ p hp hpath hmem
    exact hplain question hsub (by simp)
  · rintro hpre rfl
    have hmem : hash ∈ rawUri mem r := by rw [hraw]; simp
    have huriNo : hash ∉ p.uri := fun hm => hspecial hash hm (by simp)
    by_cases ha : r.argsStart = 0
    · apply huriNo
      rw [huri, pathEnd, if_pos ha]
      exact hmem
    rw [rawUri, read_question_mem mem open2 r r.uriEnd h ha, ← huri] at hmem
    have hargs : hash ∈ bytes mem r.argsStart r.uriEnd := by
      simpa [huriNo] using hmem
    have hlt2 : r.argsStart < r.uriEnd := by
      by_contra hge
      rw [bytes_empty mem _ _ (by omega)] at hargs
      simp at hargs
    have hfa : (pointerStrings mem r).args = bytes mem r.argsStart r.uriEnd := by
      simp [pointerStrings, ha, hlt2]
    rw [← hfa, ← hstrings] at hargs
    exact complex_args_no_hash scanStart _ p hp hargs

/-- An accepted request line without flags: the pointer strings are the ones
of the scanner when every character of the URI has been looked at, and only
when none that needs the scanner has been skipped. -/
theorem fast_path_agrees (mem : Memory) (pos last next : ℤ) (r : Request) (hpos : 0 < pos)
    (h : ngxHttpParseRequestLine mem newRequest pos last = .ok r next)
    (hc : r.complexUri = false) (hq : r.quotedUri = false) :
    (Examined (rawUri mem r) → Agrees mem r) ∧
      (Agrees mem r → NoneSkipped (rawUri mem r)) := by
  have hread : Read mem open2 r r.uriEnd := by
    rcases parsed_line_ended mem pos last next r hpos h with hf | hread
    · simp [Flagged, hc, hq] at hf
    · exact hread
  exact ⟨read_agrees mem r hc hq hread,agrees_none_skipped mem r hc hq hread⟩

def stored (content : List UInt8) : Memory := fun p => content.getD (p-1).toNat 0

/-- `GET /a b`, a line whose URI holds a space before an ordinary character. -/
def spacedLine : Memory := stored [71,69,84,32,47,97,32,98,10]

/-- `GET /a ?b`, a line whose arguments begin directly after a space. -/
def skippedLine : Memory := stored [71,69,84,32,47,97,32,63,98,10]

def lineRequest (last : ℤ) : Request :=
  { newRequest with method := .get, httpMinor := 9, httpVersion := 9, spaceInUri := true,
                    requestStart := 1, requestEnd := last, methodEnd := 3, uriStart := 5,
                    uriEnd := last }

theorem fast_path_agrees_spaced :
    (Examined (rawUri spacedLine (lineRequest 9)) → Agrees spacedLine (lineRequest 9)) ∧
      (Agrees spacedLine (lineRequest 9) → NoneSkipped (rawUri spacedLine (lineRequest 9))) :=
  fast_path_agrees spacedLine 1 10 10 (lineRequest 9) (by decide) (by decide) rfl rfl

theorem question_mark_skipped : ¬∀ (mem : Memory) (pos last next : ℤ) (r : Request), 0 < pos →
    ngxHttpParseRequestLine mem newRequest pos last = .ok r next → r.complexUri = false →
    r.quotedUri = false → Agrees mem r := by
  intro h
  have ha := h skippedLine 1 11 11 (lineRequest 10) (by decide) (by decide) rfl rfl
  have hsame := ha.same
  revert hsame
  decide

end Nginx.RequestUriAgreement
