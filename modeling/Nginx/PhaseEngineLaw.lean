import Nginx.PhaseEngine

/-!
# What a request has passed when it reaches the content phase

The array is the phases one behind the other, each with its handlers from the last to
the first, so that every index belongs to one phase. A run keeps, behind the last
choice of a location, what the access handlers have returned. As long as the index is
in front of the access handlers nothing has been returned, every handler that the index
has passed has let the request through, and with `satisfy any` a refusal is kept in
`access_code` until the check behind the handlers, which only a grant jumps over.
-/

set_option autoImplicit false

namespace Nginx.PhaseEngineLaw
open Nginx.PhaseEngine

variable {H : Type*}

/-! ## The layout -/

@[grind =] def size (cmcf : MainConf H) : Phase → ℕ
  | .findConfig => 1
  | .postRewrite => (useRewrite cmcf).toNat
  | .postAccess => (useAccess cmcf).toNat
  | .tryFiles => cmcf.tryFiles.toNat
  | i => (cmcf.handlers i).length

def startOf (cmcf : MainConf H) (i : Phase) : ℕ :=
  ((phases.takeWhile (fun j => j ≠ i)).map (size cmcf)).sum

def endOf (cmcf : MainConf H) (i : Phase) : ℕ := startOf cmcf i+size cmcf i

def InPhase (cmcf : MainConf H) (i : Phase) (k : ℕ) : Prop :=
  startOf cmcf i ≤ k ∧ k < endOf cmcf i

def checkerOf : Phase → Checker
  | .postRead => .generic
  | .serverRewrite => .rewrite
  | .findConfig => .findConfig
  | .rewrite => .rewrite
  | .postRewrite => .postRewrite
  | .preaccess => .generic
  | .access => .access
  | .postAccess => .postAccess
  | .tryFiles => .tryFiles
  | .content => .content

def nextOf (cmcf : MainConf H) : Phase → ℕ
  | .findConfig => 0
  | .tryFiles => 0
  | .postRewrite => startOf cmcf .findConfig
  | .access => endOf cmcf .access+1
  | i => endOf cmcf i

def slots (cmcf : MainConf H) (i : Phase) : List (PhaseHandler H) :=
  match i with
  | .findConfig => [⟨.findConfig,none,0⟩]
  | .postRewrite => List.replicate (useRewrite cmcf).toNat ⟨.postRewrite,none,nextOf cmcf .postRewrite⟩
  | .postAccess => List.replicate (useAccess cmcf).toNat ⟨.postAccess,none,nextOf cmcf .postAccess⟩
  | .tryFiles => List.replicate cmcf.tryFiles.toNat ⟨.tryFiles,none,0⟩
  | i => (cmcf.handlers i).reverse.map (fun x => ⟨checkerOf i,some x,nextOf cmcf i⟩)

variable (cmcf : MainConf H)

theorem slots_length (i : Phase) : (slots cmcf i).length = size cmcf i := by
  cases i <;> simp [slots, size]

theorem slot_fields (i : Phase) (ph : PhaseHandler H) (h : ph ∈ slots cmcf i) :
    ph.checker = checkerOf i ∧ ph.next = nextOf cmcf i := by
  cases i with
  | findConfig =>
    rw [List.mem_singleton.mp h]
    exact ⟨rfl,rfl⟩
  | postRewrite | postAccess | tryFiles =>
    rw [(List.mem_replicate.mp h).2]
    exact ⟨rfl,rfl⟩
  | postRead | serverRewrite | rewrite | preaccess | access | content =>
    obtain ⟨x,-,rfl⟩ := List.mem_map.mp h
    exact ⟨rfl,rfl⟩

theorem access_used (haccess : cmcf.handlers .access ≠ []) : useAccess cmcf = true := by
  rw [useAccess, List.isEmpty_eq_false_iff.mpr haccess, Bool.not_false]

theorem init_handlers (haccess : cmcf.handlers .access ≠ []) :
    (ngxHttpInitPhaseHandlers cmcf).handlers = phases.flatMap (slots cmcf) ∧
    (ngxHttpInitPhaseHandlers cmcf).serverRewriteIndex = some (startOf cmcf .serverRewrite) ∧
    (ngxHttpInitPhaseHandlers cmcf).locationRewriteIndex = some (startOf cmcf .rewrite) := by
  have hused := access_used cmcf haccess
  have hswap (n : ℕ) : n+1+(cmcf.handlers .access).length = n+(cmcf.handlers .access).length+1 :=
    Nat.add_right_comm n 1 _
  by_cases hrewrite : useRewrite cmcf = true <;> by_cases htry : cmcf.tryFiles = true <;>
    simp [ngxHttpInitPhaseHandlers, phases, initPhase, Engine.register, Engine.push, slots, nextOf,
      endOf, startOf, size, checkerOf, hused, hrewrite, htry, ← Nat.add_assoc, hswap]

theorem init_fits (haccess : cmcf.handlers .access ≠ []) :
    (ngxHttpInitPhaseHandlers cmcf).handlers.length ≤ allocated cmcf := by
  rw [(init_handlers cmcf haccess).1]
  simp only [List.length_flatMap, slots_length, phases, List.map_cons, List.map_nil, List.sum_cons,
    List.sum_nil, size, allocated]
  omega

theorem starts :
    startOf cmcf .serverRewrite = endOf cmcf .postRead ∧
    startOf cmcf .findConfig = endOf cmcf .serverRewrite ∧
    startOf cmcf .rewrite = endOf cmcf .findConfig ∧
    startOf cmcf .postRewrite = endOf cmcf .rewrite ∧
    startOf cmcf .preaccess = endOf cmcf .postRewrite ∧
    startOf cmcf .access = endOf cmcf .preaccess ∧
    startOf cmcf .postAccess = endOf cmcf .access ∧
    startOf cmcf .tryFiles = endOf cmcf .postAccess ∧
    startOf cmcf .content = endOf cmcf .tryFiles := by
  simp [startOf, endOf, phases, Nat.add_assoc]

theorem slot_split (is : List Phase) (k : ℕ) (ph : PhaseHandler H)
    (h : (is.flatMap (slots cmcf))[k]? = some ph) :
    ∃ before i after, is = before++i::after ∧ (before.map (size cmcf)).sum ≤ k ∧
      k < (before.map (size cmcf)).sum+size cmcf i ∧ ph ∈ slots cmcf i := by
  induction is generalizing k with
  | nil => cases h
  | cons i is ih =>
    rw [List.flatMap_cons] at h
    by_cases hk : k < (slots cmcf i).length
    · rw [List.getElem?_append_left hk] at h
      exact ⟨[],i,is,rfl,Nat.zero_le k,by simpa [slots_length] using hk,List.mem_of_getElem? h⟩
    have hle := Nat.le_of_not_lt hk
    rw [List.getElem?_append_right hle] at h
    obtain ⟨before,j,after,his,hlow,hhigh,hmem⟩ := ih _ h
    rw [slots_length] at hle hlow hhigh
    refine ⟨i::before,j,after,by rw [his, List.cons_append],?_,?_,hmem⟩
    · rw [List.map_cons, List.sum_cons]
      omega
    · rw [List.map_cons, List.sum_cons]
      omega

theorem phases_nodup : phases.Nodup := by decide

theorem slot_phase (haccess : cmcf.handlers .access ≠ []) (k : ℕ) (ph : PhaseHandler H)
    (h : (ngxHttpInitPhaseHandlers cmcf).handlers[k]? = some ph) :
    ∃ i, InPhase cmcf i k ∧ ph.checker = checkerOf i ∧ ph.next = nextOf cmcf i := by
  rw [(init_handlers cmcf haccess).1] at h
  obtain ⟨before,i,after,hsplit,hlow,hhigh,hmem⟩ := slot_split cmcf phases k ph h
  have hbefore : phases.takeWhile (fun j => j ≠ i) = before := by
    have hnodup := phases_nodup
    rw [hsplit] at hnodup ⊢
    have hnot : ∀ j ∈ before, decide (j ≠ i) = true := fun j hj =>
      decide_eq_true ((List.nodup_append.mp hnodup).2.2 j hj i List.mem_cons_self)
    rw [List.takeWhile_append_of_pos hnot, List.takeWhile_cons_of_neg (by simp), List.append_nil]
  obtain ⟨hchecker,hnext⟩ := slot_fields cmcf i ph hmem
  refine ⟨i,⟨?_,?_⟩,hchecker,hnext⟩
  · rwa [startOf, hbefore]
  · rwa [endOf, startOf, hbefore]

theorem handlers_length (haccess : cmcf.handlers .access ≠ []) :
    (ngxHttpInitPhaseHandlers cmcf).handlers.length = endOf cmcf .content := by
  rw [(init_handlers cmcf haccess).1]
  simp only [List.length_flatMap, slots_length, endOf, startOf]
  simp [phases, Nat.add_assoc]

theorem access_handlers (haccess : cmcf.handlers .access ≠ []) :
    ((ngxHttpInitPhaseHandlers cmcf).handlers.filter (fun ph => ph.checker = .access)).map
      PhaseHandler.handler = (cmcf.handlers .access).reverse.map some := by
  rw [(init_handlers cmcf haccess).1]
  simp [phases, slots, checkerOf, List.filter_map, Function.comp_def]

/-! ## Runs -/

/-- A request with what the access handlers in their slots have returned since a location
was last chosen. -/
structure Run where
  r : Request
  results : List (ℕ × ℤ)

inductive Act where
  | turn (a : Answer)
  | resume
  | redirect (a : Answer) (args : List UInt8)
  | named (found : Option (LocConf × Option LocConf))

def noted (e : Engine H) (r : Request) (results : List (ℕ × ℤ)) (a : Answer) : List (ℕ × ℤ) :=
  match (e.handlers[r.phaseHandler]?).map PhaseHandler.checker with
  | some .findConfig => []
  | some .access => if r.main then results++[(r.phaseHandler, a.rc)] else results
  | _ => results

/-- A handler that waits is called again; a redirect comes from a handler that has returned
`NGX_DONE`, or from the finalization of the request. -/
def apply (e : Engine H) (s : Run) : Act → Option Run
  | .turn a =>
    if s.r.status = .running then some ⟨turn e s.r a,noted e s.r s.results a⟩ else none
  | .resume =>
    if s.r.status = .waiting then some ⟨{ s.r with status := .running },s.results⟩ else none
  | .redirect a args =>
    if s.r.status = .running then none
    else some ⟨ngxHttpInternalRedirect e s.r a args,s.results⟩
  | .named found =>
    if s.r.status = .running then none else some ⟨ngxHttpNamedLocation e s.r found,[]⟩

inductive Reached (cmcf : MainConf H) : Run → Prop
  | init (r : Request) (hmain : r.main = true) (hstart : r.phaseHandler = 0)
      (hrunning : r.status = .running) : Reached cmcf ⟨r,[]⟩
  | step (s s' : Run) (act : Act) (h : Reached cmcf s)
      (hstep : apply (ngxHttpInitPhaseHandlers cmcf) s act = some s') : Reached cmcf s'

/-- A result with which `satisfy all` goes on, now or when the handler is called again. -/
def Passed (rc : ℤ) : Prop := rc = ngxOk ∨ rc = ngxDeclined ∨ rc = ngxAgain ∨ rc = ngxDone

def Denied (rc : ℤ) : Prop := rc = ngxHttpForbidden ∨ rc = ngxHttpUnauthorized

/-- Every access handler up to the index has let the request through, and none has not. -/
def AllPassed (cmcf : MainConf H) (k : ℕ) (results : List (ℕ × ℤ)) : Prop :=
  (∀ j, InPhase cmcf .access j → j < k → (j, ngxOk) ∈ results ∨ (j, ngxDeclined) ∈ results) ∧
  ∀ x ∈ results, Passed x.2

/-- A handler has granted access, or none has refused it, or a refusal is still to be acted on. -/
def AnyPassed (cmcf : MainConf H) (k : ℕ) (accessCode : ℤ) (results : List (ℕ × ℤ)) : Prop :=
  (∃ x ∈ results, x.2 = ngxOk) ∨ (∀ x ∈ results, ¬ Denied x.2) ∨
    (accessCode ≠ 0 ∧ k ≤ startOf cmcf .postAccess)

/-- What is known of a request whose index is behind the choice of its location. -/
def Held (cmcf : MainConf H) (r : Request) (results : List (ℕ × ℤ)) : Prop :=
  startOf cmcf .findConfig < r.phaseHandler →
    (r.loc.satisfyAll = true → AllPassed cmcf r.phaseHandler results) ∧
    (r.loc.satisfyAll = false → AnyPassed cmcf r.phaseHandler r.accessCode results)

structure Inv (cmcf : MainConf H) (s : Run) : Prop where
  main : s.r.main = true
  held : s.r.status = .running ∨ s.r.status = .waiting → Held cmcf s.r s.results

/-! ## One step -/

section Steps

variable (cmcf : MainConf H)

/-- What a checker must leave: the request goes on or waits under `Held`, or is finalized. -/
def Good (results : List (ℕ × ℤ)) (c : Checked) : Prop :=
  c.1.main = true ∧ (c.1.status = .running ∧ Held cmcf c.1 results ∨ ∃ rc, c.1.status = .finalized rc)

variable (results : List (ℕ × ℤ)) (r : Request) (rc : ℤ)

theorem good_goes_on (hmain : r.main = true) (hrunning : r.status = .running)
    (hheld : Held cmcf r results) : Good cmcf results (r, rc) :=
  ⟨hmain,Or.inl ⟨hrunning,hheld⟩⟩

theorem good_finalized (code rc : ℤ) (hmain : r.main = true) :
    Good cmcf results (r.finalize code, rc) :=
  ⟨hmain,Or.inr ⟨code,rfl⟩⟩

theorem settle_inv (c : Checked) (h : Good cmcf results c) : Inv cmcf ⟨settle c,results⟩ := by
  obtain ⟨hmain,⟨hrunning,hheld⟩ | ⟨rc,hfinal⟩⟩ := h
  · rw [settle, if_pos hrunning]
    split_ifs
    · exact ⟨hmain,fun _ => hheld⟩
    · exact ⟨hmain,fun _ => hheld⟩
  · have hsame : settle c = c.1 := by simp [settle, hfinal]
    rw [hsame]
    refine ⟨hmain,fun hstatus => ?_⟩
    simp only [hfinal] at hstatus
    rcases hstatus with hstatus | hstatus <;> cases hstatus

theorem held_front (results : List (ℕ × ℤ)) (h : r.phaseHandler ≤ startOf cmcf .findConfig) :
    Held cmcf r results :=
  fun hlt => absurd hlt (Nat.not_lt.mpr h)

theorem held_before (results : List (ℕ × ℤ)) (k : ℕ) (h : Held cmcf r results)
    (hbehind : startOf cmcf .findConfig < r.phaseHandler) (hk : k ≤ startOf cmcf .access) :
    Held cmcf { r with phaseHandler := k } results := by
  obtain ⟨-,-,-,-,-,-,hpost,-⟩ := starts cmcf
  obtain ⟨hall,hany⟩ := h hbehind
  refine fun _ => ⟨fun hs => ⟨fun j hj hlt => ?_,(hall hs).2⟩,fun hs => ?_⟩
  · have := hj.1
    exact absurd hlt (by change ¬ j < k; omega)
  · rcases hany hs with hok | hnone | ⟨hcode,-⟩
    · exact Or.inl hok
    · exact Or.inr (Or.inl hnone)
    refine Or.inr (Or.inr ⟨hcode,?_⟩)
    have : endOf cmcf .access = startOf cmcf .access+size cmcf .access := rfl
    change k ≤ startOf cmcf .postAccess
    omega

variable (ph : PhaseHandler H) (a : Answer)

theorem generic_good (hmain : r.main = true) (hrunning : r.status = .running)
    (hheld : Held cmcf r results) (hnext : Held cmcf { r with phaseHandler := ph.next } results)
    (hdeclined : Held cmcf r.nextHandler results) :
    Good cmcf results (ngxHttpCoreGenericPhase r ph a) := by
  unfold ngxHttpCoreGenericPhase
  split_ifs
  · exact good_goes_on cmcf results _ _ hmain hrunning hnext
  · exact good_goes_on cmcf results _ _ hmain hrunning hdeclined
  · exact good_goes_on cmcf results _ _ hmain hrunning hheld
  · exact good_finalized cmcf results _ _ _ hmain

theorem rewrite_good (hmain : r.main = true) (hrunning : r.status = .running)
    (hheld : Held cmcf r results) (hdeclined : Held cmcf r.nextHandler results) :
    Good cmcf results (ngxHttpCoreRewritePhase r a) := by
  unfold ngxHttpCoreRewritePhase
  simp only
  split_ifs
  · exact good_goes_on cmcf results _ _ hmain hrunning hdeclined
  · exact good_goes_on cmcf results _ _ hmain hrunning hheld
  · exact good_finalized cmcf results _ _ _ hmain

theorem held_chosen (h : r.phaseHandler ≤ startOf cmcf .access) : Held cmcf r [] := by
  refine fun _ => ⟨fun _ => ⟨fun j hj hlt => absurd hlt ?_,fun x hx => absurd hx List.not_mem_nil⟩,
    fun _ => Or.inr (Or.inl fun x hx => absurd hx List.not_mem_nil)⟩
  have := hj.1
  omega

theorem find_config_good (hmain : r.main = true) (hrunning : r.status = .running)
    (hk : r.phaseHandler+1 ≤ startOf cmcf .access) :
    Good cmcf [] (ngxHttpCoreFindConfigPhase r a) := by
  unfold ngxHttpCoreFindConfigPhase
  simp only
  split_ifs
  · exact good_finalized cmcf [] _ _ _ hmain
  · exact good_finalized cmcf [] _ _ _ hmain
  · exact good_finalized cmcf [] _ _ _ hmain
  · exact good_finalized cmcf [] _ _ _ hmain
  · exact good_goes_on cmcf [] _ _ hmain hrunning (held_chosen cmcf _ hk)

theorem post_rewrite_good (hmain : r.main = true) (hrunning : r.status = .running)
    (hdeclined : Held cmcf r.nextHandler results) (hnext : ph.next ≤ startOf cmcf .findConfig) :
    Good cmcf results (ngxHttpCorePostRewritePhase r ph a) := by
  unfold ngxHttpCorePostRewritePhase
  simp only
  split_ifs
  · exact good_goes_on cmcf results _ _ hmain hrunning hdeclined
  · exact good_finalized cmcf results _ _ _ hmain
  · exact good_goes_on cmcf results _ _ hmain hrunning (held_front cmcf _ _ hnext)

variable (k : ℕ)

theorem access_bounds (hk : InPhase cmcf .access k) :
    startOf cmcf .findConfig < k ∧ k < startOf cmcf .postAccess := by
  obtain ⟨-,-,h3,h4,h5,h6,h7,-⟩ := starts cmcf
  obtain ⟨hlow,hhigh⟩ := hk
  have hconfig : endOf cmcf .findConfig = startOf cmcf .findConfig+1 := rfl
  have hrewrite : endOf cmcf .rewrite = startOf cmcf .rewrite+size cmcf .rewrite := rfl
  have hpost : endOf cmcf .postRewrite = startOf cmcf .postRewrite+size cmcf .postRewrite := rfl
  have hpre : endOf cmcf .preaccess = startOf cmcf .preaccess+size cmcf .preaccess := rfl
  omega

theorem passed_not_denied (h : Passed rc) : ¬ Denied rc := by
  unfold Denied
  rcases h with rfl | rfl | rfl | rfl <;> decide

theorem held_noted (results : List (ℕ × ℤ)) (rc : ℤ) (k : ℕ) (h : Held cmcf r results)
    (hslot : InPhase cmcf .access r.phaseHandler) (hpassed : Passed rc)
    (hk : k = r.phaseHandler ∨ k = r.phaseHandler+1 ∧ (rc = ngxOk ∨ rc = ngxDeclined)) :
    Held cmcf { r with phaseHandler := k } (results++[(r.phaseHandler, rc)]) := by
  obtain ⟨hfront,hback⟩ := access_bounds cmcf r.phaseHandler hslot
  obtain ⟨hall,hany⟩ := h hfront
  refine fun _ => ⟨fun hs => ⟨fun j hj hlt => ?_,fun x hx => ?_⟩,fun hs => ?_⟩
  · rcases Nat.lt_or_ge j r.phaseHandler with hbefore | hge
    · rcases (hall hs).1 j hj hbefore with hok | hdeclined
      · exact Or.inl (List.mem_append_left _ hok)
      · exact Or.inr (List.mem_append_left _ hdeclined)
    rcases hk with rfl | ⟨rfl,hrc⟩
    · exact absurd hlt (Nat.not_lt.mpr hge)
    have hlast : (j, rc) ∈ results++[(r.phaseHandler, rc)] := by
      rw [Nat.le_antisymm (Nat.lt_succ_iff.mp hlt) hge]
      exact List.mem_append_right _ List.mem_cons_self
    rcases hrc with rfl | rfl
    · exact Or.inl hlast
    · exact Or.inr hlast
  · rcases List.mem_append.mp hx with hx | hx
    · exact (hall hs).2 x hx
    · rw [List.mem_singleton.mp hx]
      exact hpassed
  · rcases hany hs with ⟨x,hx,hok⟩ | hnone | ⟨hcode,-⟩
    · exact Or.inl ⟨x,List.mem_append_left _ hx,hok⟩
    · refine Or.inr (Or.inl fun x hx => ?_)
      rcases List.mem_append.mp hx with hx | hx
      · exact hnone x hx
      · rw [List.mem_singleton.mp hx]
        exact passed_not_denied rc hpassed
    refine Or.inr (Or.inr ⟨hcode,?_⟩)
    change k ≤ startOf cmcf .postAccess
    omega

theorem access_good (hmain : r.main = true) (hrunning : r.status = .running)
    (hheld : Held cmcf r results) (hslot : InPhase cmcf .access r.phaseHandler) :
    Good cmcf (results++[(r.phaseHandler, a.rc)]) (ngxHttpCoreAccessPhase r ph a) := by
  obtain ⟨-,hback⟩ := access_bounds cmcf r.phaseHandler hslot
  unfold ngxHttpCoreAccessPhase
  split_ifs with hnot hdeclined hwaits hall hok hok hdenied
  · exact absurd hmain (by rw [hnot]; decide)
  · exact good_goes_on cmcf _ _ _ hmain hrunning (held_noted cmcf r results a.rc _ hheld hslot
      (Or.inr (Or.inl hdeclined)) (Or.inr ⟨rfl,Or.inr hdeclined⟩))
  · exact good_goes_on cmcf _ _ _ hmain hrunning (held_noted cmcf r results a.rc _ hheld hslot
      (Or.inr (Or.inr hwaits)) (Or.inl rfl))
  · exact good_goes_on cmcf _ _ _ hmain hrunning (held_noted cmcf r results a.rc _ hheld hslot
      (Or.inl hok) (Or.inr ⟨rfl,Or.inl hok⟩))
  · exact good_finalized cmcf _ _ _ _ hmain
  · refine good_goes_on cmcf _ _ _ hmain hrunning (fun _ => ⟨fun hs => absurd hs hall,fun _ => ?_⟩)
    exact Or.inl ⟨_,List.mem_append_right _ List.mem_cons_self,hok⟩
  · refine good_goes_on cmcf _ _ _ hmain hrunning (fun _ => ⟨fun hs => absurd hs hall,fun _ => ?_⟩)
    refine Or.inr (Or.inr ⟨?_,hback⟩)
    change a.rc ≠ 0
    rcases hdenied with hrc | hrc <;> rw [hrc] <;> decide
  · exact good_finalized cmcf _ _ _ _ hmain

theorem held_after (results : List (ℕ × ℤ)) (h : Held cmcf r results)
    (hfront : startOf cmcf .postAccess ≤ r.phaseHandler)
    (hcode : startOf cmcf .postAccess < r.phaseHandler ∨ r.accessCode = 0)
    (hconfig : startOf cmcf .findConfig < r.phaseHandler) : Held cmcf r.nextHandler results := by
  obtain ⟨hall,hany⟩ := h hconfig
  obtain ⟨-,-,-,-,-,-,hpost,-⟩ := starts cmcf
  refine fun _ => ⟨fun hs => ⟨fun j hj hlt => (hall hs).1 j hj ?_,(hall hs).2⟩,fun hs => ?_⟩
  · have := hj.2
    omega
  · rcases hany hs with hok | hnone | ⟨hne,hle⟩
    · exact Or.inl hok
    · exact Or.inr (Or.inl hnone)
    rcases hcode with hlt | hzero
    · omega
    · exact absurd hzero hne

theorem post_access_good (hmain : r.main = true) (hrunning : r.status = .running)
    (hafter : r.accessCode = 0 → Held cmcf r.nextHandler results) :
    Good cmcf results (ngxHttpCorePostAccessPhase r) := by
  unfold ngxHttpCorePostAccessPhase
  split_ifs with hcode
  · exact good_finalized cmcf results _ _ _ hmain
  · exact good_goes_on cmcf results _ _ hmain hrunning (hafter (not_not.mp hcode))

theorem try_files_good (hmain : r.main = true) (hrunning : r.status = .running)
    (hafter : Held cmcf r.nextHandler results) :
    Good cmcf results (ngxHttpCoreTryFilesPhase r a) := by
  unfold ngxHttpCoreTryFilesPhase
  split_ifs
  · exact good_goes_on cmcf results _ _ hmain hrunning hafter
  · exact good_goes_on cmcf results _ _ hmain hrunning hafter
  · exact good_finalized cmcf results _ _ _ hmain

theorem content_good (e : Engine H) (results : List (ℕ × ℤ)) (r : Request) (a : Answer)
    (hmain : r.main = true) (hrunning : r.status = .running)
    (hafter : Held cmcf r.nextHandler results) :
    Good cmcf results (ngxHttpCoreContentPhase e r a) := by
  unfold ngxHttpCoreContentPhase
  split_ifs
  · exact good_finalized cmcf results _ _ _ hmain
  · exact good_finalized cmcf results _ _ _ hmain
  · exact good_goes_on cmcf results _ _ hmain hrunning hafter
  · exact good_finalized cmcf results _ _ _ hmain
  · exact good_finalized cmcf results _ _ _ hmain

theorem turn_inv (haccess : cmcf.handlers .access ≠ []) (s : Run) (a : Answer) (h : Inv cmcf s)
    (hrunning : s.r.status = .running) :
    Inv cmcf ⟨turn (ngxHttpInitPhaseHandlers cmcf) s.r a,
      noted (ngxHttpInitPhaseHandlers cmcf) s.r s.results a⟩ := by
  unfold turn noted
  cases hget : (ngxHttpInitPhaseHandlers cmcf).handlers[s.r.phaseHandler]? with
  | none => exact ⟨h.main,fun hstatus => by rcases hstatus with hstatus | hstatus <;> cases hstatus⟩
  | some ph =>
    obtain ⟨i,⟨hlow,hhigh⟩,hchecker,hnext⟩ := slot_phase cmcf haccess _ ph hget
    obtain ⟨h1,h2,h3,h4,h5,h6,h7,h8,h9⟩ := starts cmcf
    have hend : ∀ j, endOf cmcf j = startOf cmcf j+size cmcf j := fun j => rfl
    have hconfig : size cmcf .findConfig = 1 := rfl
    have hlast : size cmcf .postAccess = 1 := by rw [size, access_used cmcf haccess, Bool.toNat_true]
    have hs1 := hend .serverRewrite
    have hs2 := hend .findConfig
    have hs3 := hend .rewrite
    have hs4 := hend .postRewrite
    have hs5 := hend .preaccess
    have hs6 := hend .access
    have hs7 := hend .postAccess
    have hs8 := hend .tryFiles
    have hmain := h.main
    have hheld := h.held (Or.inl hrunning)
    simp only [Option.map_some, hchecker]
    refine settle_inv cmcf _ _ ?_
    rw [check, hchecker]
    cases i with
    | postRead =>
      refine generic_good cmcf _ _ ph a hmain hrunning hheld (held_front cmcf _ _ ?_)
        (held_front cmcf _ _ ?_)
      · have hafter : ph.next = endOf cmcf .postRead := hnext
        change ph.next ≤ startOf cmcf .findConfig
        omega
      · change s.r.phaseHandler+1 ≤ startOf cmcf .findConfig
        omega
    | serverRewrite =>
      refine rewrite_good cmcf _ _ a hmain hrunning hheld (held_front cmcf _ _ ?_)
      change s.r.phaseHandler+1 ≤ startOf cmcf .findConfig
      omega
    | findConfig => exact find_config_good cmcf _ a hmain hrunning (by omega)
    | rewrite =>
      exact rewrite_good cmcf _ _ a hmain hrunning hheld
        (held_before cmcf s.r _ _ hheld (by omega) (by omega))
    | postRewrite =>
      refine post_rewrite_good cmcf _ _ ph a hmain hrunning
        (held_before cmcf s.r _ _ hheld (by omega) (by omega)) (Nat.le_of_eq hnext)
    | preaccess =>
      refine generic_good cmcf _ _ ph a hmain hrunning hheld
        (held_before cmcf s.r _ _ hheld (by omega) ?_)
        (held_before cmcf s.r _ _ hheld (by omega) (by omega))
      exact Nat.le_of_eq (hnext.trans h6.symm)
    | access =>
      simp only [checkerOf, hmain, if_true]
      exact access_good cmcf _ _ ph a hmain hrunning hheld ⟨hlow,hhigh⟩
    | postAccess =>
      exact post_access_good cmcf _ _ hmain hrunning (fun hzero =>
        held_after cmcf s.r _ hheld hlow (Or.inr hzero) (by omega))
    | tryFiles =>
      exact try_files_good cmcf _ _ a hmain hrunning
        (held_after cmcf s.r _ hheld (by omega) (Or.inl (by omega)) (by omega))
    | content =>
      exact content_good cmcf _ _ _ a hmain hrunning
        (held_after cmcf s.r _ hheld (by omega) (Or.inl (by omega)) (by omega))

theorem redirect_inv (haccess : cmcf.handlers .access ≠ []) (s : Run) (a : Answer) (args : List UInt8)
    (h : Inv cmcf s) :
    Inv cmcf ⟨ngxHttpInternalRedirect (ngxHttpInitPhaseHandlers cmcf) s.r a args,s.results⟩ := by
  obtain ⟨-,hserver,-⟩ := init_handlers cmcf haccess
  obtain ⟨h1,h2,-⟩ := starts cmcf
  unfold ngxHttpInternalRedirect
  simp only [hserver]
  split_ifs
  · exact ⟨h.main,fun hstatus => by rcases hstatus with hstatus | hstatus <;> cases hstatus⟩
  · refine ⟨h.main,fun _ => held_front cmcf _ _ ?_⟩
    change startOf cmcf .serverRewrite ≤ startOf cmcf .findConfig
    rw [h2, endOf]
    exact Nat.le_add_right _ _

theorem named_inv (haccess : cmcf.handlers .access ≠ []) (s : Run)
    (found : Option (LocConf × Option LocConf)) (h : Inv cmcf s) :
    Inv cmcf ⟨ngxHttpNamedLocation (ngxHttpInitPhaseHandlers cmcf) s.r found,[]⟩ := by
  obtain ⟨-,-,hlocation⟩ := init_handlers cmcf haccess
  obtain ⟨-,-,-,h4,h5,h6,-⟩ := starts cmcf
  unfold ngxHttpNamedLocation
  simp only [hlocation]
  split_ifs
  · exact ⟨h.main,fun hstatus => by rcases hstatus with hstatus | hstatus <;> cases hstatus⟩
  · cases found with
    | none => exact ⟨h.main,fun hstatus => by rcases hstatus with hstatus | hstatus <;> cases hstatus⟩
    | some found =>
      refine ⟨h.main,fun _ => held_chosen cmcf _ ?_⟩
      change startOf cmcf .rewrite ≤ startOf cmcf .access
      simp only [h6, h5, h4, endOf, Nat.add_assoc]
      exact Nat.le_add_right _ _

theorem apply_inv (haccess : cmcf.handlers .access ≠ []) (s s' : Run) (act : Act) (h : Inv cmcf s)
    (hstep : apply (ngxHttpInitPhaseHandlers cmcf) s act = some s') : Inv cmcf s' := by
  cases act with
  | turn a =>
    rw [apply] at hstep
    split_ifs at hstep with hrunning
    cases hstep
    exact turn_inv cmcf haccess s a h hrunning
  | resume =>
    rw [apply] at hstep
    split_ifs at hstep with hwaiting
    cases hstep
    exact ⟨h.main,fun _ => h.held (Or.inr hwaiting)⟩
  | redirect a args =>
    rw [apply] at hstep
    split_ifs at hstep
    cases hstep
    exact redirect_inv cmcf haccess s a args h
  | named found =>
    rw [apply] at hstep
    split_ifs at hstep
    cases hstep
    exact named_inv cmcf haccess s found h

theorem reached_inv (haccess : cmcf.handlers .access ≠ []) (s : Run) (h : Reached cmcf s) :
    Inv cmcf s := by
  induction h with
  | init r hmain hstart hrunning =>
    refine ⟨hmain,fun _ => held_front cmcf _ _ ?_⟩
    change r.phaseHandler ≤ startOf cmcf .findConfig
    omega
  | step s s' act h hstep ih => exact apply_inv cmcf haccess s s' act ih hstep

end Steps

/-! ## Jumps -/

variable (r : Request) (a : Answer)

theorem find_config_moves :
    (ngxHttpCoreFindConfigPhase r a).1.phaseHandler = r.phaseHandler ∨
    (ngxHttpCoreFindConfigPhase r a).1.phaseHandler = r.phaseHandler+1 := by
  unfold ngxHttpCoreFindConfigPhase
  simp only
  split_ifs
  · exact Or.inl rfl
  · exact Or.inl rfl
  · exact Or.inl rfl
  · exact Or.inl rfl
  · exact Or.inr rfl

theorem check_moves (e : Engine H) (r : Request) (ph : PhaseHandler H) (a : Answer) :
    (check e r ph a).1.phaseHandler = r.phaseHandler ∨
    (check e r ph a).1.phaseHandler = r.phaseHandler+1 ∨
    ((check e r ph a).1.phaseHandler = ph.next ∧
      (ph.checker = .generic ∨ ph.checker = .access ∨ ph.checker = .postRewrite)) := by
  unfold check
  cases hc : ph.checker with
  | generic =>
    simp only [ngxHttpCoreGenericPhase]
    split_ifs <;> simp [Request.nextHandler, Request.finalize]
  | rewrite =>
    simp only [ngxHttpCoreRewritePhase]
    split_ifs <;> simp [Request.nextHandler, Request.finalize]
  | findConfig =>
    rcases find_config_moves r a with hsame | hone
    · exact Or.inl hsame
    · exact Or.inr (Or.inl hone)
  | postRewrite =>
    simp only [ngxHttpCorePostRewritePhase]
    split_ifs <;> simp [Request.nextHandler, Request.finalize]
  | access =>
    simp only [ngxHttpCoreAccessPhase]
    split_ifs <;> simp [Request.nextHandler, Request.finalize]
  | postAccess =>
    simp only [ngxHttpCorePostAccessPhase]
    split_ifs <;> simp [Request.nextHandler, Request.finalize]
  | tryFiles =>
    simp only [ngxHttpCoreTryFilesPhase]
    split_ifs <;> simp [Request.nextHandler, Request.finalize]
  | content =>
    simp only [ngxHttpCoreContentPhase]
    split_ifs <;> simp [Request.nextHandler, Request.finalize]

theorem settle_index (c : Checked) : (settle c).phaseHandler = c.1.phaseHandler := by
  unfold settle
  split_ifs <;> rfl

/-- A jump forward stays in the array, and passes slots of its own phase only, and the check
behind the access handlers. -/
structure Jump (cmcf : MainConf H) (i : Phase) (k : ℕ) (ph : PhaseHandler H) : Prop where
  phase : InPhase cmcf i k
  forward : ph.checker = .generic ∨ ph.checker = .access → k < ph.next ∧
    ph.next ≤ (ngxHttpInitPhaseHandlers cmcf).handlers.length ∧
    ∀ j m, InPhase cmcf j m → k < m → m < ph.next → j = i ∨ j = .postAccess
  back : ph.checker = .postRewrite → InPhase cmcf .findConfig ph.next

theorem jump_stays (haccess : cmcf.handlers .access ≠ []) (k : ℕ) (ph : PhaseHandler H)
    (h : (ngxHttpInitPhaseHandlers cmcf).handlers[k]? = some ph) : ∃ i, Jump cmcf i k ph := by
  obtain ⟨i,⟨hlow,hhigh⟩,hchecker,hnext⟩ := slot_phase cmcf haccess k ph h
  obtain ⟨h1,h2,h3,h4,h5,h6,h7,h8,h9⟩ := starts cmcf
  have hend : ∀ j, endOf cmcf j = startOf cmcf j+size cmcf j := fun j => rfl
  have hconfig : size cmcf .findConfig = 1 := rfl
  have hlast : size cmcf .postAccess = 1 := by rw [size, access_used cmcf haccess, Bool.toNat_true]
  have hs0 := hend .postRead
  have hs1 := hend .serverRewrite
  have hs2 := hend .findConfig
  have hs3 := hend .rewrite
  have hs4 := hend .postRewrite
  have hs5 := hend .preaccess
  have hs6 := hend .access
  have hs7 := hend .postAccess
  have hs8 := hend .tryFiles
  have hs9 := hend .content
  refine ⟨i,⟨hlow,hhigh⟩,fun hc => ?_,fun hc => ?_⟩
  · rw [handlers_length cmcf haccess]
    rw [hchecker] at hc
    cases i with
    | postRead | preaccess | access =>
      simp only [nextOf] at hnext
      refine ⟨by omega,by omega,fun j m hm hkm hmn => ?_⟩
      obtain ⟨hjlow,hjhigh⟩ := hm
      cases j <;> first | exact Or.inl rfl | exact Or.inr rfl | (exfalso; omega)
    | serverRewrite | findConfig | rewrite | postRewrite | postAccess | tryFiles | content =>
      rcases hc with hc | hc <;> cases hc
  · rw [hchecker] at hc
    cases i with
    | postRewrite =>
      have hback : ph.next = startOf cmcf .findConfig := hnext
      exact ⟨Nat.le_of_eq hback.symm,by omega⟩
    | postRead | serverRewrite | findConfig | rewrite | preaccess | access | postAccess | tryFiles
      | content => cases hc

theorem reached_bound (haccess : cmcf.handlers .access ≠ []) (s : Run) (h : Reached cmcf s) :
    s.r.phaseHandler ≤ (ngxHttpInitPhaseHandlers cmcf).handlers.length := by
  obtain ⟨-,hserver,hlocation⟩ := init_handlers cmcf haccess
  obtain ⟨h1,h2,h3,h4,h5,h6,h7,h8,h9⟩ := starts cmcf
  have hend : ∀ j, endOf cmcf j = startOf cmcf j+size cmcf j := fun j => rfl
  induction h with
  | init r hmain hstart hrunning => exact hstart ▸ Nat.zero_le _
  | step s s' act h hstep ih =>
    cases act with
    | turn a =>
      rw [apply] at hstep
      split_ifs at hstep
      cases hstep
      change (turn _ s.r a).phaseHandler ≤ _
      unfold turn
      cases hget : (ngxHttpInitPhaseHandlers cmcf).handlers[s.r.phaseHandler]? with
      | none => exact ih
      | some ph =>
        obtain ⟨i,hjump⟩ := jump_stays cmcf haccess _ ph hget
        obtain ⟨hlt,-⟩ := List.getElem?_eq_some_iff.mp hget
        simp only [settle_index]
        rcases check_moves (ngxHttpInitPhaseHandlers cmcf) s.r ph a with hsame | hone | ⟨hnext,hc⟩
        · rw [hsame]
          exact ih
        · rw [hone]
          exact hlt
        rw [hnext]
        rcases hc with hc | hc | hc
        · exact (hjump.forward (Or.inl hc)).2.1
        · exact (hjump.forward (Or.inr hc)).2.1
        have hback := (hjump.back hc).2
        rw [handlers_length cmcf haccess]
        simp only [h9, h8, h7, h6, h5, h4, h3, hend] at hback ⊢
        omega
    | resume =>
      rw [apply] at hstep
      split_ifs at hstep
      cases hstep
      exact ih
    | redirect a args =>
      rw [apply] at hstep
      split_ifs at hstep
      cases hstep
      simp only [ngxHttpInternalRedirect, hserver]
      split_ifs
      · exact ih
      · rw [handlers_length cmcf haccess]
        change startOf cmcf .serverRewrite ≤ _
        simp only [h9, h8, h7, h6, h5, h4, h3, h2, hend]
        omega
    | named found =>
      rw [apply] at hstep
      split_ifs at hstep
      cases hstep
      simp only [ngxHttpNamedLocation, hlocation]
      split_ifs
      · exact ih
      · cases found with
        | none => exact ih
        | some found =>
          rw [handlers_length cmcf haccess]
          change startOf cmcf .rewrite ≤ _
          simp only [h9, h8, h7, h6, h5, h4, hend]
          omega

/-- In every run, when a `try_files` or a content slot is about to be entered, the access
handlers have decided for the request since its location was chosen; and the index moves
within the array, over no handler of a later phase. -/
theorem access_enforced (cmcf : MainConf H) (haccess : cmcf.handlers .access ≠ []) :
    (∀ s ph, Reached cmcf s → s.r.status = .running →
      (ngxHttpInitPhaseHandlers cmcf).handlers[s.r.phaseHandler]? = some ph →
      ph.checker = .tryFiles ∨ ph.checker = .content →
      (s.r.loc.satisfyAll = true →
        (∀ k ph', (ngxHttpInitPhaseHandlers cmcf).handlers[k]? = some ph' → ph'.checker = .access →
          (k, ngxOk) ∈ s.results ∨ (k, ngxDeclined) ∈ s.results) ∧ ∀ x ∈ s.results, Passed x.2) ∧
      (s.r.loc.satisfyAll = false →
        (∃ x ∈ s.results, x.2 = ngxOk) ∨ ∀ x ∈ s.results, ¬ Denied x.2)) ∧
    ((ngxHttpInitPhaseHandlers cmcf).handlers.filter (fun ph => ph.checker = .access)).map
      PhaseHandler.handler = (cmcf.handlers .access).reverse.map some ∧
    (ngxHttpInitPhaseHandlers cmcf).handlers.length ≤ allocated cmcf ∧
    (∀ s, Reached cmcf s → s.r.phaseHandler ≤ (ngxHttpInitPhaseHandlers cmcf).handlers.length) ∧
    ∀ k ph, (ngxHttpInitPhaseHandlers cmcf).handlers[k]? = some ph → ∃ i, Jump cmcf i k ph := by
  refine ⟨fun s ph h hrunning hget hkind => ?_,access_handlers cmcf haccess,init_fits cmcf haccess,
    reached_bound cmcf haccess,jump_stays cmcf haccess⟩
  obtain ⟨i,⟨hlow,-⟩,hchecker,-⟩ := slot_phase cmcf haccess _ ph hget
  obtain ⟨-,-,h3,h4,h5,h6,h7,h8,h9⟩ := starts cmcf
  have hend : ∀ j, endOf cmcf j = startOf cmcf j+size cmcf j := fun j => rfl
  have hlast : size cmcf .postAccess = 1 := by rw [size, access_used cmcf haccess, Bool.toNat_true]
  have hbehind : startOf cmcf .postAccess < s.r.phaseHandler := by
    rw [hchecker] at hkind
    have hs7 := hend .postAccess
    have hs8 := hend .tryFiles
    cases i with
    | tryFiles => omega
    | content => omega
    | postRead | serverRewrite | findConfig | rewrite | postRewrite | preaccess | access | postAccess =>
      rcases hkind with hkind | hkind <;> cases hkind
  have hconfig : startOf cmcf .findConfig < s.r.phaseHandler := by
    simp only [h7, h6, h5, h4, h3, hend] at hbehind
    have : size cmcf .findConfig = 1 := rfl
    omega
  obtain ⟨hall,hany⟩ := (reached_inv cmcf haccess s h).held (Or.inl hrunning) hconfig
  refine ⟨fun hs => ⟨fun k ph' hget' hc => ?_,(hall hs).2⟩,fun hs => ?_⟩
  · obtain ⟨j,hj,hchecker',-⟩ := slot_phase cmcf haccess k ph' hget'
    rw [hchecker'] at hc
    cases j with
    | access =>
      refine (hall hs).1 k hj ?_
      have := hj.2
      omega
    | postRead | serverRewrite | findConfig | rewrite | postRewrite | preaccess | postAccess | tryFiles
      | content => cases hc
  · rcases hany hs with hok | hnone | ⟨-,hle⟩
    · exact Or.inl hok
    · exact Or.inr hnone
    · exact absurd hbehind (Nat.not_lt.mpr hle)

def twoChecks : MainConf ℕ :=
  ⟨fun i => match i with
    | .access => [1,2]
    | .content => [7]
    | _ => [],false⟩

def plainLoc : LocConf := ⟨[47],true,false,0,false,false⟩

def newRequest : Request :=
  ⟨0,true,false,0,none,false,11,plainLoc,false,-1,false,[47],[],none,.running⟩

/-- What a handler answers that returns `rc` and leaves the location. -/
def plainAnswer (rc : ℤ) : Answer := ⟨rc,false,[47],plainLoc,none⟩

/-- One handler grants, the other waits once and declines. -/
theorem access_enforced_two : ∃ s, Reached twoChecks s ∧ s.r.phaseHandler = 4 ∧
    ((2, ngxOk) ∈ s.results ∨ (2, ngxDeclined) ∈ s.results) ∧ ∀ x ∈ s.results, Passed x.2 := by
  have h0 : Reached twoChecks ⟨newRequest,[]⟩ := Reached.init _ rfl rfl rfl
  have h1 := Reached.step _ _ (.turn (plainAnswer ngxOk)) h0 rfl
  have h2 := Reached.step _ _ (.turn (plainAnswer ngxOk)) h1 rfl
  have h3 := Reached.step _ _ (.turn (plainAnswer ngxAgain)) h2 rfl
  have h4 := Reached.step _ _ .resume h3 rfl
  have h5 := Reached.step _ _ (.turn (plainAnswer ngxDeclined)) h4 rfl
  have h6 := Reached.step _ _ (.turn (plainAnswer ngxOk)) h5 rfl
  obtain ⟨hslots,hpassed⟩ :=
    ((access_enforced twoChecks (by decide)).1 _ _ h6 rfl rfl (Or.inr rfl)).1 rfl
  exact ⟨_,h6,rfl,hslots 2 _ rfl rfl,hpassed⟩

end Nginx.PhaseEngineLaw
