import Nginx.Outline

/-!
# Subrequests and the postpone filter

A connection serves a main request and the subrequests below it. Requests produce output and
create subrequests in any order; only the active one, `c->data`, passes its output on, and the
others keep it in their postponed lists. Requests are numbered in the order of their creation,
the main request is 0. The next filter takes all that it is given, and no call fails.
-/

set_option autoImplicit false

namespace Nginx.Postpone
open Outline Function

/-- The `write_event_handler` of a request: its own, `ngx_http_writer`,
`ngx_http_request_finalizer` or `ngx_http_request_empty_handler` -/
inductive Handler where
  | content
  | writer
  | finalizer
  | empty
  deriving DecidableEq

/-- `sent` is what the next filter was given; `content` records what each request has produced
and created. -/
structure State (B : Type) where
  parent : ℕ → ℕ
  postponed : ℕ → List (Item B)
  handler : ℕ → Handler
  done : ℕ → Bool
  next : ℕ
  data : ℕ
  posted : List ℕ
  sent : List B
  content : ℕ → List (Item B)

variable {B : Type}

def start : State B :=
  ⟨fun _ => 0,fun _ => [],fun _ => .content,fun _ => false,1,0,[],[],fun _ => []⟩

def ngxHttpPostRequest (r : ℕ) (s : State B) : State B := { s with posted := s.posted++[r] }

def ngxHttpPostponeFilterAdd : List (Item B) → List B → List (Item B)
  | [], bufs => [.text bufs]
  | [.text out], bufs => [.text (out++bufs)]
  | pr::prs, bufs => pr::ngxHttpPostponeFilterAdd prs bufs

def State.keep (s : State B) (r : ℕ) (prs : List (Item B)) : State B :=
  { s with postponed := update s.postponed r prs }

/-- The loop of `ngx_http_postpone_filter` over the postponed list of `r` -/
def filterLoop (r : ℕ) : List (Item B) → State B → State B
  | [], s => s
  | .sub sr::prs, s => ngxHttpPostRequest sr { s.keep r prs with data := sr }
  | .text out::prs, s => filterLoop r prs { s.keep r prs with sent := s.sent++out }

def ngxHttpPostponeFilter (r : ℕ) (bufs : List B) (s : State B) : State B :=
  let prs := if bufs.isEmpty then s.postponed r else ngxHttpPostponeFilterAdd (s.postponed r) bufs
  if r ≠ s.data then s.keep r prs
  else if (s.postponed r).isEmpty then { s with sent := s.sent++bufs }
  else filterLoop r prs (s.keep r prs)

def ngxHttpSubrequest (r : ℕ) (s : State B) : State B :=
  let sr := s.next
  ngxHttpPostRequest sr
    { s.keep r (s.postponed r++[.sub sr]) with
      parent := update s.parent sr r
      next := s.next+1
      data := if s.data = r ∧ (s.postponed r).isEmpty then sr else s.data
      content := update s.content r (s.content r++[.sub sr]) }

/-- `pr->postponed` without `r` at its head -/
def dropHead (r : ℕ) : List (Item B) → List (Item B)
  | .sub c::prs => if c = r then prs else .sub c::prs
  | prs => prs

/-- `ngx_http_finalize_request` with `NGX_OK` -/
def ngxHttpFinalizeRequest (r : ℕ) (s : State B) : State B :=
  if (s.postponed r).isEmpty = false then { s with handler := update s.handler r .writer }
  else if r ≠ 0 then
    let pr := s.parent r
    if r = s.data then
      ngxHttpPostRequest pr
        { s.keep pr (dropHead r (s.postponed pr)) with done := update s.done r true, data := pr }
    else ngxHttpPostRequest pr { s with handler := update s.handler r .finalizer }
  else if r ≠ s.data then s
  else { s with done := update s.done r true, handler := update s.handler r .empty }

def ngxHttpWriter (r : ℕ) (s : State B) : State B :=
  let s := ngxHttpPostponeFilter r [] s
  if (s.postponed r).isEmpty = false then s
  else ngxHttpFinalizeRequest r { s with handler := update s.handler r .empty }

def writeEventHandler (r : ℕ) (s : State B) : State B :=
  match s.handler r with
  | .content => s
  | .writer => ngxHttpWriter r s
  | .finalizer => ngxHttpFinalizeRequest r s
  | .empty => s

def runPosted (s : State B) : State B :=
  match s.posted with
  | [] => s
  | r::rest => writeEventHandler r { s with posted := rest }

/-- What happens next: a request produces output, flushes, creates a subrequest or is finalized,
a posted request is run, or the connection can be written to. -/
inductive Act (B : Type) where
  | output (r : ℕ) (bufs : List B)
  | flush (r : ℕ)
  | subrequest (r : ℕ)
  | finish (r : ℕ)
  | posted
  | write

/-- The code of `r` still runs. -/
def Runs (s : State B) (r : ℕ) : Prop := r < s.next ∧ s.done r = false ∧ s.handler r = .content

instance (s : State B) (r : ℕ) : Decidable (Runs s r) := inferInstanceAs (Decidable (_ ∧ _ ∧ _))

def step (s : State B) : Act B → State B
  | .output r bufs =>
    if Runs s r ∧ bufs.isEmpty = false then
      ngxHttpPostponeFilter r bufs
        { s with content := update s.content r (s.content r++[.text bufs]) }
    else s
  | .flush r => if Runs s r then ngxHttpPostponeFilter r [] s else s
  | .subrequest r => if Runs s r then ngxHttpSubrequest r s else s
  | .finish r => if Runs s r then ngxHttpFinalizeRequest r s else s
  | .posted => runPosted s
  | .write => writeEventHandler s.data s

/-- The output of the main request with the complete outputs of all subrequests in their places -/
def page (s : State B) : List B := pieces (flat s.content s.next 0)

/-! ## The invariant -/

/-- `rest r` is what is left of `r` to be written: its postponed list, behind the subrequest that
was taken off it and is being written. `given` is what has been written, with the marks. -/
structure Inv (s : State B) (rest : ℕ → List (Item B)) (given : List (Token B)) : Prop where
  below : Below s.content s.next
  restBelow : Below rest s.next
  parent : ∀ r c, .sub c ∈ rest r → s.parent c = r
  fresh : ∀ r, s.next ≤ r → s.content r = [] ∧ rest r = []
  page : ∀ n, s.next ≤ n → flat s.content n 0 = given++flat rest n 0
  once : ∀ n, s.next ≤ n → (closes (flat s.content n 0)).Nodup
  all : ∀ n, s.next ≤ n → ∀ r < s.next, .close r ∈ flat s.content n 0
  sent : pieces given = s.sent
  closed : ∀ r, .close r ∈ given → s.done r = true
  data : s.data < s.next
  leads : Leads rest 0 s.data
  lists : ∀ r, rest r = s.postponed r ∨ ∃ c, rest r = .sub c::s.postponed r ∧ Leads rest c s.data
  finished : s.done 0 = true → s.data = 0 ∧ rest 0 = []

theorem start_inv : Inv (start : State B) (fun _ => []) [] where
  below r c h := absurd h List.not_mem_nil
  restBelow r c h := absurd h List.not_mem_nil
  parent r c h := absurd h List.not_mem_nil
  fresh _ _ := ⟨rfl,rfl⟩
  page _ _ := rfl
  once n _ := by cases n <;> simp [start, flat, closes]
  all n _ r hr := by
    obtain rfl : r = 0 := Nat.lt_one_iff.mp hr
    exact close_mem _ n 0
  sent := rfl
  closed r h := absurd h List.not_mem_nil
  data := Nat.zero_lt_one
  leads := .refl
  lists _ := Or.inl rfl
  finished h := by cases h

section Steps
variable (s : State B) (rest : ℕ → List (Item B)) (given : List (Token B))
  (h : Inv s rest given)
include h

theorem data_list : rest s.data = s.postponed s.data := by
  rcases h.lists s.data with hl | ⟨c,hc,hleads⟩
  · exact hl
  · have hlt := (h.restBelow _ _ (hc ▸ List.mem_cons_self)).1
    have hle := leads_le rest s.next h.restBelow c _ hleads
    omega

theorem rest_nodup (n : ℕ) (hn : s.next ≤ n) : (closes (flat rest n 0)).Nodup := by
  have hnodup := h.once n hn
  rw [h.page n hn, closes_append] at hnodup
  exact hnodup.of_append_right

theorem all_done (hdone : s.done 0 = true) (r : ℕ) (hr : r < s.next) : s.done r = true := by
  obtain ⟨n,hn⟩ := Nat.exists_eq_add_one.mpr (Nat.zero_lt_of_lt hr)
  have hmem := h.all (n+1) (by omega) r hr
  rw [h.page (n+1) (by omega), flat_succ, (h.finished hdone).2, List.mem_append] at hmem
  rcases hmem with hmem | hmem
  · exact h.closed r hmem
  · cases List.mem_singleton.mp hmem
    exact hdone

theorem runs_unfinished (r : ℕ) (hr : Runs s r) : s.done 0 ≠ true := fun hdone => by
  have := all_done s rest given h hdone r hr.1
  simp [hr.2.1] at this

theorem not_given (r : ℕ) (hr : Runs s r) : .close r ∉ given := fun hmem => by
  have := h.closed r hmem
  simp [hr.2.1] at this

theorem take_inv (p : ℕ) (i : Item B) (prs : List (Item B)) (ts : List (Token B))
    (hleads : Leads rest 0 p) (hp : p < s.next) (hi : rest p = i::prs)
    (hts : ∀ n, tokens rest n i = ts) (n : ℕ) (hn : s.next ≤ n) :
    flat s.content n 0 = (given++ts)++flat (update rest p prs) n 0 := by
  obtain ⟨m,-,hflat⟩ := flat_take rest s.next h.restBelow 0 p n i prs hleads hi hp (by omega)
    (rest_nodup s rest given h n hn)
  rw [h.page n hn, hflat, hts, List.append_assoc]

omit h in
theorem sub_of_tail (p : ℕ) (i : Item B) (prs : List (Item B)) (hi : rest p = i::prs) (r c : ℕ)
    (hc : .sub c ∈ update rest p prs r) : .sub c ∈ rest r := by
  rcases eq_or_ne r p with rfl | hr
  · rw [update_self] at hc
    exact hi ▸ List.mem_cons_of_mem _ hc
  · rwa [update_of_ne hr] at hc

theorem fresh_of_tail (p : ℕ) (prs : List (Item B)) (hp : p < s.next) (r : ℕ) (hr : s.next ≤ r) :
    s.content r = [] ∧ update rest p prs r = [] := by
  rw [update_of_ne (by omega)]
  exact h.fresh r hr

theorem unfinished_of_list (i : Item B) (prs : List (Item B)) (hi : rest s.data = i::prs) :
    s.done 0 ≠ true := fun hdone => by
  have hzero := h.finished hdone
  rw [hzero.1, hzero.2] at hi
  cases hi

theorem send_inv (out : List B) (prs : List (Item B)) (hprs : s.postponed s.data = .text out::prs) :
    ∃ given', Inv { s.keep s.data prs with sent := s.sent++out } (update rest s.data prs) given' := by
  have hlist := (data_list s rest given h).trans hprs
  have hsub := sub_of_tail rest s.data _ prs hlist
  refine ⟨given++out.map .piece,{ h with
    restBelow := fun r c hc => h.restBelow r c (hsub r c hc)
    parent := fun r c hc => h.parent r c (hsub r c hc)
    fresh := fresh_of_tail s rest given h s.data prs h.data
    page := take_inv s rest given h s.data _ prs _ h.leads h.data hlist (fun _ => rfl)
    sent := by rw [pieces_append, pieces_map, h.sent]
    closed := fun r hr => h.closed r (by simpa using hr)
    leads := leads_update rest s.next h.restBelow 0 s.data prs h.leads
    lists := fun r => ?_
    finished := fun hdone => absurd hdone (unfinished_of_list s rest given h _ prs hlist) }⟩
  rcases eq_or_ne r s.data with rfl | hr
  · exact Or.inl (by simp [State.keep])
  · simp only [State.keep, update_of_ne hr]
    exact (h.lists r).imp_right (Exists.imp (fun c => And.imp_right
      (leads_update rest s.next h.restBelow c s.data prs)))

theorem activate_inv (sr : ℕ) (prs : List (Item B)) (hprs : s.postponed s.data = .sub sr::prs) :
    Inv { s.keep s.data prs with data := sr } rest given := by
  have hlist := (data_list s rest given h).trans hprs
  have hhead : Head rest s.data sr := ⟨prs,hlist⟩
  refine { h with
    data := (h.restBelow _ _ (hlist ▸ List.mem_cons_self)).2
    leads := h.leads.tail hhead
    lists := fun r => ?_
    finished := fun hdone => absurd hdone (unfinished_of_list s rest given h _ prs hlist) }
  rcases eq_or_ne r s.data with rfl | hr
  · exact Or.inr ⟨sr,by simp [State.keep, hlist],.refl⟩
  · simp only [State.keep, update_of_ne hr]
    exact (h.lists r).imp_right (Exists.imp (fun c => And.imp_right (fun hc => hc.tail hhead)))

theorem close_inv (hdata : s.data ≠ 0) (hprs : s.postponed s.data = []) :
    ∃ rest' given', Inv { s.keep (s.parent s.data) (dropHead s.data (s.postponed (s.parent s.data)))
      with done := update s.done s.data true, data := s.parent s.data } rest' given' := by
  have hempty := (data_list s rest given h).trans hprs
  obtain hzero | ⟨p,hp,prs,hlist⟩ := h.leads.cases_tail
  · exact absurd hzero hdata
  have hmem : .sub s.data ∈ rest p := hlist ▸ List.mem_cons_self
  obtain ⟨hlt,-⟩ := h.restBelow _ _ hmem
  have hpn : p < s.next := Nat.lt_trans hlt h.data
  have hsub := sub_of_tail rest p _ prs hlist
  have hpage := take_inv s rest given h p _ prs [.close s.data] hp hpn hlist (fun n => by
    cases n <;> simp [tokens, flat, hempty])
  have hleads := leads_update rest s.next h.restBelow 0 p prs hp
  -- the closed request is not referred to any more
  have hgone : ∀ t, prs ≠ .sub s.data::t := fun t ht => by
    have hnodup := h.once s.next (Nat.le_refl _)
    rw [hpage s.next (Nat.le_refl _), closes_append, closes_append] at hnodup
    have hagain := leads_mem (update rest p prs) s.next (fun r c hc => h.restBelow r c (hsub r c hc))
      0 s.data s.next (hleads.tail ⟨t,by rw [update_self, ht]⟩) h.data (by omega)
    exact (List.disjoint_of_nodup_append hnodup) (List.mem_append_right _ List.mem_cons_self)
      ((mem_closes _ _).mpr hagain)
  rw [h.parent p _ hmem]
  refine ⟨update rest p prs,given++[Token.close s.data],{ h with
    restBelow := fun r c hc => h.restBelow r c (hsub r c hc)
    parent := fun r c hc => h.parent r c (hsub r c hc)
    fresh := fresh_of_tail s rest given h p prs hpn
    page := hpage
    sent := by rw [pieces_append, h.sent]; exact List.append_nil _
    closed := fun r hr => ?_
    data := hpn
    leads := hleads
    lists := fun r => ?_
    finished := fun hdone => ?_ }⟩
  · rcases List.mem_append.mp hr with hr | hr
    · by_cases hrd : r = s.data
      · simp [hrd]
      · simpa [update_of_ne hrd] using h.closed r hr
    · cases List.mem_singleton.mp hr
      simp
  · rcases eq_or_ne r p with rfl | hr
    · refine Or.inl ?_
      simp only [State.keep, update_self]
      rcases h.lists r with hl | ⟨c,hc,-⟩
      · rw [← hl, hlist, dropHead, if_pos rfl]
      · obtain rfl : prs = s.postponed r := (List.cons.inj (hlist.symm.trans hc)).2
        rcases hpr : s.postponed r with _ | ⟨_ | d,t⟩
        · rfl
        · rfl
        · rw [dropHead, if_neg (fun hd => hgone t (by rw [hpr, hd]))]
    · simp only [State.keep, update_of_ne hr]
      refine (h.lists r).imp_right (fun hsome => ?_)
      obtain ⟨c,hc,hcl⟩ := hsome
      refine ⟨c,hc,?_⟩
      obtain rfl | ⟨q,hq,u,hu⟩ := hcl.cases_tail
      · exact absurd (((h.parent r _ (hc ▸ List.mem_cons_self)).symm.trans (h.parent p _ hmem))) hr
      · obtain rfl : q = p :=
          (h.parent q _ (hu ▸ List.mem_cons_self)).symm.trans (h.parent p _ hmem)
        exact leads_update rest s.next h.restBelow c q prs hq
  · have hzero : s.done 0 = true := by simpa [Ne.symm hdata] using hdone
    exact absurd (h.finished hzero).1 hdata

theorem grow_page (r : ℕ) (hr : Runs s r) (content' rest' : ℕ → List (Item B))
    (ts : List (Token B)) (hc : ∀ x, x ≠ r → content' x = s.content x)
    (hcr : ∀ n, (content' r).flatMap (tokens content' n) =
      (s.content r).flatMap (tokens content' n)++ts)
    (hl : ∀ x, x ≠ r → rest' x = rest x)
    (hlr : ∀ n, (rest' r).flatMap (tokens rest' n) = (rest r).flatMap (tokens rest' n)++ts)
    (n : ℕ) (hn : s.next ≤ n) : flat content' n 0 = plant r ts (flat s.content n 0) ∧
      flat content' n 0 = given++flat rest' n 0 := by
  have hgrow := flat_grow s.content content' s.next h.below r ts hr.1 hc hcr n 0 (by omega)
  refine ⟨hgrow,?_⟩
  rw [hgrow, h.page n hn, plant_append, plant_absent r ts given (not_given s rest given h r hr),
    flat_grow rest rest' s.next h.restBelow r ts hr.1 hl hlr n 0 (by omega)]

omit h in
theorem leads_grown (r : ℕ) (l : List (Item B)) (hl : ∀ c t, rest r = .sub c::t → ∃ u, l = .sub c::u)
    (x p : ℕ) (hleads : Leads rest x p) : Leads (update rest r l) x p := by
  refine Relation.ReflTransGen.mono (fun y c hhead => ?_) x p hleads
  obtain ⟨t,ht⟩ := hhead
  rcases eq_or_ne y r with rfl | hy
  · obtain ⟨u,hu⟩ := hl c t ht
    exact ⟨u,by rw [update_self, hu]⟩
  · exact ⟨t,by rw [update_of_ne hy, ht]⟩

omit h in
theorem add_tokens (items : ℕ → List (Item B)) (n : ℕ) (l : List (Item B)) (bufs : List B) :
    (ngxHttpPostponeFilterAdd l bufs).flatMap (tokens items n) =
      l.flatMap (tokens items n)++bufs.map .piece := by
  induction l, bufs using ngxHttpPostponeFilterAdd.induct with
  | case1 bufs => simp [ngxHttpPostponeFilterAdd, tokens]
  | case2 bufs out => simp [ngxHttpPostponeFilterAdd, tokens]
  | case3 bufs pr prs hpr ih => simp [ngxHttpPostponeFilterAdd, ih]

omit h in
theorem sub_mem_add (c : ℕ) (l : List (Item B)) (bufs : List B)
    (hc : .sub c ∈ ngxHttpPostponeFilterAdd l bufs) : .sub c ∈ l := by
  induction l, bufs using ngxHttpPostponeFilterAdd.induct with
  | case1 bufs => simp [ngxHttpPostponeFilterAdd] at hc
  | case2 bufs out => simp [ngxHttpPostponeFilterAdd] at hc
  | case3 bufs pr prs hpr ih =>
    rw [ngxHttpPostponeFilterAdd, List.mem_cons] at hc
    exact hc.elim (fun hc => hc ▸ List.mem_cons_self) (fun hc => List.mem_cons_of_mem _ (ih hc))
    exact hpr

omit h in
theorem add_sub (c : ℕ) (l : List (Item B)) (bufs : List B) :
    ngxHttpPostponeFilterAdd (.sub c::l) bufs = .sub c::ngxHttpPostponeFilterAdd l bufs := rfl

/-- The state in which `r` has produced `bufs` and keeps them in its postponed list -/
def produced (s : State B) (r : ℕ) (bufs : List B) : State B :=
  { s.keep r (ngxHttpPostponeFilterAdd (s.postponed r) bufs) with
    content := update s.content r (s.content r++[.text bufs]) }

theorem produced_inv (r : ℕ) (hr : Runs s r) (bufs : List B) :
    Inv (produced s r bufs) (update rest r (ngxHttpPostponeFilterAdd (rest r) bufs)) given := by
  have hpage := grow_page s rest given h r hr (update s.content r (s.content r++[.text bufs]))
    (update rest r (ngxHttpPostponeFilterAdd (rest r) bufs)) (bufs.map .piece)
    (fun x hx => update_of_ne hx ..) (fun n => by simp [tokens])
    (fun x hx => update_of_ne hx ..) (fun n => by rw [update_self, add_tokens])
  have hsub (x c : ℕ) (hc : .sub c ∈ update rest r (ngxHttpPostponeFilterAdd (rest r) bufs) x) :
      .sub c ∈ rest x := by
    rcases eq_or_ne x r with rfl | hx
    · exact sub_mem_add c _ bufs (by simpa using hc)
    · rwa [update_of_ne hx] at hc
  have hleads := leads_grown rest r (ngxHttpPostponeFilterAdd (rest r) bufs)
    (fun c t ht => ⟨_,by rw [ht, add_sub]⟩)
  refine { h with
    below := fun x c hc => h.below x c ?_
    restBelow := fun x c hc => h.restBelow x c (hsub x c hc)
    parent := fun x c hc => h.parent x c (hsub x c hc)
    fresh := fun x hx => ?_
    page := fun n hn => (hpage n hn).2
    once := fun n hn => ?_
    all := fun n hn x hx => ?_
    leads := hleads 0 s.data h.leads
    lists := fun x => ?_
    finished := fun hdone => absurd hdone (runs_unfinished s rest given h r hr) }
  · rcases eq_or_ne x r with rfl | hx
    · simpa [produced] using hc
    · simpa [produced, update_of_ne hx] using hc
  · have hxr : x ≠ r := fun hxr => absurd hr.1 (Nat.not_lt.mpr (hxr ▸ hx))
    simpa [produced, update_of_ne hxr] using h.fresh x hx
  · exact (hpage n hn).1 ▸ closes_plant r _ _ (by simp) (by simp) (h.once n hn)
  · exact (hpage n hn).1 ▸ (mem_plant r _ _ _).mpr (Or.inl (h.all n hn x hx))
  · rcases eq_or_ne x r with rfl | hx
    · simp only [produced, State.keep, update_self]
      rcases h.lists x with hl | ⟨c,hc,hcl⟩
      · exact Or.inl (by rw [hl])
      · exact Or.inr ⟨c,by rw [hc, add_sub],hleads c s.data hcl⟩
    · simp only [produced, State.keep, update_of_ne hx]
      exact (h.lists x).imp_right (Exists.imp (fun c => And.imp_right (hleads c s.data)))

theorem subrequest_inv (r : ℕ) (hr : Runs s r) :
    Inv (ngxHttpSubrequest r s) (update rest r (rest r++[.sub s.next])) given := by
  have hrn : s.next ≠ r := fun hrn => absurd hr.1 (by omega)
  have hpage := grow_page s rest given h r hr (update s.content r (s.content r++[.sub s.next]))
    (update rest r (rest r++[.sub s.next])) [.close s.next]
    (fun x hx => update_of_ne hx ..) (fun n => by
      cases n <;> simp [tokens, flat, update_of_ne hrn, (h.fresh s.next (Nat.le_refl _)).1])
    (fun x hx => update_of_ne hx ..) (fun n => by
      cases n <;> simp [tokens, flat, update_of_ne hrn, (h.fresh s.next (Nat.le_refl _)).2])
  have hsub (l : ℕ → List (Item B)) (x c : ℕ) (hc : .sub c ∈ update l r (l r++[.sub s.next]) x) :
      .sub c ∈ l x ∨ x = r ∧ c = s.next := by
    rcases eq_or_ne x r with rfl | hx
    · simpa using hc
    · exact Or.inl (by rwa [update_of_ne hx] at hc)
  have hleads := leads_grown rest r (rest r++[.sub s.next]) (fun c t ht => ⟨_,by rw [ht]; rfl⟩)
  -- a path to the active request goes on to the subrequest when that gets active
  have hpath (x : ℕ) (hx : Leads rest x s.data) : Leads (update rest r (rest r++[.sub s.next])) x
      (if s.data = r ∧ (s.postponed r).isEmpty then s.next else s.data) := by
    split_ifs with hdata
    · refine (hleads x s.data hx).tail ⟨[],?_⟩
      have hempty : rest s.data = [] :=
        (data_list s rest given h).trans (List.isEmpty_iff.mp (hdata.1 ▸ hdata.2))
      rw [← hdata.1, update_self, hempty]
      rfl
    · exact hleads x s.data hx
  refine { h with
    below := fun x c hc => ?_
    restBelow := fun x c hc => ?_
    parent := fun x c hc => ?_
    fresh := fun x hx => ?_
    page := fun n hn => (hpage n (Nat.le_of_succ_le hn)).2
    once := fun n hn => ?_
    all := fun n hn x hx => ?_
    data := ?_
    leads := hpath 0 h.leads
    lists := fun x => ?_
    finished := fun hdone => absurd hdone (runs_unfinished s rest given h r hr) }
  · rcases hsub s.content x c hc with hc | ⟨rfl,rfl⟩
    · exact ⟨(h.below x c hc).1,Nat.lt_succ_of_lt (h.below x c hc).2⟩
    · exact ⟨hr.1,Nat.lt_succ_self _⟩
  · rcases hsub rest x c hc with hc | ⟨rfl,rfl⟩
    · exact ⟨(h.restBelow x c hc).1,Nat.lt_succ_of_lt (h.restBelow x c hc).2⟩
    · exact ⟨hr.1,Nat.lt_succ_self _⟩
  · rcases hsub rest x c hc with hc | ⟨rfl,rfl⟩
    · exact (update_of_ne (Nat.ne_of_lt (h.restBelow x c hc).2) ..).trans (h.parent x c hc)
    · exact update_self ..
  · have hx' : s.next+1 ≤ x := hx
    have hxr : x ≠ r := fun hxr => absurd hr.1 (by omega)
    have hfresh := h.fresh x (by omega)
    exact ⟨(update_of_ne hxr ..).trans hfresh.1,(update_of_ne hxr ..).trans hfresh.2⟩
  · have hn' := Nat.le_of_succ_le hn
    refine (hpage n hn').1 ▸ closes_plant r _ _ (by simp [closes]) (fun x hx hmem => ?_)
      (h.once n hn')
    obtain rfl : x = s.next := by simpa [closes] using hx
    have hzero : 0 < s.next := Nat.zero_lt_of_lt hr.1
    exact absurd (close_lt s.content s.next h.below n 0 _ hzero ((mem_closes _ _).mp hmem))
      (Nat.lt_irrefl _)
  · have hn' := Nat.le_of_succ_le hn
    refine (hpage n hn').1 ▸ (mem_plant r _ _ _).mpr ?_
    rcases Nat.lt_succ_iff_lt_or_eq.mp hx with hx | rfl
    · exact Or.inl (h.all n hn' x hx)
    · exact Or.inr ⟨List.mem_singleton_self _,h.all n hn' r hr.1⟩
  · show (if s.data = r ∧ (s.postponed r).isEmpty then s.next else s.data) < s.next+1
    have := h.data
    split_ifs <;> omega
  · rcases eq_or_ne x r with rfl | hx
    · simp only [ngxHttpSubrequest, ngxHttpPostRequest, State.keep, update_self]
      rcases h.lists x with hl | ⟨c,hc,hcl⟩
      · exact Or.inl (by rw [hl])
      · exact Or.inr ⟨c,by rw [hc]; rfl,hpath c hcl⟩
    · simp only [ngxHttpSubrequest, ngxHttpPostRequest, State.keep, update_of_ne hx]
      exact (h.lists x).imp_right (Exists.imp (fun c => And.imp_right (hpath c)))

end Steps

/-! ## Every step keeps it -/

def Sound (s : State B) : Prop := ∃ rest given, Inv s rest given

theorem post_sound (r : ℕ) (s : State B) : Sound (ngxHttpPostRequest r s) ↔ Sound s := by
  constructor
  · rintro ⟨rest,given,h⟩
    exact ⟨rest,given,{ h with }⟩
  · rintro ⟨rest,given,h⟩
    exact ⟨rest,given,{ h with }⟩

theorem handler_sound (s : State B) (handler : ℕ → Handler) (h : Sound s) :
    Sound { s with handler := handler } := by
  obtain ⟨rest,given,h⟩ := h
  exact ⟨rest,given,{ h with }⟩

theorem keep_same (s : State B) (r : ℕ) : s.keep r (s.postponed r) = s := by
  rw [State.keep, update_eq_self]

theorem filterLoop_sound (r : ℕ) (prs : List (Item B)) (s : State B) (hr : r = s.data)
    (hprs : s.postponed r = prs) (h : Sound s) : Sound (filterLoop r prs s) := by
  induction prs generalizing s with
  | nil => exact h
  | cons pr prs ih =>
    obtain ⟨rest,given,h⟩ := h
    subst hr
    cases pr with
    | sub sr => exact (post_sound sr _).mpr ⟨rest,given,activate_inv s rest given h sr prs hprs⟩
    | text out =>
      exact ih _ rfl (by simp [State.keep]) ⟨_,send_inv s rest given h out prs hprs⟩

theorem flush_sound (r : ℕ) (s : State B) (h : Sound s) :
    Sound (ngxHttpPostponeFilter r [] s) := by
  simp only [ngxHttpPostponeFilter, List.isEmpty_nil, if_true, keep_same, List.append_nil]
  split_ifs with hr
  · exact h
  · exact h
  · exact filterLoop_sound r _ s (not_not.mp hr) rfl h

theorem output_sound (r : ℕ) (bufs : List B) (s : State B) (hr : Runs s r)
    (hbufs : bufs.isEmpty = false) (h : Sound s) : Sound (ngxHttpPostponeFilter r bufs
      { s with content := update s.content r (s.content r++[.text bufs]) }) := by
  obtain ⟨rest,given,h⟩ := h
  have hproduced := produced_inv s rest given h r hr bufs
  simp only [ngxHttpPostponeFilter, hbufs, Bool.false_eq_true, if_false]
  split_ifs with hdata hempty
  · exact ⟨_,given,hproduced⟩
  · -- the output passes through without being kept
    obtain rfl := not_not.mp hdata
    have hkept : (produced s s.data bufs).postponed s.data = [.text bufs] := by
      simp [produced, State.keep, List.isEmpty_iff.mp hempty, ngxHttpPostponeFilterAdd]
    obtain ⟨given',hsent⟩ := send_inv _ _ given hproduced bufs [] hkept
    have hsame : { s with
          sent := s.sent++bufs
          content := update s.content s.data (s.content s.data++[.text bufs]) } =
        { (produced s s.data bufs).keep s.data [] with sent := s.sent++bufs } := by
      simp only [produced, State.keep, update_idem]
      rw [← List.isEmpty_iff.mp hempty, update_eq_self]
    exact hsame ▸ ⟨_,given',hsent⟩
  · exact filterLoop_sound r _ _ (not_not.mp hdata) (update_self ..) ⟨_,given,hproduced⟩

theorem finalize_sound (r : ℕ) (s : State B) (h : Sound s) :
    Sound (ngxHttpFinalizeRequest r s) := by
  simp only [ngxHttpFinalizeRequest]
  split_ifs with hleft hmain hdata hdata
  · exact handler_sound s _ h
  · obtain ⟨rest,given,h⟩ := h
    subst hdata
    exact (post_sound _ _).mpr
      (close_inv s rest given h hmain (by simpa using hleft))
  · exact (post_sound _ _).mpr (handler_sound s _ h)
  · exact h
  · obtain ⟨rest,given,h⟩ := h
    obtain rfl := not_not.mp hmain
    have hzero := not_not.mp hdata
    have hnone := data_list s rest given h
    rw [← hzero] at hnone
    refine ⟨rest,given,{ h with
      closed := fun x hx => ?_
      finished := fun _ => ⟨hzero.symm,hnone.trans (by simpa using hleft)⟩ }⟩
    show update s.done 0 true x = true
    rcases eq_or_ne x 0 with rfl | hx0
    · exact update_self ..
    · exact (update_of_ne hx0 ..).trans (h.closed x hx)

theorem handler_run_sound (r : ℕ) (s : State B) (h : Sound s) : Sound (writeEventHandler r s) := by
  rw [writeEventHandler]
  split
  · exact h
  · have hflush := flush_sound r s h
    simp only [ngxHttpWriter]
    split_ifs
    · exact hflush
    · exact finalize_sound r _ (handler_sound _ _ hflush)
  · exact finalize_sound r s h
  · exact h

theorem step_sound (s : State B) (a : Act B) (h : Sound s) : Sound (step s a) := by
  cases a with
  | output r bufs =>
    simp only [step]
    split_ifs with hr
    · exact output_sound r bufs s hr.1 hr.2 h
    · exact h
  | flush r =>
    simp only [step]
    split_ifs
    · exact flush_sound r s h
    · exact h
  | subrequest r =>
    simp only [step]
    split_ifs with hr
    · obtain ⟨rest,given,h⟩ := h
      exact ⟨_,given,subrequest_inv s rest given h r hr⟩
    · exact h
  | finish r =>
    simp only [step]
    split_ifs
    · exact finalize_sound r s h
    · exact h
  | posted =>
    rw [step, runPosted]
    split
    · exact h
    · obtain ⟨rest,given,h⟩ := h
      exact handler_run_sound _ _ ⟨rest,given,{ h with }⟩
  | write => exact handler_run_sound s.data s h

theorem run_sound (acts : List (Act B)) (s : State B) (h : Sound s) :
    Sound (acts.foldl step s) := by
  induction acts generalizing s with
  | nil => exact h
  | cons a acts ih => exact ih _ (step_sound s a h)

/-- In whatever order the requests produce output, create subrequests and end, what the client
has been sent is always the beginning of the page that the main request and its subrequests make
up, and it is the whole page, with no request unfinished, once the main request is done. -/
theorem sent_in_order (acts : List (Act B)) :
    let s := acts.foldl step start
    ∃ rest, page s = s.sent++rest ∧
      (s.done 0 = true → rest = [] ∧ ∀ r < s.next, s.done r = true) := by
  intro s
  obtain ⟨rest,given,h⟩ := run_sound acts start ⟨_,_,start_inv⟩
  refine ⟨pieces (flat rest s.next 0),?_,fun hdone => ⟨?_,all_done s rest given h hdone⟩⟩
  · rw [page, h.page s.next (Nat.le_refl _), pieces_append, h.sent]
  · obtain ⟨n,hn⟩ := Nat.exists_eq_add_one.mpr (Nat.zero_lt_of_lt h.data)
    rw [hn, flat_succ, (h.finished hdone).2]
    rfl

/-- The main request writes, creates a subrequest and writes again before the subrequest writes;
the client gets the subrequest's output between the two. -/
example : (([.output 0 [1], .subrequest 0, .output 0 [3], .finish 0, .output 1 [2], .finish 1,
    .posted, .posted] : List (Act ℕ)).foldl step start).sent = [1, 2, 3] := by
  decide

end Nginx.Postpone
