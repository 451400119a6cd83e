import Nginx.ProxyHeader

/-!
# Responses cut into reads

Nested in each other, the parsers are one machine that takes the stream byte by byte, so that it
does not matter where a read ends. A status line that is rejected in a later read than the first
is the exception, since the bytes before it are lost.
-/

set_option autoImplicit false

namespace Nginx.ProxyHeaderLaw
open HeaderHash UriBytes Resumable ProxyHeader

variable (stream : List UInt8)

theorem slice_length {a z : ℕ} (h : z ≤ stream.length) : (slice stream a z).length = z-a := by
  rw [slice, List.length_take, List.length_drop]
  omega

theorem slice_append {a b z : ℕ} (hl : a ≤ b) (hr : b ≤ z) :
    slice stream a b++slice stream b z = slice stream a z := by
  obtain ⟨m,rfl⟩ := Nat.exists_eq_add_of_le hl
  obtain ⟨n,rfl⟩ := Nat.exists_eq_add_of_le hr
  rw [slice, slice, slice, Nat.add_sub_cancel_left, Nat.add_sub_cancel_left,
    show a+m+n-a = m+n by omega, List.take_add, List.drop_drop]

theorem slice_drop (a b z : ℕ) (h : a ≤ b) : (slice stream a z).drop (b-a) = slice stream b z := by
  rw [slice, slice, List.drop_take, List.drop_drop, show a+(b-a) = b by omega,
    show z-a-(b-a) = z-b by omega]

theorem slice_middle (xs ys zs : List UInt8) :
    slice (xs++(ys++zs)) xs.length (xs.length+ys.length) = ys := by
  rw [slice, List.drop_left, Nat.add_sub_cancel_left, List.take_left]

theorem run_slice {σ ρ : Type} (step : ℕ → UInt8 → σ → σ ⊕ ρ) (stream : List UInt8) {a b z : ℕ}
    (hl : a ≤ b) (hr : b ≤ z) (hz : z ≤ stream.length) (s : σ) :
    run step a (slice stream a z) s =
      (run step a (slice stream a b) s).bind (run step b (slice stream b z)) := by
  rw [← slice_append stream hl hr, run_append, slice_length stream (hr.trans hz),
    Nat.add_sub_cancel' hl]

/-- What the client gets to see of the header of a response: the code, the text of the status line,
the headers, and where the body begins -/
structure Response where
  code : ℕ
  statusLine : List UInt8
  headers : List TableElt
  body : ℕ
  deriving DecidableEq, Repr

/-- What a call returns, with the response when it is `NGX_OK` -/
def answer {σ : Type} (r : Rc × Vars σ) : Rc × Option Response :=
  (r.1, if r.1 = .ok then some ⟨r.2.statusN,r.2.statusLine,r.2.headers,r.2.pos⟩ else none)

section Headers

variable {σ : Type} (t : HeadersInHash σ) (stream : List UInt8)

inductive LinesEnd (σ : Type) where
  | done (headers : List TableElt) (headersIn : σ)
  | invalid
  | error

def afterLine (_ : ℕ) (e : HeaderEnd) (k : List TableElt × σ) :
    (HeaderLine × List TableElt × σ) ⊕ LinesEnd σ :=
  match e with
  | .done l =>
    let h := parsedHeader stream { l with state := .start }
    match t.handler k.2 h with
    | none => .inr .error
    | some x => .inl ({ l with state := .start }, k.1++[h], x)
  | .headerDone _ => .inr (.done k.1 k.2)
  | .invalid _ => .inr .invalid

/-- All header lines up to the offset `last` -/
def runLines (v : Vars σ) (last : ℕ) : Outcome (HeaderLine × List TableElt × σ) (LinesEnd σ) :=
  run (nested (headerByte stream) (afterLine t stream)) v.pos (slice stream v.pos last)
    (v.line, v.headers, v.headersIn)

@[grind =] def withEmpty (headers : List TableElt) (x : σ) : List TableElt :=
  let headers := if t.server x then headers else headers++[emptyServer]
  if t.date x then headers else headers++[emptyDate]

def linesAnswer (v : Vars σ) :
    Outcome (HeaderLine × List TableElt × σ) (LinesEnd σ) → Rc × Option Response
  | .more _ => (.again, none)
  | .stop q (.done headers x) => (.ok, some ⟨v.statusN,v.statusLine,withEmpty t headers x,q+1⟩)
  | .stop _ .invalid => (.invalidHeader, none)
  | .stop _ .error => (.error, none)

def Vars.wait (v : Vars σ) (s : HeaderLine × List TableElt × σ) : Vars σ :=
  { v with pos := v.last, line := s.1, headers := s.2.1, headersIn := s.2.2 }

variable {t stream}

variable (v : Vars σ)

theorem empty_answer :
    answer (.ok, addEmpty t v) =
    (.ok, some ⟨v.statusN,v.statusLine,withEmpty t v.headers v.headersIn,v.pos⟩) := by
  rw [answer, if_pos rfl, addEmpty, withEmpty]
  cases t.server v.headersIn <;> cases hd : t.date v.headersIn <;> simp [hd]

theorem process_header_loop {n : ℕ} {v : Vars σ} (hn : v.last-v.pos < n)
    (hp : v.pos ≤ v.last) (hl : v.last ≤ stream.length) :
    answer (processHeaderLoop t stream n v) = linesAnswer t v (runLines t stream v v.last) ∧
      ∀ s, runLines t stream v v.last = .more s →
        processHeaderLoop t stream n v = (.again, Vars.wait v s) := by
  induction n generalizing v with
  | zero => exact absurd hn (Nat.not_lt_zero _)
  | succ n ih =>
    rw [processHeaderLoop, ngxHttpParseHeaderLine, runLines, run_nested]
    cases hrun : run (headerByte stream) v.pos (slice stream v.pos v.last) v.line with
    | more l => exact ⟨rfl,fun s hs => by cases hs; rfl⟩
    | stop q e =>
      have hq := stop_bounds hrun
      rw [slice_length stream hl] at hq
      cases e with
      | done l =>
        simp only [afterLine]
        cases hh : t.handler v.headersIn (parsedHeader stream { l with state := .start }) with
        | none => exact ⟨rfl,fun s hs => by cases hs⟩
        | some x =>
          simp only
          rw [slice_drop stream _ _ _ (by omega)]
          have hih := ih (v := { v with
            pos := q+1, line := { l with state := .start }
            headers := v.headers++[parsedHeader stream { l with state := .start }]
            headersIn := x }) (by show v.last-(q+1) < n; omega) (by show q+1 ≤ v.last; omega) hl
          exact hih
      | headerDone l => exact ⟨empty_answer _,fun s hs => by cases hs⟩
      | invalid l => exact ⟨rfl,fun s hs => by cases hs⟩

theorem process_header_answer {v : Vars σ} (hp : v.pos ≤ v.last) (hl : v.last ≤ stream.length) :
    answer (ngxHttpProxyProcessHeader t stream v) =
      linesAnswer t v (runLines t stream v v.last) :=
  (process_header_loop (Nat.lt_succ_self _) hp hl).1

theorem run_lines_more {v : Vars σ} {last total : ℕ} (hp : v.pos ≤ last) (ht : last ≤ total)
    (hl : total ≤ stream.length) : runLines t stream v total =
      (runLines t stream v last).bind fun s =>
        runLines t stream (Vars.wait { v with last := last } s) total :=
  run_slice _ stream hp ht hl _

def goOn (t : HeadersInHash σ) (stream : List UInt8) (reads : List ℕ) (r : Rc × Vars σ) :
    Rc × Vars σ :=
  match r with
  | (.again, v) => processReads t stream reads v
  | r => r

variable {reads : List ℕ}

theorem go_on_stop {r : Rc × Vars σ} (h : r.1 ≠ .again) : goOn t stream reads r = r := by
  obtain ⟨rc,v⟩ := r
  cases rc with
  | again => exact absurd rfl h
  | ok => rfl
  | error => rfl
  | invalidHeader => rfl

theorem reads_cons (reads : List ℕ) (n : ℕ) (v : Vars σ) :
    processReads t stream (n::reads) v = goOn t stream reads (processRead t stream v n) := rfl

theorem read_header {v : Vars σ} {n : ℕ} (hh : v.processHeader = .header) :
    processRead t stream v n =
      ngxHttpProxyProcessHeader t stream { v with last := v.last+n } := by
  rw [processRead]
  simp only [hh]

theorem header_go_on {v : Vars σ}
    (hrest : ∀ v' : Vars σ, v'.processHeader = .header → v'.pos = v'.last → v'.last+reads.sum ≤
      stream.length → answer (processReads t stream reads v') = linesAnswer t v' (runLines t stream
      v' (v'.last+reads.sum))) (hh : v.processHeader = .header) (hp : v.pos ≤ v.last)
    (hl : v.last+reads.sum ≤ stream.length) :
    answer (goOn t stream reads (ngxHttpProxyProcessHeader t stream v)) =
      linesAnswer t v (runLines t stream v (v.last+reads.sum)) := by
  have hloop : answer (ngxHttpProxyProcessHeader t stream v) =
      linesAnswer t v (runLines t stream v v.last) ∧ ∀ s, runLines t stream v v.last = .more s →
        ngxHttpProxyProcessHeader t stream v = (.again, Vars.wait v s) :=
    process_header_loop (Nat.lt_succ_self _) hp (by omega)
  obtain ⟨hanswer,hmore⟩ := hloop
  rw [run_lines_more hp (Nat.le_add_right _ _) hl]
  cases hrun : runLines t stream v v.last with
  | more s =>
    rw [hmore s hrun]
    exact hrest (Vars.wait v s) hh rfl hl
  | stop q e =>
    rw [hrun] at hanswer
    rw [go_on_stop fun he => ?_]
    · exact hanswer
    · have hrc := congrArg Prod.fst hanswer
      rw [answer, he] at hrc
      cases e <;> cases hrc

theorem reads_header {v : Vars σ} (hh : v.processHeader = .header) (hp : v.pos = v.last)
    (hl : v.last+reads.sum ≤ stream.length) :
    answer (processReads t stream reads v) =
      linesAnswer t v (runLines t stream v (v.last+reads.sum)) := by
  induction reads generalizing v with
  | nil =>
    rw [processReads, List.sum_nil, Nat.add_zero, runLines, hp, slice, Nat.sub_self]
    rfl
  | cons n reads ih =>
    rw [List.sum_cons, ← Nat.add_assoc] at hl ⊢
    rw [reads_cons, read_header hh]
    exact header_go_on (v := { v with last := v.last+n }) (fun _ => ih) hh
      (by show v.pos ≤ v.last+n; omega) hl

end Headers

/-! The status line -/

section Status

variable {σ : Type} {t : HeadersInHash σ} {stream : List UInt8}

/-- The status line up to the offset `last` -/
def runStatus (stream : List UInt8) (v : Vars σ) (last : ℕ) :
    Outcome (StatusState × HttpStatus) StatusEnd :=
  run statusByte v.pos (slice stream v.pos last) (v.statusState, v.status)

/-- The variables behind a status line that ends at `p` -/
def Vars.accept (stream : List UInt8) (v : Vars σ) (p : ℕ) (s : HttpStatus) : Vars σ :=
  { v with
    pos := p+1, statusState := .start
    status := { s with final := some (s.final.getD p) }
    stateStatus := s.code, statusN := s.code
    statusLine := slice stream (s.start.getD 0) (s.final.getD p)
    processHeader := .header }

variable {v : Vars σ}

theorem status_rejected_iff :
    (ngxHttpParseStatusLine stream v).1 = .error ↔
    ∃ p s, runStatus stream v v.last = .stop p (.error s) := by
  rw [ngxHttpParseStatusLine, runStatus]
  cases hrun : run statusByte v.pos (slice stream v.pos v.last) (v.statusState, v.status) with
  | more s => exact ⟨nofun,nofun⟩
  | stop p e =>
    cases e with
    | done s => exact ⟨nofun,nofun⟩
    | error s => exact ⟨fun _ => ⟨p,s,rfl⟩,fun _ => rfl⟩

theorem read_status {n : ℕ} (hh : v.processHeader = .statusLine) :
    processRead t stream v n =
      ngxHttpProxyProcessStatusLine t stream { v with last := v.last+n } := by
  rw [processRead]
  simp only [hh]

def StatusRead (t : HeadersInHash σ) (stream : List UInt8) (v : Vars σ) (r : Rc × Vars σ) :
    Outcome (StatusState × HttpStatus) StatusEnd → Prop
  | .more s => r = (.again, { v with pos := v.last, statusState := s.1, status := s.2 })
  | .stop p (.done s) => r = ngxHttpProxyProcessHeader t stream (Vars.accept stream v p s)
  | .stop _ (.error s) =>
    r = (.ok, { v with status := s, httpVersion := 9, stateStatus := 200 })

theorem process_status_line (t : HeadersInHash σ) (stream : List UInt8) (v : Vars σ) :
    StatusRead t stream v (ngxHttpProxyProcessStatusLine t stream v)
      (runStatus stream v v.last) := by
  rw [ngxHttpProxyProcessStatusLine, ngxHttpParseStatusLine, runStatus]
  cases hrun : run statusByte v.pos (slice stream v.pos v.last) (v.statusState, v.status) with
  | more s => rfl
  | stop p e =>
    cases e with
    | done s => rfl
    | error s => rfl

theorem run_status_more {last total : ℕ} (hp : v.pos ≤ last) (ht : last ≤ total)
    (hl : total ≤ stream.length) :
    runStatus stream v total =
      (runStatus stream v last).bind fun s =>
        runStatus stream { v with pos := last, statusState := s.1, status := s.2 } total :=
  run_slice _ stream hp ht hl _

def statusAnswer (t : HeadersInHash σ) (stream : List UInt8) (v : Vars σ) (total : ℕ) :
    Outcome (StatusState × HttpStatus) StatusEnd → Rc × Option Response
  | .stop p (.done s) => linesAnswer t (Vars.accept stream v p s)
      (runLines t stream (Vars.accept stream v p s) total)
  | _ => (.again, none)

variable {reads : List ℕ}

theorem reads_status (hh : v.processHeader = .statusLine) (hp : v.pos = v.last)
    (hl : v.last+reads.sum ≤ stream.length)
    (hr : ∀ p s, runStatus stream v (v.last+reads.sum) ≠ .stop p (.error s)) :
    answer (processReads t stream reads v) =
      statusAnswer t stream v (v.last+reads.sum) (runStatus stream v (v.last+reads.sum)) := by
  induction reads generalizing v with
  | nil =>
    rw [processReads, List.sum_nil, Nat.add_zero, runStatus, hp, slice, Nat.sub_self]
    rfl
  | cons n reads ih =>
    rw [List.sum_cons, ← Nat.add_assoc] at hl hr ⊢
    have hread := process_status_line t stream { v with last := v.last+n }
    rw [← read_status hh] at hread
    have hfirst : v.pos ≤ v.last+n := by omega
    rw [run_status_more hfirst (Nat.le_add_right _ reads.sum) hl] at hr ⊢
    rw [reads_cons]
    have hsame : runStatus stream { v with last := v.last+n } (v.last+n) =
        runStatus stream v (v.last+n) := rfl
    simp only [hsame] at hread
    cases hrun : runStatus stream v (v.last+n) with
    | more s =>
      rw [hrun] at hread hr
      rw [show processRead t stream v n = _ from hread]
      exact ih hh rfl hl hr
    | stop p e =>
      rw [hrun] at hread hr
      cases e with
      | error s => exact absurd rfl (hr p s)
      | done s =>
        have hbounds := stop_bounds hrun
        rw [slice_length stream (by omega)] at hbounds
        rw [show processRead t stream v n = _ from hread]
        refine header_go_on (v := Vars.accept stream { v with last := v.last+n } p s)
          (fun _ => reads_header) rfl ?_ hl
        show p+1 ≤ v.last+n
        omega

variable (n : ℕ)

theorem reads_one (v : Vars σ) : processReads t stream [n] v = processRead t stream v n := by
  rw [reads_cons]
  generalize processRead t stream v n = r
  obtain ⟨rc,v'⟩ := r
  cases rc <;> rfl

theorem any_reads (hh : v.processHeader = .statusLine) (hp : v.pos = v.last)
    (hl : v.last+reads.sum ≤ stream.length)
    (hlate : ∀ n rest, reads = n::rest → (∃ s, runStatus stream v (v.last+n) = .more s) → ∀ p s,
      runStatus stream v (v.last+reads.sum) ≠ .stop p (.error s)) :
    answer (processReads t stream reads v) = answer (processRead t stream v reads.sum) ∧
      ∀ p s, runStatus stream v (v.last+reads.sum) = .stop p (.error s) →
        answer (processReads t stream reads v) =
          (.ok, some ⟨v.statusN,v.statusLine,v.headers,v.pos⟩) := by
  have hone : reads.sum = [reads.sum].sum := (List.sum_singleton).symm
  by_cases hr : ∀ p s, runStatus stream v (v.last+reads.sum) ≠ .stop p (.error s)
  · refine ⟨?_,fun p s hs => absurd hs (hr p s)⟩
    have hall := reads_status (t := t) hh hp hl hr
    rw [hone] at hl hr
    rw [hall, ← reads_one, reads_status hh hp hl hr, ← hone]
  push Not at hr
  obtain ⟨p,s,hs⟩ := hr
  have hwhole := process_status_line t stream { v with last := v.last+reads.sum }
  rw [show runStatus stream { v with last := v.last+reads.sum } (v.last+reads.sum) = _ from hs,
    ← read_status hh] at hwhole
  cases reads with
  | nil =>
    rw [List.sum_nil, Nat.add_zero, runStatus, hp, slice, Nat.sub_self] at hs
    cases hs
  | cons n rest =>
    have hfirst := process_status_line t stream { v with last := v.last+n }
    rw [← read_status hh] at hfirst
    have hsame : runStatus stream { v with last := v.last+n } (v.last+n) =
        runStatus stream v (v.last+n) := rfl
    simp only [hsame] at hfirst
    cases hrun : runStatus stream v (v.last+n) with
    | more s' => exact absurd hs (hlate n rest rfl ⟨s',hrun⟩ p s)
    | stop q e =>
      have hmore := run_status_more (v := v)
        (show v.pos ≤ v.last+n by omega) (Nat.le_add_right _ rest.sum)
        (by rw [List.sum_cons, ← Nat.add_assoc] at hl; exact hl)
      rw [List.sum_cons, ← Nat.add_assoc, hmore, hrun] at hs
      obtain ⟨rfl,rfl⟩ := Outcome.stop.inj hs
      rw [hrun] at hfirst
      have hstop : processReads t stream (n::rest) v = processRead t stream v n := by
        rw [reads_cons, show processRead t stream v n = _ from hfirst]
        rfl
      rw [hstop, show processRead t stream v n = _ from hfirst,
        show processRead t stream v (n::rest).sum = _ from hwhole]
      exact ⟨rfl,fun _ _ _ => rfl⟩

end Status

/-! What a status line is -/

def Digits (xs : List UInt8) : Prop := xs ≠ [] ∧ ∀ ch ∈ xs, isDigit ch = true

/-- The text behind the code: none, or a space or a dot and no line end -/
def Text (xs : List UInt8) : Prop :=
  xs = [] ∨ ∃ ch text, xs = ch::text ∧ (ch = 32 ∨ ch = 46) ∧ ∀ c ∈ text, c ≠ 13 ∧ c ≠ 10

def LineEnd (xs : List UInt8) : Prop := xs = [10] ∨ xs = [13,10]

section Grammar

variable {s s' : HttpStatus} {p q : ℕ} {xs : List UInt8}

def Accepts (st : StatusState) (s : HttpStatus) (p : ℕ) (xs : List UInt8) (q : ℕ)
    (s' : HttpStatus) : Prop :=
  run statusByte p xs (st, s) = .stop q (.done s')

theorem accepts_nil (st : StatusState) : ¬ Accepts st s p [] q s' := nofun

variable {st st' : StatusState} {ch : UInt8}

theorem accepts_next {s₁ : HttpStatus} (h : statusByte p ch (st, s) = .inl (st', s₁)) :
    Accepts st s p (ch::xs) q s' ↔ Accepts st' s₁ (p+1) xs q s' := by
  rw [Accepts, run_next h, Accepts]

theorem accepts_error {s₁ : HttpStatus} (h : statusByte p ch (st, s) = .inr (.error s₁)) :
    ¬ Accepts st s p (ch::xs) q s' := by
  rw [Accepts, run_stop h]
  nofun

theorem accepts_byte {c : UInt8}
    (h : ∀ ch, statusByte p ch (st, s) = if ch = c then .inl (st', s) else .inr (.error s)) :
    Accepts st s p xs q s' ↔ ∃ ys, xs = c::ys ∧ Accepts st' s (p+1) ys q s' := by
  cases xs with
  | nil => exact ⟨fun ha => absurd ha (accepts_nil st),nofun⟩
  | cons ch ys =>
    by_cases hc : ch = c
    · subst hc
      rw [accepts_next (by rw [h, if_pos rfl])]
      exact ⟨fun ha => ⟨ys,rfl,ha⟩,fun ⟨_,he,ha⟩ => by cases he; exact ha⟩
    refine ⟨fun ha => absurd ha (accepts_error (by rw [h, if_neg hc])),?_⟩
    rintro ⟨_,he,-⟩
    cases he
    exact absurd rfl hc

theorem digit_iff (ch : UInt8) : isDigit ch = true ↔ ¬(ch < 48 ∨ ch > 57) := by
  simp only [isDigit, Bool.and_eq_true, decide_eq_true_eq, not_or, UInt8.not_lt, gt_iff_lt]

theorem accepts_digit {low : UInt8}
    (h : ∀ ch, statusByte p ch (st, s) = if ch < low ∨ ch > 57 then .inr (.error s) else .inl (st',
      s)) :
    Accepts st s p xs q s' ↔
      ∃ ch ys, xs = ch::ys ∧ (low ≤ ch ∧ ch ≤ 57) ∧ Accepts st' s (p+1) ys q s' := by
  cases xs with
  | nil => exact ⟨fun ha => absurd ha (accepts_nil st),nofun⟩
  | cons ch ys =>
    by_cases hc : ch < low ∨ ch > 57
    · refine ⟨fun ha => absurd ha (accepts_error (by rw [h, if_pos hc])),?_⟩
      rintro ⟨_,_,he,⟨hl,hr⟩,-⟩
      cases he
      rcases hc with hc | hc
      · exact absurd hl (UInt8.not_le.mpr hc)
      · exact absurd hr (UInt8.not_le.mpr hc)
    rw [accepts_next (by rw [h, if_neg hc])]
    obtain ⟨hl,hr⟩ := not_or.mp hc
    refine ⟨fun ha => ⟨ch,ys,rfl,⟨UInt8.not_lt.mp hl,UInt8.not_lt.mp hr⟩,ha⟩,?_⟩
    rintro ⟨_,_,he,-,ha⟩
    cases he
    exact ha

theorem accepts_digits {c : UInt8} (hc : isDigit c = false)
    (h : ∀ p ch, statusByte p ch (st, s) = if ch = c then .inl (st', s) else if ch < 48 ∨ ch > 57
      then .inr (.error s) else .inl (st, s)) :
    Accepts st s p xs q s' ↔ ∃ ds ys, (∀ ch ∈ ds, isDigit ch = true) ∧ xs = ds++c::ys ∧
      Accepts st' s (p+ds.length+1) ys q s' := by
  induction xs generalizing p with
  | nil =>
    refine ⟨fun ha => absurd ha (accepts_nil st),?_⟩
    rintro ⟨ds,ys,-,he,-⟩
    exact absurd he.symm (List.append_ne_nil_of_right_ne_nil _ (List.cons_ne_nil _ _))
  | cons ch xs ih =>
    by_cases hsep : ch = c
    · subst hsep
      rw [accepts_next (by rw [h, if_pos rfl])]
      refine ⟨fun ha => ⟨[],xs,by simp,rfl,ha⟩,?_⟩
      rintro ⟨ds,ys,hds,he,ha⟩
      cases ds with
      | nil => cases he; exact ha
      | cons d ds =>
        obtain ⟨rfl,-⟩ := List.cons.inj he
        rw [hds ch List.mem_cons_self] at hc
        cases hc
    by_cases hd : ch < 48 ∨ ch > 57
    · refine ⟨fun ha => absurd ha (accepts_error (by rw [h, if_neg hsep, if_pos hd])),?_⟩
      rintro ⟨ds,ys,hds,he,-⟩
      cases ds with
      | nil => cases he; exact absurd rfl hsep
      | cons d ds =>
        obtain ⟨rfl,-⟩ := List.cons.inj he
        exact absurd hd ((digit_iff ch).mp (hds ch List.mem_cons_self))
    rw [accepts_next (by rw [h, if_neg hsep, if_neg hd]), ih]
    constructor
    · rintro ⟨ds,ys,hds,rfl,ha⟩
      refine ⟨ch::ds,ys,?_,rfl,by rw [List.length_cons, ← Nat.add_assoc, Nat.add_right_comm p]; exact ha⟩
      exact List.forall_mem_cons.mpr ⟨(digit_iff ch).mpr hd,hds⟩
    · rintro ⟨ds,ys,hds,he,ha⟩
      cases ds with
      | nil => cases he; exact absurd rfl hsep
      | cons d ds =>
        obtain ⟨rfl,rfl⟩ := List.cons.inj he
        refine ⟨ds,ys,(List.forall_mem_cons.mp hds).2,rfl,?_⟩
        rw [List.length_cons, ← Nat.add_assoc, Nat.add_right_comm p] at ha
        exact ha

theorem accepts_spaces {f : ℕ → UInt8 → StatusState × HttpStatus}
    (h : ∀ p ch, statusByte p ch (st, s) = if ch = 32 then .inl (st, s) else if ch < 48 ∨ ch > 57
      then .inr (.error s) else .inl (f p ch)) :
    Accepts st s p xs q s' ↔ ∃ n ch ys, xs = List.replicate n 32++ch::ys ∧
      isDigit ch = true ∧ Accepts (f (p+n) ch).1 (f (p+n) ch).2 (p+n+1) ys q s' := by
  induction xs generalizing p with
  | nil =>
    refine ⟨fun ha => absurd ha (accepts_nil st),?_⟩
    rintro ⟨n,ch,ys,he,-⟩
    exact absurd he.symm (List.append_ne_nil_of_right_ne_nil _ (List.cons_ne_nil _ _))
  | cons ch xs ih =>
    by_cases hspace : ch = 32
    · subst hspace
      rw [accepts_next (by rw [h, if_pos rfl]), ih]
      constructor
      · rintro ⟨n,ch,ys,rfl,hd,ha⟩
        refine ⟨n+1,ch,ys,rfl,hd,?_⟩
        rw [show p+(n+1) = p+1+n by omega]
        exact ha
      · rintro ⟨n,ch,ys,he,hd,ha⟩
        cases n with
        | zero =>
          obtain ⟨rfl,-⟩ := List.cons.inj he
          cases hd
        | succ n =>
          obtain ⟨-,rfl⟩ := List.cons.inj he
          rw [show p+(n+1) = p+1+n by omega] at ha
          exact ⟨n,ch,ys,rfl,hd,ha⟩
    have hzero : ∀ n (c : UInt8) ys, ch::xs = List.replicate n 32++c::ys →
        n = 0 ∧ ch = c ∧ xs = ys := fun n c ys he => by
      cases n with
      | zero => exact ⟨rfl,List.cons.inj he⟩
      | succ n => exact absurd (List.cons.inj he).1 hspace
    by_cases hd : ch < 48 ∨ ch > 57
    · refine ⟨fun ha => absurd ha (accepts_error (by rw [h, if_neg hspace, if_pos hd])),?_⟩
      rintro ⟨n,c,ys,he,hc,-⟩
      obtain ⟨-,rfl,-⟩ := hzero n c ys he
      exact absurd hd ((digit_iff ch).mp hc)
    rw [accepts_next (by rw [h, if_neg hspace, if_neg hd])]
    refine ⟨fun ha => ⟨0,ch,xs,rfl,(digit_iff ch).mpr hd,ha⟩,?_⟩
    rintro ⟨n,c,ys,he,-,ha⟩
    obtain ⟨rfl,rfl,rfl⟩ := hzero n c ys he
    exact ha

theorem accepts_almost_done : Accepts .almostDone s p xs q s' ↔
    ∃ rest, xs = 10::rest ∧ q = p ∧ s' = { s with final := some (p-1) } := by
  cases xs with
  | nil => exact ⟨fun ha => absurd ha (accepts_nil _),nofun⟩
  | cons ch ys =>
    by_cases hc : ch = 10
    · subst hc
      rw [Accepts, run_stop (by rfl)]
      constructor
      · rintro ⟨⟩
        exact ⟨ys,rfl,rfl,rfl⟩
      · rintro ⟨_,-,rfl,rfl⟩
        rfl
    refine ⟨fun ha => absurd ha (accepts_error (by simp only [statusByte, if_neg hc]; rfl)),?_⟩
    rintro ⟨_,he,-⟩
    cases he
    exact absurd rfl hc

/-- The status when the line end begins at `p` -/
def ended (s : HttpStatus) (p : ℕ) (ending : List UInt8) : HttpStatus :=
  if ending = [10] then s else { s with final := some p }

theorem accepts_end (hc : ch = 13 ∨ ch = 10)
    (hcr : ∀ p, statusByte p 13 (st, s) = .inl (.almostDone, s))
    (hlf : ∀ p, statusByte p 10 (st, s) = .inr (.done s)) :
    Accepts st s p (ch::xs) q s' ↔ ∃ ending rest, LineEnd ending ∧ ch::xs = ending++rest ∧
      q = p+ending.length-1 ∧ s' = ended s p ending := by
  rcases hc with rfl | rfl
  · rw [accepts_next (hcr p), accepts_almost_done]
    constructor
    · rintro ⟨rest,rfl,rfl,rfl⟩
      exact ⟨[13,10],rest,Or.inr rfl,rfl,rfl,rfl⟩
    · rintro ⟨ending,rest,rfl | rfl,he,rfl,rfl⟩
      · cases he
      · obtain ⟨-,rfl⟩ := List.cons.inj he
        exact ⟨rest,rfl,rfl,rfl⟩
  rw [Accepts, run_stop (hlf p)]
  constructor
  · rintro ⟨⟩
    exact ⟨[10],xs,Or.inl rfl,rfl,rfl,rfl⟩
  · rintro ⟨ending,rest,rfl | rfl,he,rfl,rfl⟩
    · rfl
    · cases he

theorem accepts_text : Accepts .statusText s p xs q s' ↔ ∃ text ending rest,
    (∀ c ∈ text, c ≠ 13 ∧ c ≠ 10) ∧ LineEnd ending ∧ xs = text++(ending++rest) ∧
      q = p+text.length+ending.length-1 ∧ s' = ended s (p+text.length) ending := by
  induction xs generalizing p with
  | nil =>
    refine ⟨fun ha => absurd ha (accepts_nil _),?_⟩
    rintro ⟨text,ending,rest,-,hend | hend,he,-⟩ <;> subst hend
    · exact absurd he.symm (List.append_ne_nil_of_right_ne_nil _ (List.cons_ne_nil _ _))
    · exact absurd he.symm (List.append_ne_nil_of_right_ne_nil _ (List.cons_ne_nil _ _))
  | cons ch xs ih =>
    by_cases hc : ch = 13 ∨ ch = 10
    · rw [accepts_end hc (fun _ => rfl) (fun _ => rfl)]
      constructor
      · rintro ⟨ending,rest,hend,he,hq,hs⟩
        exact ⟨[],ending,rest,by simp,hend,he,hq,hs⟩
      · rintro ⟨text,ending,rest,htext,hend,he,hq,hs⟩
        cases text with
        | nil => exact ⟨ending,rest,hend,he,hq,hs⟩
        | cons c text =>
          obtain ⟨rfl,-⟩ := List.cons.inj he
          have hnot := htext ch List.mem_cons_self
          exact absurd hc (not_or.mpr hnot)
    obtain ⟨hcr,hlf⟩ := not_or.mp hc
    have hstep : statusByte p ch (.statusText, s) = .inl (.statusText, s) := by
      simp only [statusByte, if_neg hcr, if_neg hlf]
    rw [accepts_next hstep, ih]
    constructor
    · rintro ⟨text,ending,rest,htext,hend,rfl,rfl,rfl⟩
      refine ⟨ch::text,ending,rest,List.forall_mem_cons.mpr ⟨⟨hcr,hlf⟩,htext⟩,hend,rfl,?_,?_⟩
      · rw [List.length_cons]
        omega
      · rw [List.length_cons, show p+(text.length+1) = p+1+text.length by omega]
    · rintro ⟨text,ending,rest,htext,hend,he,rfl,rfl⟩
      cases text with
      | nil =>
        rcases hend with rfl | rfl
        · exact absurd (List.cons.inj he).1 hlf
        · exact absurd (List.cons.inj he).1 hcr
      | cons c text =>
        obtain ⟨rfl,rfl⟩ := List.cons.inj he
        refine ⟨text,ending,rest,(List.forall_mem_cons.mp htext).2,hend,rfl,?_,?_⟩
        · rw [List.length_cons]
          omega
        · rw [List.length_cons, show p+(text.length+1) = p+1+text.length by omega]

theorem accepts_after_status : Accepts .spaceAfterStatus s p xs q s' ↔ ∃ text ending rest,
    Text text ∧ LineEnd ending ∧ xs = text++(ending++rest) ∧
      q = p+text.length+ending.length-1 ∧ s' = ended s (p+text.length) ending := by
  cases xs with
  | nil =>
    refine ⟨fun ha => absurd ha (accepts_nil _),?_⟩
    rintro ⟨text,ending,rest,-,hend | hend,he,-⟩ <;> subst hend
    · exact absurd he.symm (List.append_ne_nil_of_right_ne_nil _ (List.cons_ne_nil _ _))
    · exact absurd he.symm (List.append_ne_nil_of_right_ne_nil _ (List.cons_ne_nil _ _))
  | cons ch xs =>
    by_cases hc : ch = 13 ∨ ch = 10
    · rw [accepts_end hc (fun _ => rfl) (fun _ => rfl)]
      constructor
      · rintro ⟨ending,rest,hend,he,hq,hs⟩
        exact ⟨[],ending,rest,Or.inl rfl,hend,he,hq,hs⟩
      · rintro ⟨text,ending,rest,rfl | ⟨c,text,rfl,hsep,-⟩,hend,he,hq,hs⟩
        · exact ⟨ending,rest,hend,he,hq,hs⟩
        · obtain ⟨rfl,-⟩ := List.cons.inj he
          rcases hsep with rfl | rfl <;> exact absurd hc (by decide)
    obtain ⟨hcr,hlf⟩ := not_or.mp hc
    by_cases hsep : ch = 32 ∨ ch = 46
    · have hstep : statusByte p ch (.spaceAfterStatus, s) = .inl (.statusText, s) := by
        rcases hsep with rfl | rfl <;> rfl
      rw [accepts_next hstep, accepts_text]
      constructor
      · rintro ⟨text,ending,rest,htext,hend,rfl,rfl,rfl⟩
        refine ⟨ch::text,ending,rest,Or.inr ⟨ch,text,rfl,hsep,htext⟩,hend,rfl,?_,?_⟩
        · rw [List.length_cons]
          omega
        · rw [List.length_cons, show p+(text.length+1) = p+1+text.length by omega]
      · rintro ⟨text,ending,rest,rfl | ⟨c,text,rfl,-,htext⟩,hend,he,rfl,rfl⟩
        · rcases hend with rfl | rfl
          · exact absurd (List.cons.inj he).1 hlf
          · exact absurd (List.cons.inj he).1 hcr
        · obtain ⟨rfl,rfl⟩ := List.cons.inj he
          refine ⟨text,ending,rest,htext,hend,rfl,?_,?_⟩
          · rw [List.length_cons]
            omega
          · rw [List.length_cons, show p+(text.length+1) = p+1+text.length by omega]
    obtain ⟨hspace,hdot⟩ := not_or.mp hsep
    have hstep : statusByte p ch (.spaceAfterStatus, s) = .inr (.error s) := by
      simp only [statusByte, if_neg hspace, if_neg hdot, if_neg hcr, if_neg hlf]
    refine ⟨fun ha => absurd ha (accepts_error hstep),?_⟩
    rintro ⟨text,ending,rest,rfl | ⟨c,text,rfl,hc,-⟩,hend,he,-⟩
    · rcases hend with rfl | rfl
      · exact absurd (List.cons.inj he).1 hlf
      · exact absurd (List.cons.inj he).1 hcr
    · obtain ⟨rfl,-⟩ := List.cons.inj he
      exact absurd hc hsep

def version (major minor : List UInt8) : List UInt8 := httpName++47::(major++46::minor)

/-- The version is one of digits, the major one not beginning with 0. -/
def Version (major minor : List UInt8) : Prop :=
  Digits major ∧ major.head? ≠ some 48 ∧ Digits minor

theorem accepts_http : Accepts .start s 0 xs q s' ↔ ∃ ys, xs = httpName++47::ys ∧
    Accepts .firstMajorDigit s 5 ys q s' := by
  have hstart : Accepts .start s 0 xs q s' ↔ ∃ ys, xs = 72::ys ∧ Accepts .h s 1 ys q s' :=
    accepts_byte fun _ => rfl
  have hh : ∀ ys, Accepts .h s 1 ys q s' ↔ ∃ zs, ys = 84::zs ∧ Accepts .ht s 2 zs q s' :=
    fun _ => accepts_byte fun _ => rfl
  have hht : ∀ ys, Accepts .ht s 2 ys q s' ↔ ∃ zs, ys = 84::zs ∧ Accepts .htt s 3 zs q s' :=
    fun _ => accepts_byte fun _ => rfl
  have hhtt : ∀ ys, Accepts .htt s 3 ys q s' ↔ ∃ zs, ys = 80::zs ∧ Accepts .http s 4 zs q s' :=
    fun _ => accepts_byte fun _ => rfl
  have hhttp : ∀ ys, Accepts .http s 4 ys q s' ↔
      ∃ zs, ys = 47::zs ∧ Accepts .firstMajorDigit s 5 zs q s' :=
    fun _ => accepts_byte fun _ => rfl
  simp only [hstart, hh, hht, hhtt, hhttp]
  constructor
  · rintro ⟨_,rfl,_,rfl,_,rfl,_,rfl,ys,rfl,h⟩
    exact ⟨ys,rfl,h⟩
  · rintro ⟨ys,rfl,h⟩
    exact ⟨_,rfl,_,rfl,_,rfl,_,rfl,ys,rfl,h⟩

theorem digit_range (ch : UInt8) : isDigit ch = true ↔ 48 ≤ ch ∧ ch ≤ 57 := by
  rw [isDigit, Bool.and_eq_true, decide_eq_true_eq, decide_eq_true_eq]

theorem accepts_version : Accepts .start s 0 xs q s' ↔ ∃ major minor ys, Version major minor ∧
    xs = version major minor++32::ys ∧
      Accepts .status s ((version major minor).length+1) ys q s' := by
  have hlen : ∀ (d e : UInt8) (ds es : List UInt8), (version (d::ds) (e::es)).length+1 =
      5+1+ds.length+1+1+es.length+1 := fun d e ds es => by
    simp only [version, httpName, List.length_append, List.length_cons, List.length_nil]
    omega
  have hfirst : ∀ ys, Accepts .firstMajorDigit s 5 ys q s' ↔ ∃ ch zs, ys = ch::zs ∧
      (49 ≤ ch ∧ ch ≤ 57) ∧ Accepts .majorDigit s (5+1) zs q s' :=
    fun _ => accepts_digit fun _ => rfl
  have hmajor : ∀ p ys, Accepts .majorDigit s p ys q s' ↔ ∃ ds zs,
      (∀ ch ∈ ds, isDigit ch = true) ∧ ys = ds++46::zs ∧
        Accepts .firstMinorDigit s (p+ds.length+1) zs q s' :=
    fun _ _ => accepts_digits rfl fun _ _ => rfl
  have hsecond : ∀ p ys, Accepts .firstMinorDigit s p ys q s' ↔ ∃ ch zs, ys = ch::zs ∧
      (48 ≤ ch ∧ ch ≤ 57) ∧ Accepts .minorDigit s (p+1) zs q s' :=
    fun _ _ => accepts_digit fun _ => rfl
  have hminor : ∀ p ys, Accepts .minorDigit s p ys q s' ↔ ∃ ds zs,
      (∀ ch ∈ ds, isDigit ch = true) ∧ ys = ds++32::zs ∧
        Accepts .status s (p+ds.length+1) zs q s' :=
    fun _ _ => accepts_digits rfl fun _ _ => rfl
  rw [accepts_http]
  constructor
  · rintro ⟨us,rfl,hu⟩
    obtain ⟨d,vs,rfl,⟨hl,hr⟩,hv⟩ := (hfirst us).mp hu
    obtain ⟨ds,ws,hds,rfl,hw⟩ := (hmajor _ vs).mp hv
    obtain ⟨e,zs,rfl,he,hz⟩ := (hsecond _ ws).mp hw
    obtain ⟨es,ys,hes,rfl,hy⟩ := (hminor _ zs).mp hz
    have hd : isDigit d = true := (digit_range d).mpr ⟨UInt8.le_trans (by decide) hl,hr⟩
    refine ⟨d::ds,e::es,ys,⟨⟨List.cons_ne_nil _ _,List.forall_mem_cons.mpr ⟨hd,hds⟩⟩,?_,
      List.cons_ne_nil _ _,List.forall_mem_cons.mpr ⟨(digit_range e).mpr he,hes⟩⟩,?_,?_⟩
    · rintro hzero
      obtain rfl := Option.some.inj hzero
      exact absurd hl (by decide)
    · simp [version]
    · rw [hlen]
      exact hy
  · rintro ⟨major,minor,ys,⟨⟨hne,hds⟩,hzero,hne',hes⟩,rfl,hy⟩
    obtain ⟨d,ds,rfl⟩ := List.exists_cons_of_ne_nil hne
    obtain ⟨e,es,rfl⟩ := List.exists_cons_of_ne_nil hne'
    rw [hlen] at hy
    obtain ⟨hd,hds⟩ := List.forall_mem_cons.mp hds
    obtain ⟨he,hes⟩ := List.forall_mem_cons.mp hes
    obtain ⟨hl,hr⟩ := (digit_range d).mp hd
    have hlow : 49 ≤ d := by
      have hne : d.toNat ≠ 48 := fun he => hzero (congrArg some (UInt8.toNat_inj.mp he))
      have hl : 48 ≤ d.toNat := hl
      show 49 ≤ d.toNat
      omega
    refine ⟨d::(ds++46::(e::(es++32::ys))),by simp [version],(hfirst _).mpr ⟨d,_,rfl,⟨hlow,hr⟩,
      (hmajor _ _).mpr ⟨ds,_,hds,rfl,(hsecond _ _).mpr ⟨e,_,rfl,(digit_range e).mp he,
        (hminor _ _).mpr ⟨es,ys,hes,rfl,hy⟩⟩⟩⟩⟩

@[grind =] def digitValue (ch : UInt8) : ℕ := ch.toNat-48

def codeValue (d₁ d₂ d₃ : UInt8) : ℕ := (digitValue d₁*10+digitValue d₂)*10+digitValue d₃

/-- The digits of the code as the parser takes them, with spaces between them -/
def spacedCode (n₂ n₃ : ℕ) (d₁ d₂ d₃ : UInt8) : List UInt8 :=
  d₁::(List.replicate n₂ 32++d₂::(List.replicate n₃ 32++[d₃]))

theorem add_digit (h : isDigit ch = true) (n : ℕ) : n+ch.toNat-48 = n+digitValue ch := by
  have hl : 48 ≤ ch.toNat := ((digit_range ch).mp h).1
  rw [digitValue]
  omega

theorem accepts_code : Accepts .status ⟨0,0,none,none⟩ p xs q s' ↔
    ∃ n n₂ n₃ d₁ d₂ d₃ ys, (isDigit d₁ = true ∧ isDigit d₂ = true ∧ isDigit d₃ = true) ∧
      xs = List.replicate n 32++(spacedCode n₂ n₃ d₁ d₂ d₃++ys) ∧
      Accepts .spaceAfterStatus ⟨codeValue d₁ d₂ d₃,3,some (p+n+1+n₂+1+n₃-2),none⟩
        (p+n+1+n₂+1+n₃+1) ys q s' := by
  have hone : ∀ (s : HttpStatus) (p : ℕ) ys, s.count+1 ≠ 3 → (Accepts .status s p ys q s' ↔
      ∃ n ch zs, ys = List.replicate n 32++ch::zs ∧ isDigit ch = true ∧
        Accepts .status { s with code := s.code*10+ch.toNat-48, count := s.count+1 }
          (p+n+1) zs q s') := fun s p ys hk =>
    accepts_spaces (f := fun _ ch =>
      (.status, { s with code := s.code*10+ch.toNat-48, count := s.count+1 }))
      fun p ch => by simp only [statusByte, if_neg hk]
  have hlast : ∀ (s : HttpStatus) (p : ℕ) ys, s.count+1 = 3 → (Accepts .status s p ys q s' ↔
      ∃ n ch zs, ys = List.replicate n 32++ch::zs ∧ isDigit ch = true ∧
        Accepts .spaceAfterStatus { s with
          code := s.code*10+ch.toNat-48, count := s.count+1, start := some (p+n-2) }
          (p+n+1) zs q s') := fun s p ys hk =>
    accepts_spaces (f := fun p ch => (.spaceAfterStatus, { s with
      code := s.code*10+ch.toNat-48, count := s.count+1, start := some (p-2) }))
      fun p ch => by simp only [statusByte, if_pos hk]
  have hvalue : ∀ d₁ d₂ d₃ : UInt8, isDigit d₁ = true → isDigit d₂ = true → isDigit d₃ = true →
      ((0*10+d₁.toNat-48)*10+d₂.toNat-48)*10+d₃.toNat-48 = codeValue d₁ d₂ d₃ :=
    fun d₁ d₂ d₃ h₁ h₂ h₃ => by
      rw [add_digit h₁, add_digit h₂, add_digit h₃, codeValue]
      simp
  constructor
  · intro h
    obtain ⟨n,d₁,us,rfl,h₁,hu⟩ := (hone _ _ _ (show 1 ≠ 3 by decide)).mp h
    obtain ⟨n₂,d₂,vs,rfl,h₂,hv⟩ := (hone _ _ us (show 2 ≠ 3 by decide)).mp hu
    obtain ⟨n₃,d₃,ys,rfl,h₃,hy⟩ := (hlast _ _ vs rfl).mp hv
    simp only [hvalue d₁ d₂ d₃ h₁ h₂ h₃] at hy
    exact ⟨n,n₂,n₃,d₁,d₂,d₃,ys,⟨h₁,h₂,h₃⟩,by simp [spacedCode],hy⟩
  · rintro ⟨n,n₂,n₃,d₁,d₂,d₃,ys,⟨h₁,h₂,h₃⟩,rfl,hy⟩
    have hbytes : List.replicate n 32++(spacedCode n₂ n₃ d₁ d₂ d₃++ys) = List.replicate n 32++
        d₁::(List.replicate n₂ 32++d₂::(List.replicate n₃ 32++d₃::ys)) := by
      simp [spacedCode]
    rw [hbytes]
    refine (hone _ _ _ (show 1 ≠ 3 by decide)).mpr ⟨n,d₁,_,rfl,h₁,
      (hone _ _ _ (show 2 ≠ 3 by decide)).mpr ⟨n₂,d₂,_,rfl,h₂,
        (hlast _ _ _ rfl).mpr ⟨n₃,d₃,ys,rfl,h₃,?_⟩⟩⟩
    simp only [hvalue d₁ d₂ d₃ h₁ h₂ h₃]
    exact hy

theorem spaced_code_length (n₂ n₃ : ℕ) (d₁ d₂ d₃ : UInt8) :
    (spacedCode n₂ n₃ d₁ d₂ d₃).length = n₂+n₃+3 := by
  simp only [spacedCode, List.length_cons, List.length_append, List.length_replicate,
    List.length_nil]
  omega

def lineStart (major minor : List UInt8) (n : ℕ) (code : List UInt8) : List UInt8 :=
  version major minor++32::(List.replicate n 32++code)

theorem accepts_iff : Accepts .start ⟨0,0,none,none⟩ 0 xs q s' ↔
    ∃ major minor n n₂ n₃ d₁ d₂ d₃ text ending rest, Version major minor ∧
      (isDigit d₁ = true ∧ isDigit d₂ = true ∧ isDigit d₃ = true) ∧ Text text ∧
      LineEnd ending ∧
      xs = lineStart major minor n (spacedCode n₂ n₃ d₁ d₂ d₃)++(text++(ending++rest)) ∧
      q = (lineStart major minor n (spacedCode n₂ n₃ d₁ d₂ d₃)).length+text.length+
        ending.length-1 ∧
      s' = ended ⟨codeValue d₁ d₂ d₃,3,
          some ((lineStart major minor n (spacedCode n₂ n₃ d₁ d₂ d₃)).length-3),none⟩
        ((lineStart major minor n (spacedCode n₂ n₃ d₁ d₂ d₃)).length+text.length) ending := by
  have hlen : ∀ (major minor : List UInt8) (n n₂ n₃ : ℕ) (d₁ d₂ d₃ : UInt8),
      (lineStart major minor n (spacedCode n₂ n₃ d₁ d₂ d₃)).length =
        (version major minor).length+1+n+1+n₂+1+n₃+1 := fun major minor n n₂ n₃ d₁ d₂ d₃ => by
    rw [lineStart, List.length_append, List.length_cons, List.length_append,
      List.length_replicate, spaced_code_length]
    omega
  have hstart : ∀ k : ℕ, k+1-3 = k-2 := fun k => by omega
  rw [accepts_version]
  constructor
  · rintro ⟨major,minor,ys,hv,rfl,h⟩
    obtain ⟨n,n₂,n₃,d₁,d₂,d₃,zs,hd,rfl,hz⟩ := accepts_code.mp h
    obtain ⟨text,ending,rest,ht,he,rfl,hq,hs⟩ := accepts_after_status.mp hz
    refine ⟨major,minor,n,n₂,n₃,d₁,d₂,d₃,text,ending,rest,hv,hd,ht,he,?_,?_,?_⟩
    · simp [lineStart]
    · rw [hlen]
      exact hq
    · rw [hlen, hstart]
      exact hs
  · rintro ⟨major,minor,n,n₂,n₃,d₁,d₂,d₃,text,ending,rest,hv,hd,ht,he,rfl,hq,hs⟩
    rw [hlen] at hq
    rw [hlen, hstart] at hs
    refine ⟨major,minor,List.replicate n 32++(spacedCode n₂ n₃ d₁ d₂ d₃++(text++(ending++rest))),
      hv,by simp [lineStart],accepts_code.mpr ⟨n,n₂,n₃,d₁,d₂,d₃,_,hd,rfl,
        accepts_after_status.mpr ⟨text,ending,rest,ht,he,rfl,hq,hs⟩⟩⟩

end Grammar

/-- `HTTP/<digits>.<digits>`, spaces, three digits, and text up to the end of the line -/
structure StatusLine (stream major minor code text rest : List UInt8) : Prop where
  majorDigits : Digits major
  minorDigits : Digits minor
  codeLength : code.length = 3
  codeDigits : ∀ ch ∈ code, isDigit ch = true
  textForm : Text text
  bytes : ∃ n ending, LineEnd ending ∧ stream = lineStart major minor n code++(text++(ending++rest))

/-- There is a space behind the first or the second digit of the code. -/
def Spaced (stream : List UInt8) : Prop :=
  ∃ major minor n ds rest, Version major minor ∧ (∀ ch ∈ ds, isDigit ch = true) ∧
    (ds.length = 1 ∨ ds.length = 2) ∧ stream = lineStart major minor n ds++32::rest

section Law

variable {σ : Type}

def begun (v : Vars σ) : Vars σ :=
  { ngxHttpProxyReinitRequest v with
    pos := 0, last := 0, statusN := 0, statusLine := [], headers := [] }

def parseWhole (stream : List UInt8) (v : Vars σ) : StatusRc × Vars σ :=
  ngxHttpParseStatusLine stream { v with last := stream.length }

def Late (stream : List UInt8) (v : Vars σ) (reads : List ℕ) : Prop :=
  ∃ n rest, reads = n::rest ∧ (ngxHttpParseStatusLine stream { v with last := n }).1 = .again ∧
    (parseWhole stream v).1 = .error

/-- The response does not depend on where the reads end; the status lines that are accepted are
those of the grammar whose version does not begin with 0, with the code and the text in the
response; and a stream that is not accepted is handed on from its first byte. -/
structure Law (t : HeadersInHash σ) (stream : List UInt8) (v : Vars σ) : Prop where
  reads : ∀ reads : List ℕ, reads.sum = stream.length → ¬ Late stream v reads →
    answer (processReads t stream reads v) = answer (processRead t stream v stream.length)
  accepted : ¬ Spaced stream → ((parseWhole stream v).1 = .ok ↔ ∃ major minor code text rest,
    StatusLine stream major minor code text rest ∧ major.head? ≠ some 48)
  line : ∀ major minor code text rest, StatusLine stream major minor code text rest →
    major.head? ≠ some 48 →
    answer (processRead t stream v stream.length) = linesAnswer t
      { v with
        statusN := code.foldl (fun n ch => n*10+digitValue ch) 0, statusLine := code++text }
      (runLines t stream { v with pos := stream.length-rest.length } stream.length)
  rejected : (parseWhole stream v).1 = .error → ∀ reads : List ℕ, reads.sum = stream.length →
    ¬ Late stream v reads → answer (processReads t stream reads v) = (.ok, some ⟨0,[],[],0⟩)

variable {t : HeadersInHash σ} {stream : List UInt8} {v : Vars σ}

theorem run_whole : runStatus stream (begun v) stream.length =
    run statusByte 0 stream (.start, ⟨0,0,none,none⟩) := by
  have hslice : slice stream 0 stream.length = stream := by
    rw [slice, List.drop_zero, Nat.sub_zero, List.take_length]
  rw [runStatus]
  show run statusByte 0 (slice stream 0 stream.length) _ = _
  rw [hslice]
  rfl

theorem whole_result : parseWhole stream (begun v) =
    match run statusByte 0 stream (.start, ⟨0,0,none,none⟩) with
    | .more s => (.again, { begun v with
        pos := stream.length, last := stream.length, statusState := s.1, status := s.2 })
    | .stop p (.done s) => (.ok, { begun v with
        pos := p+1, last := stream.length, statusState := .start
        status := { s with final := some (s.final.getD p) } })
    | .stop _ (.error s) => (.error, { begun v with last := stream.length, status := s }) := by
  have hrun : runStatus stream (begun v) stream.length = _ := run_whole
  rw [← hrun]
  rfl

theorem whole_ok_iff : (parseWhole stream (begun v)).1 = .ok ↔
    ∃ q s, Accepts .start ⟨0,0,none,none⟩ 0 stream q s := by
  rw [whole_result]
  cases hrun : run statusByte 0 stream (.start, ⟨0,0,none,none⟩) with
  | more s =>
    refine ⟨nofun,?_⟩
    rintro ⟨q,s',ha⟩
    rw [Accepts, hrun] at ha
    cases ha
  | stop p e =>
    cases e with
    | done s => exact ⟨fun _ => ⟨p,s,hrun⟩,fun _ => rfl⟩
    | error s =>
      refine ⟨nofun,?_⟩
      rintro ⟨q,s',ha⟩
      rw [Accepts, hrun] at ha
      cases ha

theorem again_of_more (h : ∃ s, runStatus stream v v.last = .more s) :
    (ngxHttpParseStatusLine stream v).1 = .again := by
  obtain ⟨s,hs⟩ := h
  rw [runStatus] at hs
  rw [ngxHttpParseStatusLine, hs]

variable {reads : List ℕ}

theorem late_of (hs : reads.sum = stream.length) (hlate : ¬ Late stream (begun v) reads) (n : ℕ)
    (rest : List ℕ) (hr : reads = n::rest) (hm : ∃ s, runStatus stream (begun v) (0+n) = .more s)
    (p : ℕ) (s : HttpStatus) : runStatus stream (begun v) (0+reads.sum) ≠ .stop p (.error s) := by
  rw [Nat.zero_add] at hm ⊢
  rw [hs]
  refine fun he => hlate ⟨n,rest,hr,again_of_more hm,status_rejected_iff.mpr ⟨p,s,he⟩⟩

theorem ended_code (s : HttpStatus) (p : ℕ) (ending : List UInt8) :
    (ended s p ending).code = s.code ∧ (ended s p ending).start = s.start := by
  rw [ended]
  split_ifs <;> exact ⟨rfl,rfl⟩

theorem ended_final {s : HttpStatus} {p : ℕ} {ending : List UInt8} (he : LineEnd ending)
    (hs : s.final = none) : (ended s p ending).final.getD (p+ending.length-1) = p := by
  rcases he with rfl | rfl
  · rw [ended, if_pos rfl, hs]
    rfl
  · rfl

theorem line_start_append (major minor : List UInt8) (n : ℕ) (xs ys : List UInt8) :
    lineStart major minor n (xs++ys) = lineStart major minor n xs++ys := by
  simp [lineStart]

theorem line_accepted {major minor code text rest : List UInt8}
    (h : StatusLine stream major minor code text rest) (hm : major.head? ≠ some 48) :
    ∃ q s, Accepts .start ⟨0,0,none,none⟩ 0 stream q s ∧
      s.code = code.foldl (fun n ch => n*10+digitValue ch) 0 ∧
      slice stream (s.start.getD 0) (s.final.getD q) = code++text ∧
      q+1 = stream.length-rest.length := by
  obtain ⟨d₁,d₂,d₃,rfl⟩ := List.length_eq_three.mp h.codeLength
  obtain ⟨n,ending,hend,hbytes⟩ := h.bytes
  have hdigits := h.codeDigits
  simp only [List.mem_cons, List.not_mem_nil, or_false, forall_eq_or_imp, forall_eq] at hdigits
  have hstart : lineStart major minor n [d₁, d₂, d₃] =
      lineStart major minor n []++[d₁, d₂, d₃] := line_start_append major minor n [] _
  have hlen : (lineStart major minor n (spacedCode 0 0 d₁ d₂ d₃)).length =
      (lineStart major minor n []).length+3 := by
    show (lineStart major minor n [d₁, d₂, d₃]).length = _
    rw [hstart, List.length_append]
    rfl
  refine ⟨_,_,accepts_iff.mpr ⟨major,minor,n,0,0,d₁,d₂,d₃,text,ending,rest,
    ⟨h.majorDigits,hm,h.minorDigits⟩,hdigits,h.textForm,hend,hbytes,rfl,rfl⟩,?_,?_,?_⟩
  · rw [(ended_code _ _ _).1]
    simp [codeValue]
  · rw [(ended_code _ _ _).2, ended_final hend rfl, hlen, hbytes, hstart]
    simp only [Option.getD_some, Nat.add_sub_cancel]
    have hmiddle := slice_middle (lineStart major minor n []) ([d₁, d₂, d₃]++text) (ending++rest)
    rw [List.length_append, ← Nat.add_assoc] at hmiddle
    simp only [List.append_assoc] at hmiddle ⊢
    exact hmiddle
  · have hpos : 0 < ending.length := by
      rcases hend with rfl | rfl <;> decide
    have hall := congrArg List.length hbytes
    rw [hstart] at hall
    simp only [List.length_append, List.length_cons, List.length_nil] at hall
    rw [hlen]
    omega

theorem accepted_line (hs : ¬ Spaced stream) {q : ℕ} {s : HttpStatus}
    (h : Accepts .start ⟨0,0,none,none⟩ 0 stream q s) : ∃ major minor code text rest,
      StatusLine stream major minor code text rest ∧ major.head? ≠ some 48 := by
  obtain ⟨major,minor,n,n₂,n₃,d₁,d₂,d₃,text,ending,rest,hv,⟨h₁,h₂,h₃⟩,ht,he,hbytes,-⟩ :=
    accepts_iff.mp h
  cases n₂ with
  | succ n₂ =>
    refine absurd ⟨major,minor,n,[d₁],List.replicate n₂ 32++(d₂::(List.replicate n₃ 32++[d₃])++
      (text++(ending++rest))),hv,by simpa using h₁,Or.inl rfl,?_⟩ hs
    rw [hbytes]
    simp [lineStart, spacedCode, List.replicate_succ]
  | zero =>
    cases n₃ with
    | succ n₃ =>
      refine absurd ⟨major,minor,n,[d₁, d₂],List.replicate n₃ 32++(d₃::
        (text++(ending++rest))),hv,by simpa using ⟨h₁,h₂⟩,Or.inr rfl,?_⟩ hs
      rw [hbytes]
      simp [lineStart, spacedCode, List.replicate_succ]
    | zero =>
      obtain ⟨hmajor,hm,hminor⟩ := hv
      exact ⟨major,minor,[d₁, d₂, d₃],text,rest,
        ⟨hmajor,hminor,rfl,by simpa using ⟨h₁,h₂,h₃⟩,ht,n,ending,he,hbytes⟩,hm⟩

/-- The law holds for every stream. -/
theorem proxy_response (t : HeadersInHash σ) (stream : List UInt8) (v : Vars σ) :
    Law t stream (begun v) := by
  have hbound : ∀ reads : List ℕ, reads.sum = stream.length →
      (begun v).last+reads.sum ≤ stream.length := fun reads hs => by
    rw [hs]
    exact (Nat.zero_add _).le
  refine ⟨fun reads hs hlate => ?_,fun hspaced => ?_,fun major minor code text rest hline hm => ?_,
    fun hr reads hs hlate => ?_⟩
  · rw [← hs]
    exact (any_reads rfl rfl (hbound reads hs) (late_of hs hlate)).1
  · rw [whole_ok_iff]
    constructor
    · rintro ⟨q,s,ha⟩
      exact accepted_line hspaced ha
    · rintro ⟨major,minor,code,text,rest,hline,hm⟩
      obtain ⟨q,s,ha,-⟩ := line_accepted hline hm
      exact ⟨q,s,ha⟩
  · obtain ⟨q,s,ha,hcode,htext,hq⟩ := line_accepted hline hm
    have hread := process_status_line t stream { begun v with last := stream.length }
    have hrun : runStatus stream (begun v) stream.length = .stop q (.done s) :=
      run_whole.trans ha
    rw [show runStatus stream { begun v with last := stream.length } stream.length = _ from
      hrun] at hread
    have hlast : q+1 ≤ stream.length := by omega
    have hstream : (begun v).last+stream.length = stream.length := Nat.zero_add _
    rw [read_status rfl, hstream, show ngxHttpProxyProcessStatusLine t stream _ = _ from hread,
      process_header_answer hlast le_rfl, ← hcode, ← htext, ← hq]
    rfl
  · obtain ⟨p,s,hrun⟩ := status_rejected_iff.mp hr
    refine (any_reads rfl rfl (hbound reads hs) (late_of hs hlate)).2 p s ?_
    rw [hs]
    show runStatus stream (begun v) (0+stream.length) = _
    rw [Nat.zero_add]
    exact hrun

end Law

def versionZero : List UInt8 :=
  [72,84,84,80,47,48,46,57,32,50,48,48,32,79,75,13,10]

def noVars : Vars Unit :=
  { pos := 0, last := 0, processHeader := .statusLine, statusState := .start
    status := ⟨0,0,none,none⟩
    line := ⟨.start,0,0,fun _ => 0,0,0,0,0,false⟩
    httpVersion := 0, stateStatus := 0, statusN := 0, statusLine := [], headers := []
    headersIn := () }

def noHandlers : HeadersInHash Unit := ⟨fun _ _ => some (),fun _ => true,fun _ => true⟩

/-- `HTTP/1.0 200 OK` with the header `A: b` and the body `x` -/
def smallResponse : List UInt8 :=
  [72,84,84,80,47,49,46,48,32,50,48,48,32,79,75,13,10,65,58,32,98,13,10,13,10,120]

/-- The reads end in the code, in the header and behind the body. -/
theorem proxy_response_cut :
    answer (processReads noHandlers smallResponse [10,8,8] (begun noVars)) =
      (.ok, some ⟨200,[50,48,48,32,79,75],[⟨97,[65],some [98],[97]⟩],25⟩) := by
  have hlate : ¬ Late smallResponse (begun noVars) [10,8,8] := by
    rintro ⟨_,_,_,_,herror⟩
    exact absurd herror (by decide +kernel)
  exact ((proxy_response noHandlers smallResponse noVars).reads [10,8,8] rfl hlate).trans
    (by decide +kernel)

/-- A status line of digits whose version begins with 0 is not accepted. -/
theorem version_zero : StatusLine versionZero [48] [57] [50,48,48] [32,79,75] [] ∧
    (parseWhole versionZero (begun noVars)).1 = .error := by
  refine ⟨⟨⟨List.cons_ne_nil _ _,by simp [isDigit]⟩,⟨List.cons_ne_nil _ _,by simp [isDigit]⟩,rfl,
    by simp [isDigit],Or.inr ⟨32,[79,75],rfl,Or.inl rfl,by simp⟩,0,[13,10],Or.inr rfl,rfl⟩,?_⟩
  rw [whole_result]
  rfl

end Nginx.ProxyHeaderLaw
