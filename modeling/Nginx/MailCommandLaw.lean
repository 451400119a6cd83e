import Nginx.MailCommand

/-!
# What the parsers of POP3 and SMTP accept

A byte looks at the buffer in front of it only, so that reads can be joined. A line that is one is
followed from its head through the arguments to its end; a run that ends well has seen such a line.
-/

set_option autoImplicit false

namespace Nginx.MailCommandLaw
open Resumable MailCommand
open ImapCommand (NgxStr slice HandlerRc)

variable {κ : Type} [DecidableEq κ] {P : Protocol κ}

/-! Reads -/

section Reads

variable {buffer : List UInt8} {p : ℕ} {s : Session κ}

theorem slice_front {a z : ℕ} {word rest : List UInt8} (h : buffer.drop a = word++rest)
    (hz : z = a+word.length) : slice buffer a z = word := by
  rw [slice, h, hz, Nat.add_sub_cancel_left, List.take_left]

theorem byte_buffer (more : List UInt8) (hp : p ≤ buffer.length) (ch : UInt8) (s : Session κ) :
    mailByte P (buffer++more) p ch s = mailByte P buffer p ch s := by
  have hslice : slice (buffer++more) 0 p = slice buffer 0 p := by
    rw [slice, slice, List.drop_zero, List.drop_zero, Nat.sub_zero,
      List.take_append_of_le_length hp]
  unfold mailByte
  cases s.state <;> simp only [startByte, hslice]

theorem run_buffer (more xs : List UInt8) (hp : p+xs.length ≤ buffer.length) (s : Session κ) :
    run (mailByte P (buffer++more)) p xs s = run (mailByte P buffer) p xs s := by
  induction xs generalizing p s with
  | nil => rfl
  | cons x xs ih =>
    rw [List.length_cons] at hp
    rw [run, run, byte_buffer more (by omega)]
    cases mailByte P buffer p x s with
    | inl s' => exact ih (by omega) s'
    | inr e => rfl

def ofOutcome : Outcome (Session κ) (MailEnd κ) → Calls κ
  | .more s => .waiting s
  | .stop q (.done s) => .accepted (q+1) s
  | .stop _ (.invalid s) => .rejected s

theorem reads_run (reads : List (List UInt8)) (buffer : List UInt8) (s : Session κ) :
    parseReads P reads buffer s =
      ofOutcome (run (mailByte P (buffer++reads.flatten)) buffer.length reads.flatten s) := by
  induction reads generalizing buffer s with
  | nil => rfl
  | cons r rs ih =>
    have hlen : buffer.length+r.length ≤ (buffer++r).length := by rw [List.length_append]
    rw [parseReads, List.flatten_cons, run_append, ← List.append_assoc,
      run_buffer rs.flatten r hlen]
    cases run (mailByte P (buffer++r)) buffer.length r s with
    | more s' =>
      dsimp only
      rw [ih, List.length_append]
      rfl
    | stop q e => cases e <;> rfl

theorem reads_whole (reads : List (List UInt8)) (s : Session κ) : parseReads P reads [] s =
    ofOutcome (run (mailByte P reads.flatten) 0 reads.flatten s) := reads_run reads [] s

end Reads

/-! A line from its head to its end -/

section Lines

variable {buffer : List UInt8} {p : ℕ} {s u v : Session κ} {c : κ}

theorem start_byte (hs : s.state = .start) (q : ℕ) (b : UInt8) :
    mailByte P buffer q b s = startByte P buffer q b s := by
  rw [mailByte, hs]

theorem spaces_byte (hs : s.state = .spacesBeforeArgument) (q : ℕ) (b : UInt8) :
    mailByte P buffer q b s = spacesBeforeArgumentByte P q b s := by
  rw [mailByte, hs]

theorem argument_byte (hs : s.state = .argument) (q : ℕ) (b : UInt8) :
    mailByte P buffer q b s = argumentByte P q b s := by
  rw [mailByte, hs]

theorem almost_byte (hs : s.state = .almostDone) (q : ℕ) (b : UInt8) :
    mailByte P buffer q b s = almostDoneByte P b s := by
  rw [mailByte, hs]

theorem letter_plain {b : UInt8} (h : Letter b) : Plain b := by
  refine ⟨?_,?_,?_⟩
  · rintro rfl
    exact absurd h (by decide)
  · rintro rfl
    exact absurd h (by decide)
  · rintro rfl
    exact absurd h (by decide)

theorem still_run {xs : List UInt8} (h : ∀ x ∈ xs, ∀ q, mailByte P buffer q x s = .inl s)
    (p : ℕ) (rest : List UInt8) : run (mailByte P buffer) p (xs++rest) s =
      run (mailByte P buffer) (p+xs.length) rest s := by
  induction xs generalizing p with
  | nil => rfl
  | cons x xs ih =>
    rw [List.cons_append, run_next (h x List.mem_cons_self p),
      ih (fun y hy => h y (List.mem_cons_of_mem x hy)), List.length_cons]
    congr 1
    omega

theorem letter_byte {b : UInt8} (hb : Letter b) (hs : s.state = .start) (q : ℕ) :
    mailByte P buffer q b s = .inl s := by
  obtain ⟨h1,h2,h3⟩ := letter_plain hb
  have hletter : ¬((b < 65 ∨ b > 90) ∧ (b < 97 ∨ b > 122)) := by
    rintro ⟨hl,hr⟩
    rcases hb with ⟨h4,h5⟩|⟨h4,h5⟩
    · rcases hl with hl|hl
      · exact absurd h4 (UInt8.not_le.mpr hl)
      · exact absurd h5 (UInt8.not_le.mpr hl)
    rcases hr with hr|hr
    · exact absurd h4 (UInt8.not_le.mpr hr)
    · exact absurd h5 (UInt8.not_le.mpr hr)
  rw [start_byte hs, startByte, if_neg (by simp [h1, h2, h3]), if_neg hletter]

theorem space_byte (hs : s.state = .spacesBeforeArgument) (q : ℕ) :
    mailByte P buffer q 32 s = .inl s := by
  rw [spaces_byte hs]
  exact if_pos rfl

theorem word_byte {b : UInt8} (hb : b ≠ 13 ∧ b ≠ 10 ∧ (b = 32 → s.command.any P.keepsSpaces = true))
    (hs : s.state = .argument) (q : ℕ) : mailByte P buffer q b s = .inl s := by
  rw [argument_byte hs]
  unfold argumentByte
  by_cases hspace : b = 32
  · rw [if_pos ⟨hspace,hb.2.2 hspace⟩]
  · rw [if_neg fun h => hspace h.1, if_neg (by simp [hspace, hb.1, hb.2.1])]

/-- A state in which a space, where there may be one, and the end of the line are those of `v`. -/
def Closes (P : Protocol κ) (buffer : List UInt8) (p : ℕ) (spaces : Prop) (u v : Session κ) : Prop :=
  ∀ b, (b = 32 ∧ spaces) ∨ b = 13 ∨ b = 10 → mailByte P buffer p b u = endByte P b v

theorem verb_closes (hs : u.state = .start) (hc : P.find (slice buffer 0 p) = some c) :
    Closes P buffer p True u { u with command := some c } := by
  intro b hb
  have hend : b = 32 ∨ b = 13 ∨ b = 10 := hb.imp_left And.left
  rw [start_byte hs, startByte, if_pos hend]
  simp only [hc]

theorem word_closes (hs : u.state = .argument) :
    Closes P buffer p (u.command.any P.keepsSpaces = false) u (pushArg p u) := by
  intro b hb
  have hend : b = 32 ∨ b = 13 ∨ b = 10 := hb.imp_left And.left
  rw [argument_byte hs, argumentByte, if_neg, if_pos hend]
  rintro ⟨rfl,hkeeps⟩
  rcases hb with ⟨-,hno⟩|hb
  · rw [hkeeps] at hno
    cases hno
  · revert hb
    decide

/-- A session whose line is finished has the command and the arguments of another. -/
structure Finished (P : Protocol κ) (v s : Session κ) : Prop where
  command : s.command = v.command
  args : s.args = v.args
  argStart : s.argStart = none
  state : s.state = if v.command ≠ some P.auth then .start else .argument

theorem finish_finished (h : u.argStart = none) (hc : u.command = v.command)
    (ha : u.args = v.args) : Finished P v (finishLine P u) := by
  rw [finishLine, h]
  exact ⟨hc,ha,h,by rw [hc]⟩

theorem almost_run (hs : s.state = .almostDone) (q : ℕ) (rest : List UInt8) :
    run (mailByte P buffer) q (10::rest) s = .stop q (.done (finishLine P s)) := by
  refine run_stop ?_
  rw [almost_byte hs]
  exact if_pos rfl

theorem end_run {spaces : Prop} {ending : List UInt8} (hend : LineEnd ending)
    (h : Closes P buffer p spaces u v) (hv : v.argStart = none) (rest : List UInt8) :
    ∃ s', run (mailByte P buffer) p (ending++rest) u = .stop (p+ending.length-1) (.done s') ∧
      Finished P v s' := by
  rcases hend with rfl|rfl
  · have hbyte := h 10 (Or.inr (Or.inr rfl))
    exact ⟨_,run_stop hbyte,finish_finished hv rfl rfl⟩
  have hbyte := h 13 (Or.inr (Or.inl rfl))
  refine ⟨_,?_,finish_finished (u := { v with state := .almostDone }) hv rfl rfl⟩
  rw [List.cons_append, run_next hbyte]
  exact almost_run rfl (p+1) rest

theorem spaces_end {ending : List UInt8} (hend : LineEnd ending)
    (hs : s.state = .spacesBeforeArgument) (hnone : s.argStart = none) (q : ℕ)
    (rest : List UInt8) : ∃ s', run (mailByte P buffer) q (ending++rest) s =
      .stop (q+ending.length-1) (.done s') ∧ Finished P s s' := by
  rcases hend with rfl|rfl
  · have hbyte : mailByte P buffer q 10 s =
        .inr (.done (finishLine P { s with argEnd := some q })) := by
      rw [spaces_byte hs, spacesBeforeArgumentByte, if_neg (by decide), if_neg (by decide), if_pos rfl]
    exact ⟨_,run_stop hbyte,finish_finished (u := { s with argEnd := some q }) hnone rfl rfl⟩
  have hbyte : mailByte P buffer q 13 s =
      .inl { s with state := .almostDone, argEnd := some q } := by
    rw [spaces_byte hs, spacesBeforeArgumentByte, if_neg (by decide), if_pos rfl]
  refine ⟨_,?_,finish_finished (u := { s with state := .almostDone, argEnd := some q })
    hnone rfl rfl⟩
  rw [List.cons_append, run_next hbyte]
  exact almost_run rfl (q+1) rest

theorem spaces_run (hs : s.state = .spacesBeforeArgument) (k q : ℕ) (rest : List UInt8) :
    run (mailByte P buffer) q (List.replicate k 32++rest) s =
      run (mailByte P buffer) (q+k) rest s := by
  rw [still_run (fun x hx q => by rw [List.eq_of_mem_replicate hx]; exact space_byte hs q),
    List.length_replicate]

structure Took (P : Protocol κ) (buffer : List UInt8) (c : κ) (as : List (List UInt8))
    (s : Session κ) : Prop where
  command : s.command = some c
  texts : texts buffer s = as
  argStart : s.argStart = none
  state : s.state = if c ≠ P.auth then .start else .argument

theorem finished_took (h : Finished P v s) (hc : v.command = some c) :
    Took P buffer c (texts buffer v) s := by
  refine ⟨h.command.trans hc,?_,h.argStart,?_⟩
  · rw [MailCommand.texts, MailCommand.texts, h.args]
  · rw [h.state, hc]
    simp

omit [DecidableEq κ] in
theorem max_args (c : κ) : maxArgs P c ≤ P.lastArg+1 := by
  unfold maxArgs
  split <;> omega

theorem word_first {b : UInt8} (hb : b ≠ 32 ∧ b ≠ 13 ∧ b ≠ 10) (hs : s.state = .spacesBeforeArgument)
    (hroom : s.args.length ≤ P.lastArg) (q : ℕ) : mailByte P buffer q b s =
      .inl { s with state := .argument, argStart := some q } := by
  rw [spaces_byte hs, spacesBeforeArgumentByte, if_neg hb.1, if_neg hb.2.1, if_neg hb.2.2,
    if_pos hroom]

theorem word_run {a : List UInt8} (ha : Word (P.keepsSpaces c) a) (hs : s.state = .spacesBeforeArgument)
    (hc : s.command = some c) (hroom : s.args.length ≤ P.lastArg) (q : ℕ) (rest : List UInt8) :
    run (mailByte P buffer) q (a++rest) s = run (mailByte P buffer) (q+a.length) rest
      { s with state := .argument, argStart := some q } := by
  obtain ⟨hne,hhead,hbytes⟩ := ha
  cases a with
  | nil => exact absurd rfl hne
  | cons b bs =>
    have hb := hbytes b List.mem_cons_self
    have hfirst : b ≠ 32 ∧ b ≠ 13 ∧ b ≠ 10 := ⟨fun h => hhead (by rw [h]; rfl),hb.1,hb.2.1⟩
    rw [List.cons_append, run_next (word_first hfirst hs hroom q), still_run, List.length_cons,
      show q+1+bs.length = q+(bs.length+1) by omega]
    intro x hx r
    obtain ⟨h1,h2,h3⟩ := hbytes x (List.mem_cons_of_mem b hx)
    refine word_byte ⟨h1,h2,fun h => ?_⟩ rfl r
    dsimp only
    rw [hc]
    exact h3 h

theorem tail_run {ws : List (ℕ × List UInt8)} {k : ℕ} {ending rest : List UInt8} {spaces : Prop}
    (hend : LineEnd ending) (hwords : ∀ w ∈ ws, Word (P.keepsSpaces c) w.2)
    (hkeeps : P.keepsSpaces c = true → ws ≠ [] → k = 0) (h : Closes P buffer p spaces u v)
    (hspaces : ws ≠ [] ∨ k ≠ 0 → spaces) (hv : v.argStart = none) (hc : v.command = some c)
    (hroom : v.args.length+ws.length ≤ maxArgs P c)
    (hbuffer : buffer.drop p = fill ws++List.replicate k 32++ending++rest) :
    ∃ s', run (mailByte P buffer) p (fill ws++List.replicate k 32++ending++rest) u =
        .stop (p+(fill ws++List.replicate k 32++ending).length-1) (.done s') ∧
      Took P buffer c (texts buffer v++ws.map Prod.snd) s' := by
  induction ws generalizing p spaces u v with
  | nil =>
    rw [List.map_nil, List.append_nil]
    show ∃ s', run (mailByte P buffer) p (List.replicate k 32++ending++rest) u =
      .stop (p+(List.replicate k 32++ending).length-1) (.done s') ∧ _
    cases k with
    | zero =>
      obtain ⟨s',hrun,hs'⟩ := end_run hend h hv rest
      exact ⟨s',hrun,finished_took hs' hc⟩
    | succ k =>
      have hbyte := h 32 (Or.inl ⟨rfl,hspaces (Or.inr (by omega))⟩)
      rw [endByte, if_pos rfl] at hbyte
      obtain ⟨s',hrun,hs'⟩ := @spaces_end κ _ P buffer
        { v with state := .spacesBeforeArgument } _ hend rfl hv (p+1+k) rest
      refine ⟨s',?_,finished_took ⟨hs'.command,hs'.args,hs'.argStart,hs'.state⟩ hc⟩
      rw [List.replicate_succ, List.cons_append, List.cons_append, run_next hbyte,
        List.append_assoc, spaces_run rfl, hrun]
      congr 1
      simp only [List.length_cons, List.length_append, List.length_replicate]
      omega
  | cons w ws ih =>
    obtain ⟨g,a⟩ := w
    have ha : Word (P.keepsSpaces c) a := hwords (g,a) List.mem_cons_self
    rw [List.length_cons] at hroom
    have hmax := max_args (P := P) c
    have hbyte := h 32 (Or.inl ⟨rfl,hspaces (Or.inl (List.cons_ne_nil _ _))⟩)
    rw [endByte, if_pos rfl] at hbyte
    obtain ⟨text,htext⟩ : ∃ text, fill ws++List.replicate k 32++ending = text := ⟨_,rfl⟩
    have hline : fill ((g,a)::ws)++List.replicate k 32++ending =
        32::(List.replicate g 32++(a++text)) := by
      rw [← htext, fill, List.flatMap_cons, ← fill, List.replicate_succ]
      simp only [List.cons_append, List.append_assoc]
    rw [hline] at hbuffer ⊢
    let u' : Session κ :=
      { v with state := .argument, argStart := some (p+1+g) }
    have hdrop : buffer.drop (p+1+g) = a++(text++rest) := by
      rw [show p+1+g = p+(g+1) by omega, ← List.drop_drop, hbuffer, List.cons_append,
        List.drop_succ_cons, List.append_assoc, List.append_assoc]
      exact List.drop_left' List.length_replicate
    have hnext : buffer.drop (p+1+g+a.length) = text++rest := by
      rw [← List.drop_drop, hdrop, List.drop_left]
    have hmore : ws ≠ [] ∨ k ≠ 0 → u'.command.any P.keepsSpaces = false := by
      intro hne
      show v.command.any P.keepsSpaces = false
      rw [hc]
      show P.keepsSpaces c = false
      by_contra hyes
      rw [Bool.not_eq_false] at hyes
      rw [maxArgs, if_pos hyes] at hroom
      rcases hne with hne|hne
      · exact hne (List.eq_nil_of_length_eq_zero (by omega))
      · exact hne (hkeeps hyes (List.cons_ne_nil _ _))
    obtain ⟨s',hrun,hs'⟩ := ih (p := p+1+g+a.length) (u := u')
      (v := pushArg (p+1+g+a.length) u') (fun w hw => hwords w (List.mem_cons_of_mem _ hw))
      (fun hyes hne => hkeeps hyes (List.cons_ne_nil _ _)) (word_closes rfl) hmore rfl hc
      (by
        show (v.args++[_]).length+ws.length ≤ maxArgs P c
        rw [List.length_append, List.length_singleton]
        omega)
      (by rw [htext, hnext])
    have htexts : texts buffer (pushArg (p+1+g+a.length) u') = texts buffer v++[a] := by
      show (v.args++[_]).map _ = v.args.map _++[a]
      rw [List.map_append, List.map_singleton]
      congr 2
      exact slice_front hdrop (by
        show p+1+g+(p+1+g+a.length-(p+1+g)) = p+1+g+a.length
        omega)
    rw [htexts, List.append_assoc] at hs'
    refine ⟨s',?_,hs'⟩
    rw [htext] at hrun
    rw [List.cons_append, run_next hbyte, List.append_assoc, spaces_run rfl, List.append_assoc,
      word_run (s := { v with state := .spacesBeforeArgument }) ha rfl hc
        (show v.args.length ≤ P.lastArg by omega)]
    refine hrun.trans ?_
    congr 1
    simp only [List.length_cons, List.length_append, List.length_replicate]
    omega

end Lines

/-! Sessions that wait for a line -/

section Sound

variable {buffer pre : List UInt8} {p : ℕ} {s₀ s v : Session κ} {c : κ} {n : ℕ}
  {ws : List (ℕ × List UInt8)}

structure Clean (P : Protocol κ) (s : Session κ) : Prop where
  args : s.args = []
  place : (s.state = .start ∧ s.argStart = none) ∨
    (s.state = .argument ∧ s.argStart = some 0 ∧ s.command = some P.auth)

theorem line_run (hs : Clean P s) {as : List (List UInt8)} {line : List UInt8}
    (h : LineOf P s c as line) (rest : List UInt8) :
    ∃ s', run (mailByte P (line++rest)) 0 (line++rest) s = .stop (line.length-1) (.done s') ∧
      Took P (line++rest) c as s' := by
  rcases h with ⟨hstate,verb,hverb,ws,k,ending,rfl,rfl,hroom,hwords,hkeeps,hend⟩|
    ⟨hstate,rfl,a,_,rfl,ha,ws,k,ending,rfl,rfl,hroom,hwords,hkeeps,hend⟩
  · have hnone : s.argStart = none := by
      rcases hs.place with h|h
      · exact h.2
      · rw [hstate] at h
        cases h.1
    have hassoc : verb++fill ws++List.replicate k 32++ending++rest =
        verb++(fill ws++List.replicate k 32++ending++rest) := by
      simp only [List.append_assoc]
    obtain ⟨buffer,hbuffer⟩ : ∃ buffer, verb++fill ws++List.replicate k 32++ending++rest = buffer :=
      ⟨_,rfl⟩
    have hslice : slice buffer 0 verb.length = verb :=
      slice_front (by rw [List.drop_zero, ← hbuffer, hassoc]) (Nat.zero_add _).symm
    obtain ⟨s',hrun,hs'⟩ := @tail_run κ _ P buffer verb.length s
      { s with command := some c } c ws k ending rest _ hend hwords hkeeps
      (verb_closes hstate (by rw [hslice]; exact hverb)) (fun _ => trivial) hnone rfl
      (by
        show s.args.length+ws.length ≤ maxArgs P c
        rw [hs.args]
        exact hroom)
      (by rw [← hbuffer, hassoc, List.drop_left])
    have htexts : texts buffer { s with command := some c } = [] := by
      show s.args.map _ = []
      rw [hs.args, List.map_nil]
    rw [htexts, List.nil_append] at hs'
    refine ⟨s',?_,by rw [hbuffer]; exact hs'⟩
    have hletters := @still_run κ _ P buffer _ _
      (fun x hx q => letter_byte (P := P) (P.verb verb c hverb x hx) hstate q) 0
      (fill ws++List.replicate k 32++ending++rest)
    rw [Nat.zero_add, ← hassoc] at hletters
    rw [hbuffer] at hletters ⊢
    rw [hletters, hrun]
    congr 1
    simp only [List.length_append]
    omega
  have hplace : s.argStart = some 0 ∧ s.command = some P.auth := by
    rcases hs.place with h|h
    · rw [hstate] at h
      cases h.1
    · exact h.2
  have hassoc : a++fill ws++List.replicate k 32++ending++rest =
      a++(fill ws++List.replicate k 32++ending++rest) := by
    simp only [List.append_assoc]
  obtain ⟨buffer,hbuffer⟩ : ∃ buffer, a++fill ws++List.replicate k 32++ending++rest = buffer :=
    ⟨_,rfl⟩
  have hplain : s.command.any P.keepsSpaces = false := by
    rw [hplace.2]
    exact P.authPlain
  obtain ⟨s',hrun,hs'⟩ := @tail_run κ _ P buffer a.length s
    (pushArg a.length s) P.auth ws k ending rest _ hend hwords hkeeps
    (word_closes hstate) (fun _ => hplain) rfl hplace.2
    (by
      show (s.args++[_]).length+ws.length ≤ maxArgs P P.auth
      rw [hs.args]
      exact hroom)
    (by rw [← hbuffer, hassoc, List.drop_left])
  have htexts : texts buffer (pushArg a.length s) = [a] := by
    show (s.args++[_]).map _ = [a]
    rw [hs.args, List.nil_append, List.map_singleton, hplace.1]
    congr 1
    exact slice_front (a := 0) (by rw [List.drop_zero, ← hbuffer, hassoc]) rfl
  rw [htexts] at hs'
  refine ⟨s',?_,by rw [hbuffer]; exact hs'⟩
  have hbytes := @still_run κ _ P buffer s a
    (fun x hx q => word_byte (P := P)
      ⟨(ha x hx).2.1,(ha x hx).2.2,fun hspace => absurd hspace (ha x hx).1⟩ hstate q) 0
    (fill ws++List.replicate k 32++ending++rest)
  rw [Nat.zero_add, ← hassoc] at hbytes
  rw [hbuffer] at hbytes ⊢
  rw [hbytes, hrun]
  congr 1
  simp only [List.length_append]
  omega

/-! What a run has seen -/

def HeadOf (P : Protocol κ) (s₀ : Session κ) (c : κ) (n : ℕ) (head : List UInt8) : Prop :=
  (s₀.state = .start ∧ P.find head = some c ∧ n = 0) ∨
    (s₀.state = .argument ∧ c = P.auth ∧ n = 1 ∧ ∀ b ∈ head, Plain b)

structure Front (P : Protocol κ) (s₀ : Session κ) (c : κ) (n : ℕ) (ws : List (ℕ × List UInt8))
    (front : List UInt8) : Prop where
  head : ∃ head, HeadOf P s₀ c n head ∧ front = head++fill ws
  room : n+ws.length ≤ maxArgs P c
  words : ∀ w ∈ ws, Word (P.keepsSpaces c) w.2

omit [DecidableEq κ] in
theorem front_line {front ending : List UInt8} {k : ℕ} (h : Front P s₀ c n ws front)
    (hkeeps : P.keepsSpaces c = true → ws ≠ [] → k = 0) (hend : LineEnd ending) :
    ∃ c as, LineOf P s₀ c as (front++List.replicate k 32++ending) := by
  obtain ⟨head,hhead,rfl⟩ := h.head
  rcases hhead with ⟨hstate,hfind,rfl⟩|⟨hstate,rfl,rfl,hplain⟩
  · exact ⟨c,_,Or.inl ⟨hstate,head,hfind,ws,k,ending,rfl,rfl,h.room,h.words,hkeeps,hend⟩⟩
  · exact ⟨_,_,Or.inr ⟨hstate,rfl,head,_,rfl,hplain,ws,k,ending,rfl,rfl,h.room,h.words,hkeeps,
      hend⟩⟩

def Shut (P : Protocol κ) (s₀ v : Session κ) (pre : List UInt8) (spaces : Prop) : Prop :=
  ∃ c n ws, Front P s₀ c n ws pre ∧ v.command = some c ∧ v.args.length = n+ws.length ∧
    v.argStart = none ∧ (spaces → P.keepsSpaces c = true → ws = [])

/-- What a session has seen that began as `s₀` -/
def Inside (P : Protocol κ) (s₀ : Session κ) (pre : List UInt8) (s : Session κ) : Prop :=
  match s.state with
  | .start => s₀.state = .start ∧ s.args = [] ∧ s.argStart = none
  | .spacesBeforeArgument => ∃ k front, pre = front++List.replicate (k+1) 32 ∧
      Shut P s₀ s front True
  | .argument =>
    (s₀.state = .argument ∧ s.command = some P.auth ∧ s.args = [] ∧ ∀ b ∈ pre, Plain b) ∨
      ∃ c n ws k front a, pre = front++List.replicate (k+1) 32++a ∧ Front P s₀ c n ws front ∧
        s.command = some c ∧ s.args.length = n+ws.length ∧ n+ws.length+1 ≤ maxArgs P c ∧
        (P.keepsSpaces c = true → ws = []) ∧ Word (P.keepsSpaces c) a
  | .almostDone => s.argStart = none ∧ ∃ c n ws k front, pre = front++List.replicate k 32++[13] ∧
      Front P s₀ c n ws front ∧ (P.keepsSpaces c = true → ws ≠ [] → k = 0)

def Ends (P : Protocol κ) (s₀ : Session κ) (line : List UInt8) : MailEnd κ → Prop
  | .done _ => ∃ c as, LineOf P s₀ c as line
  | .invalid s => s.state = .start ∧ s.argStart = none

def Sees (P : Protocol κ) (s₀ : Session κ) (pre : List UInt8) (r : Session κ ⊕ MailEnd κ) : Prop :=
  r.elim (Inside P s₀ pre) (Ends P s₀ pre)

omit [DecidableEq κ] in
theorem invalid_sees (s : Session κ) (pre : List UInt8) :
    Sees P s₀ pre (.inr (.invalid (invalidLine s))) := ⟨rfl,rfl⟩

theorem end_sees {b : UInt8} (h : Shut P s₀ v pre (b = 32)) (hb : b = 32 ∨ b = 13 ∨ b = 10) :
    Sees P s₀ (pre++[b]) (endByte P b v) := by
  obtain ⟨c,n,ws,hfront,hc,hlen,hnone,hkeeps⟩ := h
  rcases hb with rfl|rfl|rfl
  · rw [endByte, if_pos rfl]
    exact ⟨0,pre,rfl,c,n,ws,hfront,hc,hlen,hnone,fun _ => hkeeps rfl⟩
  · rw [endByte, if_neg (by decide), if_pos rfl]
    exact ⟨hnone,c,n,ws,0,pre,by simp,hfront,fun _ _ => rfl⟩
  rw [endByte, if_neg (by decide), if_neg (by decide)]
  have hline := front_line (k := 0) hfront (fun _ _ => rfl) (Or.inl rfl)
  rw [List.replicate_zero, List.append_nil] at hline
  exact hline

theorem fill_snoc (ws : List (ℕ × List UInt8)) (k : ℕ) (a : List UInt8) :
    fill (ws++[(k,a)]) = fill ws++List.replicate (k+1) 32++a := by
  rw [fill, List.flatMap_append, List.flatMap_singleton, ← fill, List.append_assoc]

theorem start_sees (hs : s.state = .start) (h : Inside P s₀ pre s)
    (hpre : slice buffer 0 p = pre) (b : UInt8) :
    Sees P s₀ (pre++[b]) (mailByte P buffer p b s) := by
  unfold Inside at h
  rw [hs] at h
  obtain ⟨hstate,hargs,hnone⟩ := h
  rw [start_byte hs, startByte, hpre]
  by_cases hb : b = 32 ∨ b = 13 ∨ b = 10
  · rw [if_pos hb]
    cases hc : P.find pre with
    | none => exact invalid_sees s _
    | some c =>
      refine end_sees ⟨c,0,[],⟨⟨pre,Or.inl ⟨hstate,hc,rfl⟩,by simp [fill]⟩,?_,?_⟩,rfl,?_,hnone,
        fun _ _ => rfl⟩ hb
      · exact Nat.zero_le _
      · exact fun w hw => absurd hw List.not_mem_nil
      · show s.args.length = 0
        rw [hargs, List.length_nil]
  rw [if_neg hb]
  split
  · exact invalid_sees s _
  · show Inside P s₀ (pre++[b]) s
    unfold Inside
    rw [hs]
    exact ⟨hstate,hargs,hnone⟩

theorem spaces_sees (hs : s.state = .spacesBeforeArgument) (h : Inside P s₀ pre s) (b : UInt8) :
    Sees P s₀ (pre++[b]) (mailByte P buffer p b s) := by
  unfold Inside at h
  rw [hs] at h
  obtain ⟨k,front,rfl,hshut⟩ := h
  have hshut' := hshut
  obtain ⟨c,n,ws,hfront,hc,hlen,hnone,hkeeps⟩ := hshut'
  have hnil : P.keepsSpaces c = true → ws ≠ [] → k+1 = 0 := fun hyes hne =>
    absurd (hkeeps trivial hyes) hne
  rw [spaces_byte hs, spacesBeforeArgumentByte]
  by_cases h32 : b = 32
  · rw [if_pos h32, h32, List.append_assoc, ← List.replicate_succ']
    show Inside P s₀ _ s
    unfold Inside
    rw [hs]
    exact ⟨k+1,front,rfl,hshut⟩
  rw [if_neg h32]
  by_cases h13 : b = 13
  · rw [if_pos h13, h13]
    exact ⟨hnone,c,n,ws,k+1,front,rfl,hfront,hnil⟩
  rw [if_neg h13]
  by_cases h10 : b = 10
  · rw [if_pos h10, h10]
    exact front_line hfront hnil (Or.inl rfl)
  rw [if_neg h10]
  by_cases hroom : s.args.length ≤ P.lastArg
  · rw [if_pos hroom]
    refine Or.inr ⟨c,n,ws,k,front,[b],rfl,hfront,hc,hlen,?_,hkeeps trivial,?_⟩
    · unfold maxArgs
      split
      · rename_i hyes
        obtain ⟨head,hhead,-⟩ := hfront.head
        rw [hkeeps trivial hyes, List.length_nil]
        rcases hhead with ⟨-,-,rfl⟩|⟨-,rfl,-⟩
        · exact le_rfl
        · rw [P.authPlain] at hyes
          cases hyes
      · omega
    · refine ⟨List.cons_ne_nil b [],fun h => h32 (Option.some.inj h),fun x hx => ?_⟩
      obtain rfl := List.mem_singleton.mp hx
      exact ⟨h13,h10,fun h => absurd h h32⟩
  · rw [if_neg hroom]
    exact invalid_sees s _

theorem almost_sees (hs : s.state = .almostDone) (h : Inside P s₀ pre s) (b : UInt8) :
    Sees P s₀ (pre++[b]) (mailByte P buffer p b s) := by
  unfold Inside at h
  rw [hs] at h
  obtain ⟨-,c,n,ws,k,front,rfl,hfront,hkeeps⟩ := h
  rw [almost_byte hs, almostDoneByte]
  by_cases h10 : b = 10
  · rw [if_pos h10, h10, List.append_assoc]
    exact front_line hfront hkeeps (Or.inr rfl)
  · rw [if_neg h10]
    exact invalid_sees s _

theorem argument_sees (hs : s.state = .argument) (h : Inside P s₀ pre s) (b : UInt8) :
    Sees P s₀ (pre++[b]) (mailByte P buffer p b s) := by
  unfold Inside at h
  rw [hs] at h
  rw [argument_byte hs, argumentByte]
  rcases h with ⟨hstate,hc,hargs,hplain⟩|⟨c,n,ws,k,front,a,rfl,hfront,hc,hlen,hroom,hkeeps,ha⟩
  · have hno : ¬(b = 32 ∧ s.command.any P.keepsSpaces = true) := by
      rintro ⟨-,hyes⟩
      rw [hc] at hyes
      exact absurd (P.authPlain.symm.trans hyes) Bool.false_ne_true
    rw [if_neg hno]
    by_cases hb : b = 32 ∨ b = 13 ∨ b = 10
    · rw [if_pos hb]
      refine end_sees ⟨P.auth,1,[],⟨⟨pre,Or.inr ⟨hstate,rfl,rfl,hplain⟩,by simp [fill]⟩,?_,?_⟩,
        hc,?_,rfl,fun _ _ => rfl⟩ hb
      · unfold maxArgs
        split <;> simp
      · exact fun w hw => absurd hw List.not_mem_nil
      · show (s.args++[_]).length = 1
        rw [hargs]
        rfl
    rw [if_neg hb]
    show Inside P s₀ (pre++[b]) s
    unfold Inside
    rw [hs]
    refine Or.inl ⟨hstate,hc,hargs,fun x hx => ?_⟩
    rcases List.mem_append.mp hx with hx|hx
    · exact hplain x hx
    obtain rfl := List.mem_singleton.mp hx
    rw [not_or, not_or] at hb
    exact hb
  have hword (hb : b ≠ 13 ∧ b ≠ 10 ∧ (b = 32 → P.keepsSpaces c = true)) :
      Sees P s₀ (front++List.replicate (k+1) 32++a++[b]) (.inl s : Session κ ⊕ MailEnd κ) := by
    show Inside P s₀ _ s
    unfold Inside
    rw [hs]
    refine Or.inr ⟨c,n,ws,k,front,a++[b],by rw [List.append_assoc],hfront,hc,hlen,hroom,hkeeps,?_⟩
    obtain ⟨hne,hhead,hbytes⟩ := ha
    refine ⟨by simp,?_,fun x hx => ?_⟩
    · rw [List.head?_append_of_ne_nil _ hne]
      exact hhead
    · rcases List.mem_append.mp hx with hx|hx
      · exact hbytes x hx
      · obtain rfl := List.mem_singleton.mp hx
        exact hb
  by_cases hstay : b = 32 ∧ s.command.any P.keepsSpaces = true
  · rw [if_pos hstay]
    obtain ⟨rfl,hyes⟩ := hstay
    rw [hc] at hyes
    exact hword ⟨by decide,by decide,fun _ => hyes⟩
  rw [if_neg hstay]
  by_cases hb : b = 32 ∨ b = 13 ∨ b = 10
  · rw [if_pos hb]
    obtain ⟨head,hhead,rfl⟩ := hfront.head
    refine end_sees ⟨c,n,ws++[(k,a)],⟨⟨head,hhead,?_⟩,?_,?_⟩,hc,?_,rfl,fun h32 hyes => ?_⟩ hb
    · rw [fill_snoc]
      simp only [List.append_assoc]
    · rw [List.length_append, List.length_singleton, ← Nat.add_assoc]
      exact hroom
    · intro w hw
      rcases List.mem_append.mp hw with hw|hw
      · exact hfront.words w hw
      · obtain rfl := List.mem_singleton.mp hw
        exact ha
    · show (s.args++[_]).length = _
      rw [List.length_append, List.length_append, hlen, List.length_singleton,
        List.length_singleton, Nat.add_assoc]
    · refine absurd ⟨h32,?_⟩ hstay
      rw [hc]
      exact hyes
  rw [if_neg hb]
  rw [not_or, not_or] at hb
  exact hword ⟨hb.2.1,hb.2.2,fun h => absurd h hb.1⟩

theorem byte_sees (h : Inside P s₀ pre s) (hpre : slice buffer 0 p = pre) (b : UInt8) :
    Sees P s₀ (pre++[b]) (mailByte P buffer p b s) := by
  cases hs : s.state with
  | start => exact start_sees hs h hpre b
  | spacesBeforeArgument => exact spaces_sees hs h b
  | argument => exact argument_sees hs h b
  | almostDone => exact almost_sees hs h b

omit [DecidableEq κ] in
theorem clean_inside (h : Clean P s) : Inside P s [] s := by
  unfold Inside
  rcases h.place with ⟨hstate,hnone⟩|⟨hstate,-,hc⟩
  · rw [hstate]
    exact ⟨rfl,h.args,hnone⟩
  · rw [hstate]
    exact Or.inl ⟨rfl,hc,h.args,fun b hb => absurd hb List.not_mem_nil⟩

theorem run_sees (h : Clean P s) (buffer : List UInt8) :
    (run (mailByte P buffer) 0 buffer s).Meets (fun s' => Inside P s buffer s')
      (fun q e => Ends P s (buffer.take (q+1)) e) := by
  have hslice (k : ℕ) : slice buffer 0 k = buffer.take k := by
    rw [slice, List.drop_zero, Nat.sub_zero]
  have hrun := @run_keeps _ _ _ (mailByte P buffer) 0 buffer s
    (fun k s' => Inside P s (buffer.take k) s') (fun k e => Ends P s (buffer.take (k+1)) e)
    (fun k b s' hb hin => ?_) (by simpa using clean_inside h)
  · rw [Nat.zero_add, List.take_length] at hrun
    exact hrun
  · rw [Nat.zero_add] at hin ⊢
    have hnext : buffer.take (k+1) = buffer.take k++[b] := by
      rw [List.take_add_one, hb]
      rfl
    rw [hnext]
    have hsees := byte_sees (P := P) hin (hslice k) b
    unfold Sees at hsees
    cases hbyte : mailByte P buffer k b s' with
    | inl s'' =>
      rw [hbyte] at hsees
      exact hnext ▸ hsees
    | inr e =>
      rw [hbyte] at hsees
      exact hnext ▸ hsees

end Sound

/-! Sessions -/

section Sessions

variable {s t : Session κ} {c : κ} {q : ℕ} {reads : List (List UInt8)}

omit [DecidableEq κ] in
theorem outcome_accepted {o : Outcome (Session κ) (MailEnd κ)} (h : ofOutcome o = .accepted q s) :
    ∃ r, o = .stop r (.done s) ∧ q = r+1 := by
  cases o with
  | more s' => cases h
  | stop r e =>
    cases e with
    | done s' =>
      cases h
      exact ⟨r,rfl,rfl⟩
    | invalid s' => cases h

omit [DecidableEq κ] in
theorem outcome_rejected {o : Outcome (Session κ) (MailEnd κ)} (h : ofOutcome o = .rejected s) :
    ∃ r, o = .stop r (.invalid s) := by
  cases o with
  | more s' => cases h
  | stop r e =>
    cases e with
    | done s' => cases h
    | invalid s' =>
      cases h
      exact ⟨r,rfl⟩

theorem accepted_line {s' : Session κ} (hs : Clean P s)
    (h : parseReads P reads [] s = .accepted q s') :
    ∃ c as line rest, LineOf P s c as line ∧ reads.flatten = line++rest ∧ q = line.length ∧
      Took P reads.flatten c as s' := by
  rw [reads_whole] at h
  obtain ⟨r,hrun,rfl⟩ := outcome_accepted h
  have hbound := (stop_bounds hrun).2
  have hsees := run_sees hs reads.flatten
  rw [hrun] at hsees
  obtain ⟨c,as,hline⟩ : ∃ c as, LineOf P s c as (reads.flatten.take (r+1)) := hsees
  obtain ⟨s'',hrun',hs''⟩ := line_run hs hline (reads.flatten.drop (r+1))
  rw [List.take_append_drop] at hrun' hs''
  rw [hrun] at hrun'
  obtain ⟨-,hend⟩ := Outcome.stop.inj hrun'
  obtain rfl := MailEnd.done.inj hend
  refine ⟨c,as,_,_,hline,(List.take_append_drop (r+1) _).symm,?_,hs''⟩
  rw [List.length_take]
  omega

omit [DecidableEq κ] in
theorem line_pos {as : List (List UInt8)} {line : List UInt8} (h : LineOf P s c as line) :
    0 < line.length := by
  have hwith {n : ℕ} {head : List UInt8} {bs : List (List UInt8)}
      (hw : LineWith P c n head line bs) : 0 < line.length := by
    obtain ⟨ws,k,ending,rfl,-,-,-,-,hend⟩ := hw
    rcases hend with rfl|rfl <;> simp only [List.length_append, List.length_cons] <;> omega
  rcases h with ⟨-,_,-,hw⟩|⟨-,rfl,_,_,-,-,hw⟩
  · exact hwith hw
  · exact hwith hw

omit [DecidableEq κ] in
theorem next_goes_on {rc : HandlerRc} {cleared : Bool} (h : ¬(rc ≠ .ok ∨ cleared = true))
    (hs : s.state ≠ .start) :
    nextLine rc cleared s = { s with args := [], argStart := some 0 } := by
  unfold nextLine
  rw [if_neg h]
  exact if_neg hs

omit [DecidableEq κ] in
theorem next_command {rc : HandlerRc} {cleared : Bool}
    (h : (rc ≠ .ok ∨ cleared = true) ∨ s.state = .start) :
    nextLine rc cleared s = { s with args := [], state := .start } := by
  unfold nextLine
  by_cases hclear : rc ≠ .ok ∨ cleared = true
  · exact if_pos hclear
  have hs := h.resolve_left hclear
  rw [if_neg hclear]
  dsimp only
  rw [if_pos hs, hs]

theorem next_took (rc : HandlerRc) (cleared : Bool) {buffer : List UInt8} {as : List (List UInt8)}
    (h : Took P buffer c as s) : Clean P (nextLine rc cleared s) ∧
      (nextLine rc cleared s).state =
        if rc = .ok ∧ cleared = false ∧ c = P.auth then .argument else .start := by
  have hstate := h.state
  by_cases hgo : rc = .ok ∧ cleared = false ∧ c = P.auth
  · obtain ⟨hok,hclear,hauth⟩ := hgo
    rw [if_neg (not_not.mpr hauth)] at hstate
    have hnot : ¬(rc ≠ .ok ∨ cleared = true) := by simp [hok, hclear]
    rw [next_goes_on hnot (by rw [hstate]; decide), if_pos ⟨hok,hclear,hauth⟩]
    exact ⟨⟨rfl,Or.inr ⟨hstate,rfl,hauth ▸ h.command⟩⟩,hstate⟩
  have hcommand : (rc ≠ .ok ∨ cleared = true) ∨ s.state = .start := by
    by_cases hauth : c = P.auth
    · refine Or.inl ?_
      by_contra hnot
      rw [not_or, not_not, Bool.not_eq_true] at hnot
      exact hgo ⟨hnot.1,hnot.2,hauth⟩
    · rw [if_pos hauth] at hstate
      exact Or.inr hstate
  rw [next_command hcommand, if_neg hgo]
  exact ⟨⟨rfl,Or.inl ⟨rfl,h.argStart⟩⟩,rfl⟩

theorem reached_clean (h : Reached P s) : Clean P s := by
  induction h with
  | fresh => exact ⟨rfl,Or.inl ⟨rfl,rfl⟩⟩
  | accepted s s' reads q rc cleared _ hs ih =>
    obtain ⟨c,as,_,_,-,-,-,htook⟩ := accepted_line ih hs
    exact (next_took rc cleared htook).1
  | rejected s s' reads _ hs ih =>
    rw [reads_whole] at hs
    obtain ⟨r,hrun⟩ := outcome_rejected hs
    have hsees := run_sees ih reads.flatten
    rw [hrun] at hsees
    obtain ⟨-,hnone⟩ : s'.state = .start ∧ s'.argStart = none := hsees
    exact ⟨rfl,Or.inl ⟨rfl,hnone⟩⟩

/-- What earlier lines can have left is not read again before it is written. -/
@[mk_iff lock_iff]
structure Lock (s t : Session κ) : Prop where
  state : t.state = s.state
  args : t.args = s.args
  argStart : t.argStart = s.argStart
  command : s.state ≠ .start → t.command = s.command
  shut : s.state ≠ .argument → s.argStart = none

def LockEnd : MailEnd κ → MailEnd κ → Prop
  | .done s, .done t => t.command = s.command ∧ t.args = s.args
  | .invalid _, .invalid _ => True
  | _, _ => False

def LockStep : Session κ ⊕ MailEnd κ → Session κ ⊕ MailEnd κ → Prop
  | .inl s, .inl t => Lock s t
  | .inr e, .inr d => LockEnd e d
  | _, _ => False

theorem lock_byte (buffer : List UInt8) (p : ℕ) (b : UInt8) (h : Lock s t) :
    LockStep (mailByte P buffer p b s) (mailByte P buffer p b t) := by
  obtain ⟨st,cm,as,ae,ag⟩ := s
  obtain ⟨st',cm',as',ae',ag'⟩ := t
  obtain ⟨h1,h2,h3,hcommand,hshut⟩ := h
  simp only at h1 h2 h3 hcommand hshut
  subst h1 h2 h3
  cases st' with
  | start =>
    simp only [mailByte, startByte]
    split_ifs with hend
    · cases P.find (slice buffer 0 p) with
      | none => trivial
      | some c =>
        simp only [endByte]
        split_ifs <;> simp_all [LockStep, LockEnd, lock_iff, finishLine]
    · trivial
    · simp_all [LockStep, lock_iff]
  | _ =>
    simp only [mailByte, spacesBeforeArgumentByte, argumentByte, almostDoneByte, endByte, pushArg]
    split_ifs <;> simp_all [LockStep, LockEnd, lock_iff, finishLine]

theorem lock_run (buffer : List UInt8) (p : ℕ) (bs : List UInt8) (h : Lock s t) :
    answer (ofOutcome (run (mailByte P buffer) p bs t)) =
      answer (ofOutcome (run (mailByte P buffer) p bs s)) := by
  induction bs generalizing p s t with
  | nil => rfl
  | cons b bs ih =>
    have hstep := lock_byte (P := P) buffer p b h
    cases hs : mailByte P buffer p b s with
    | inl s₁ =>
      cases ht : mailByte P buffer p b t with
      | inl t₁ =>
        rw [hs, ht] at hstep
        rw [run_next hs, run_next ht]
        exact ih (p+1) hstep
      | inr d =>
        rw [hs, ht] at hstep
        exact hstep.elim
    | inr e =>
      cases ht : mailByte P buffer p b t with
      | inl t₁ =>
        rw [hs, ht] at hstep
        exact hstep.elim
      | inr d =>
        rw [hs, ht] at hstep
        rw [run_stop hs, run_stop ht]
        cases e with
        | done s₁ =>
          cases d with
          | done t₁ =>
            obtain ⟨hc,ha⟩ : t₁.command = s₁.command ∧ t₁.args = s₁.args := hstep
            simp only [ofOutcome, answer, hc, ha]
          | invalid t₁ => exact hstep.elim
        | invalid s₁ =>
          cases d with
          | done t₁ => exact hstep.elim
          | invalid t₁ => rfl

omit [DecidableEq κ] in
theorem clean_lock (hs : Clean P s) (ht : Clean P t) (hstate : t.state = s.state) : Lock s t := by
  refine ⟨hstate,ht.args.trans hs.args.symm,?_,fun hne => ?_,fun hne => ?_⟩
  · rcases hs.place with ⟨h,hnone⟩|⟨h,hzero,-⟩
    · rcases ht.place with ⟨-,hnone'⟩|⟨h',-⟩
      · rw [hnone, hnone']
      · rw [hstate, h] at h'
        cases h'
    rcases ht.place with ⟨h',-⟩|⟨-,hzero',-⟩
    · rw [hstate, h] at h'
      cases h'
    · rw [hzero, hzero']
  · rcases hs.place with ⟨h,-⟩|⟨h,-,hc⟩
    · exact absurd h hne
    rcases ht.place with ⟨h',-⟩|⟨-,-,hc'⟩
    · rw [hstate, h] at h'
      cases h'
    · rw [hc, hc']
  · rcases hs.place with ⟨-,hnone⟩|⟨h,-⟩
    · exact hnone
    · exact absurd h hne

/-- What a parser does for a session: it takes the lines that the session waits for, with all of
their parts; how the bytes were read makes no difference, and no earlier line; and the next line is
a command, unless a handler goes on with AUTH. -/
structure Parses (P : Protocol κ) (s : Session κ) : Prop where
  taken : ∀ reads line c as, (∃ s', parseReads P reads [] s = .accepted line.length s' ∧
      line <+: reads.flatten ∧ s'.command = some c ∧ texts reads.flatten s' = as) ↔
    LineOf P s c as line ∧ line <+: reads.flatten
  split : ∀ reads reads' : List (List UInt8), reads.flatten = reads'.flatten →
    parseReads P reads [] s = parseReads P reads' [] s
  same : ∀ t, Reached P t → t.state = s.state → ∀ reads,
    answer (parseReads P reads [] t) = answer (parseReads P reads [] s)
  next : ∀ reads q s', parseReads P reads [] s = .accepted q s' → ∀ rc cleared,
    (nextLine rc cleared s').state =
      if rc = .ok ∧ cleared = false ∧ s'.command = some P.auth then .argument else .start

theorem reached_parses (h : Reached P s) : Parses P s := by
  have hs := reached_clean h
  refine ⟨fun reads line c as => ⟨?_,?_⟩,fun reads reads' heq => ?_,fun t ht hstate reads => ?_,
    fun reads q s' hread rc cleared => ?_⟩
  · rintro ⟨s',hread,hline,hc,has⟩
    obtain ⟨c',as',line',rest,hof,hflat,hlen,htook⟩ := accepted_line hs hread
    obtain ⟨rest',hrest⟩ := hline
    obtain ⟨rfl,-⟩ := List.append_inj (hrest.trans hflat) hlen
    obtain rfl := Option.some.inj (hc.symm.trans htook.command)
    rw [← has, htook.texts]
    exact ⟨hof,rest',hrest⟩
  · rintro ⟨hof,rest,hrest⟩
    obtain ⟨s',hrun,htook⟩ := line_run hs hof rest
    have hpos := line_pos hof
    rw [hrest] at hrun htook
    refine ⟨s',?_,⟨rest,hrest⟩,htook.command,htook.texts⟩
    rw [reads_whole, hrun, ofOutcome, Nat.sub_add_cancel hpos]
  · rw [reads_whole, reads_whole, heq]
  · rw [reads_whole, reads_whole]
    exact lock_run reads.flatten 0 reads.flatten (clean_lock hs (reached_clean ht) hstate)
  · obtain ⟨c,as,_,_,-,-,-,htook⟩ := accepted_line hs hread
    rw [(next_took rc cleared htook).2, htook.command]
    simp only [Option.some.injEq]

end Sessions

/-- The commands that POP3 and SMTP sessions accept -/
theorem mail_command (ssl : Bool) :
    (∀ s, Reached (pop3 ssl) s → Parses (pop3 ssl) s) ∧
      ∀ s, Reached (smtp ssl) s → Parses (smtp ssl) s :=
  ⟨fun _ h => reached_parses h,fun _ h => reached_parses h⟩

/-- `USER a b` in two reads has one argument. -/
theorem mail_command_user : ∃ s', parseReads (pop3 true)
      [[85,83,69,82,32,97], [32,98,13,10]] [] (freshSession Pop3Command) =
        .accepted 10 s' ∧
      s'.command = some .user ∧ s'.args = [⟨5,3⟩] := by
  have hword : Word ((pop3 true).keepsSpaces .user) [97,32,98] :=
    ⟨by decide,by decide,List.forall_mem_cons.mpr ⟨by decide,List.forall_mem_cons.mpr
      ⟨by decide,List.forall_mem_singleton.mpr (by decide)⟩⟩⟩
  have hline : CommandLine (pop3 true) .user [[97,32,98]]
      [85,83,69,82,32,97,32,98,13,10] :=
    ⟨[85,83,69,82],by decide,[(0,[97,32,98])],0,[13,10],rfl,rfl,by decide,
      fun w hw => (List.mem_singleton.mp hw) ▸ hword,fun _ _ => rfl,Or.inr rfl⟩
  obtain ⟨s',hread,-,hc,-⟩ := (((mail_command true).1 _ Reached.fresh).taken
    [[85,83,69,82,32,97], [32,98,13,10]] _ .user _).mpr
    ⟨Or.inl ⟨rfl,hline⟩,List.prefix_rfl⟩
  have hvalue : parseReads (pop3 true) [[85,83,69,82,32,97], [32,98,13,10]] []
      (freshSession Pop3Command) = .accepted 10 ⟨.start,some .user,none,none,[⟨5,3⟩]⟩ := by
    decide
  obtain ⟨-,rfl⟩ := Calls.accepted.inj (hread.symm.trans hvalue)
  exact ⟨_,hvalue,hc,rfl⟩

def noopLine : List UInt8 := [78,79,79,80,13,10]

def authLine : List UInt8 := [65,85,84,72,32,80,76,65,73,78,13,10]

/-- A line that is a command is taken as an argument behind `AUTH PLAIN`. -/
theorem auth_goes_on : ∃ s, Reached (pop3 false) s ∧ CommandLine (pop3 false) .noop [] noopLine ∧
    answer (parseReads (pop3 false) [noopLine] [] (freshSession Pop3Command)) =
      .accepted 6 (some .noop) [] ∧
    answer (parseReads (pop3 false) [noopLine] [] s) = .accepted 6 (some .auth) [⟨0,4⟩] := by
  refine ⟨⟨.argument,some .auth,some 0,none,[]⟩,?_,?_,by decide,by decide⟩
  · have hread : parseReads (pop3 false) [authLine] [] (freshSession Pop3Command) =
        .accepted 12 ⟨.argument,some .auth,none,none,[⟨5,5⟩]⟩ := by decide
    exact Reached.accepted _ _ [authLine] 12 .ok false Reached.fresh hread
  · exact ⟨[78,79,79,80],by decide,[],0,[13,10],rfl,rfl,by decide,
      fun w hw => absurd hw List.not_mem_nil,fun _ h => absurd rfl h,Or.inr rfl⟩

end Nginx.MailCommandLaw
