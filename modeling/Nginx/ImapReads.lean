import Nginx.ImapCommand

/-!
# IMAP commands in any reads

The calls for a line go on where the last one stopped, or behind the announcement of a literal.
-/

set_option autoImplicit false

namespace Nginx.ImapReads
open Resumable ImapCommand

section Calls
variable (ssl : Bool) (start : ℕ) (stream : List UInt8)

def goOn (_ : ℕ) (e : ImapEnd) (_ : Unit) : (Session × Unit) ⊕ ImapEnd :=
  match e with
  | .next s => .inl (s,())
  | e => .inr e

def through : ℕ → UInt8 → Session × Unit → (Session × Unit) ⊕ ImapEnd :=
  nested (imapByte ssl start stream) goOn

/-- `o` is what the calls come to, unless they have left something unparsed. -/
def Shows (o : Outcome (Session × Unit) ImapEnd) : Calls → Prop
  | .waiting s unparsed => unparsed = [] → o = .more (s,())
  | .accepted q s => ∃ p, q = p+1 ∧ o = .stop p (.done s)
  | .rejected s => ∃ p, o = .stop p (.invalid s)

theorem reads_through (reads : List (List UInt8)) (p : ℕ) (unparsed : List UInt8) (s : Session) :
    Shows (run (through ssl start stream) p (unparsed++reads.flatten) (s,()))
      (parseReads ssl start stream reads p unparsed s) := by
  induction reads generalizing p unparsed s with
  | nil =>
    rintro rfl
    rfl
  | cons r reads ih =>
    rw [List.flatten_cons, ← List.append_assoc, parseReads]
    cases hrun : run (imapByte ssl start stream) p (unparsed++r) s with
    | more s' =>
      rw [run_append, through, run_nested, hrun]
      exact ih _ [] s'
    | stop q e =>
      have hwhole : run (imapByte ssl start stream) p (unparsed++r++reads.flatten) s =
          .stop q e := by
        rw [run_append, hrun]
        rfl
      have hq := stop_bounds hrun
      rw [through, run_nested, hwhole]
      cases e with
      | next s' =>
        have hrest := ih (q+1) ((unparsed++r).drop (q+1-p)) s'
        rwa [← List.drop_append_of_le_length (by omega)] at hrest
      | done s' => exact ⟨q,rfl,rfl⟩
      | invalid s' => exact ⟨q,rfl⟩

end Calls

/-- All that was read is parsed, or the line is done with. -/
def Settled : Calls → Prop
  | .waiting _ unparsed => unparsed = []
  | _ => True

instance : DecidablePred Settled
  | .waiting _ unparsed => inferInstanceAs (Decidable (unparsed = []))
  | .accepted _ _ => .isTrue trivial
  | .rejected _ => .isTrue trivial

/-- However the same bytes are cut into reads, the calls for a line come to the same, once nothing
is left unparsed. -/
theorem reads_alike (ssl : Bool) (start : ℕ) (s : Session) (reads reads' : List (List UInt8))
    (h : reads.flatten = reads'.flatten) (hsettled : Settled (parseLine ssl start s reads))
    (hsettled' : Settled (parseLine ssl start s reads')) :
    parseLine ssl start s reads = parseLine ssl start s reads' := by
  have hshows := reads_through ssl start (s.kept++reads.flatten) reads s.kept.length [] s
  have hshows' := reads_through ssl start (s.kept++reads'.flatten) reads' s.kept.length [] s
  rw [← h] at hshows'
  rw [parseLine] at hsettled
  rw [parseLine, ← h] at hsettled'
  rw [parseLine, parseLine, ← h]
  generalize run _ _ _ _ = o at hshows hshows'
  generalize parseReads ssl start (s.kept++reads.flatten) reads s.kept.length [] s = c at *
  generalize parseReads ssl start (s.kept++reads.flatten) reads' s.kept.length [] s = c' at *
  cases c with
  | waiting t unparsed =>
    obtain rfl : unparsed = [] := hsettled
    obtain rfl := hshows rfl
    cases c' with
    | waiting t' unparsed' =>
      obtain rfl : unparsed' = [] := hsettled'
      cases hshows' rfl
      rfl
    | accepted q t' => obtain ⟨p,-,hp⟩ := hshows'; cases hp
    | rejected t' => obtain ⟨p,hp⟩ := hshows'; cases hp
  | accepted q t =>
    obtain ⟨p,rfl,rfl⟩ := hshows
    cases c' with
    | waiting t' unparsed' => cases hshows' hsettled'
    | accepted q' t' =>
      obtain ⟨p',rfl,hp⟩ := hshows'
      cases hp
      rfl
    | rejected t' => obtain ⟨p,hp⟩ := hshows'; cases hp
  | rejected t =>
    obtain ⟨p,rfl⟩ := hshows
    cases c' with
    | waiting t' unparsed' => cases hshows' hsettled'
    | accepted q' t' => obtain ⟨p',-,hp⟩ := hshows'; cases hp
    | rejected t' =>
      obtain ⟨p',hp⟩ := hshows'
      cases hp
      rfl

/-- A login with a literal of one byte and an atom, in two ways -/
theorem reads_alike_literal :
    parseLine false 0 freshSession [[97,32,76,79,71,73,78,32,123,49,125,10],[98,32,99],[10]] =
      parseLine false 0 freshSession [[97,32,76,79,71],[73,78,32,123,49,125,10],[98],[32,99,10]] :=
  reads_alike false 0 freshSession _ _ rfl (by decide +kernel) (by decide +kernel)

end Nginx.ImapReads
