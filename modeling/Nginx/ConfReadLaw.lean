import Mathlib.Data.List.TakeWhile
import Nginx.ConfTokens

/-!
# The tokens do not depend on the buffer

The reader holds the bytes from the start of the current word in its buffer and has the
rest of the file before it; how these lie in the buffer makes no difference. The reading
of the whole content in one piece is then compared with its lexemes.
-/

set_option autoImplicit false

namespace Nginx.ConfReadLaw
open ConfRead ConfTokens

/-! Without the buffer -/

/-- The bytes from `start` on after one more byte. -/
def heldAfter (st : Start) (held : List UInt8) (ch : UInt8) : List UInt8 :=
  match st with
  | .keep => held++[ch]
  | .here => [ch]
  | .past => []

/-- The calls that read a content in one piece, with the bytes held from `start` on. -/
@[grind =] def readPlain (s : Scan) (held : List UInt8) (args : List Word) : List UInt8 → List Call
  | [] => [⟨if args.length > 0 then .error .unexpectedEnd s.line else .fileDone,args⟩]
  | ch::rest =>
    if held.length = ngxConfBuffer then [⟨.error (tooLong s held) s.startLine,args⟩]
    else
      let t := readByte s args.length ch
      let args := if t.word then args++[storeWord (held++[ch])] else args
      match t.rc with
      | some rc =>
        if rc.stops then [⟨rc,args⟩]
        else ⟨rc,args⟩::readPlain (initScan t.scan.line) [] [] rest
      | none => readPlain t.scan (heldAfter t.start held ch) args rest

/-- What the buffer and the file hold for a reader at `start`. -/
structure Holds (cf : ConfFile) (start : ℕ) (held rest : List UInt8) : Prop where
  start_le : start ≤ cf.pos
  pos_le : cf.pos ≤ cf.buf.length
  buf_le : cf.buf.length ≤ ngxConfBuffer
  held_eq : held = (cf.buf.take cf.pos).drop start
  rest_eq : rest = cf.buf.drop cf.pos++cf.content.drop cf.offset
  full : cf.offset < cf.content.length → cf.buf.length = ngxConfBuffer ∨ cf.buf.length = 0

variable {cf : ConfFile} {start : ℕ} {held rest : List UInt8}

theorem Holds.held_length (h : Holds cf start held rest) : held.length = cf.pos-start := by
  rw [h.held_eq, List.length_drop, List.length_take, min_eq_left h.pos_le]

theorem holds_restart (h : Holds cf start held rest) (line : ℕ) :
    Holds { cf with line := line } cf.pos [] rest :=
  ⟨le_rfl,h.pos_le,h.buf_le,by simp,h.rest_eq,h.full⟩

inductive Refilled (s : Scan) (start nelts : ℕ) (cf : ConfFile) (held : List UInt8) :
    List UInt8 → Prop where
  | done : refill s start nelts cf =
        .error (if nelts > 0 then .error .unexpectedEnd s.line else .fileDone) →
      Refilled s start nelts cf held []
  | long (ch : UInt8) (rest : List UInt8) : held.length = ngxConfBuffer →
      refill s start nelts cf = .error (.error (tooLong s held) s.startLine) →
      Refilled s start nelts cf held (ch::rest)
  | byte (ch : UInt8) (rest : List UInt8) (start' : ℕ) (cf' : ConfFile) :
      held.length ≠ ngxConfBuffer → refill s start nelts cf = .ok (start', cf') →
      cf'.buf[cf'.pos]? = some ch → cf'.line = cf.line → Holds cf' start' held (ch::rest) →
      Refilled s start nelts cf held (ch::rest)

variable (s : Scan)

theorem refill_spec (start nelts : ℕ) (cf : ConfFile) (held rest : List UInt8)
    (h : Holds cf start held rest) : Refilled s start nelts cf held rest := by
  have hlen := h.held_length
  have hb := h.buf_le
  by_cases hpos : cf.pos ≥ cf.buf.length
  · have hdrop : cf.buf.drop cf.pos = [] := List.drop_eq_nil_of_le hpos
    have htake : cf.buf.take cf.pos = cf.buf := List.take_of_length_le hpos
    have hp := h.pos_le
    by_cases hoff : cf.offset ≥ cf.content.length
    · have hr : rest = [] := by
        rw [h.rest_eq, hdrop, List.drop_eq_nil_of_le hoff]
        rfl
      subst hr
      refine .done ?_
      rw [refill, if_pos hpos, if_pos hoff]
      split <;> rfl
    have hlt : cf.offset < cf.content.length := Nat.lt_of_not_le hoff
    have hr : rest = cf.content.drop cf.offset := by
      rw [h.rest_eq, hdrop]
      rfl
    obtain ⟨ch,rest',hcr⟩ : ∃ ch rest', rest = ch::rest' := by
      rw [hr]
      exact ⟨_,_,List.drop_eq_getElem_cons hlt⟩
    have hheld : held = cf.buf.drop start := by rw [h.held_eq, htake]
    rw [hcr]
    by_cases hfull : cf.pos-start = ngxConfBuffer
    · refine .long ch rest' (hlen.trans hfull) ?_
      rw [refill, if_pos hpos, if_neg hoff]
      simp only [if_pos hfull, ← hheld]
    have hsize : 0 < min (cf.content.length-cf.offset) (ngxConfBuffer-(cf.pos-start)) := by
      omega
    have htk : (cf.buf.drop start).take (cf.pos-start) = held := by
      rw [← hheld, List.take_of_length_le (by omega)]
    obtain ⟨size,hs⟩ : ∃ size, min (cf.content.length-cf.offset)
        (ngxConfBuffer-(cf.pos-start)) = size := ⟨_,rfl⟩
    have hread : (cf.content.drop cf.offset).take size =
        ch::(rest'.take (size-1)) := by
      rw [← hr, hcr]
      cases size with
      | zero => omega
      | succ n => rfl
    have hl2 : ((cf.content.drop cf.offset).take size).length = size := by
      rw [List.length_take, List.length_drop]
      omega
    refine .byte ch rest' 0 ⟨cf.content,cf.offset+size,
      held++(cf.content.drop cf.offset).take size,cf.pos-start,cf.line⟩
      (by omega) ?_ ?_ rfl ⟨Nat.zero_le _,?_,?_,?_,?_,?_⟩
    · rw [refill, if_pos hpos, if_neg hoff]
      simp only [if_neg hfull, hs, htk]
    · simp only [hread]
      rw [List.getElem?_append_right (by omega), hlen, Nat.sub_self]
      rfl
    · simp only [List.length_append]
      omega
    · simp only [List.length_append, hl2]
      omega
    · simp only [List.drop_zero]
      rw [List.take_append_of_le_length (by omega), List.take_of_length_le (by omega)]
    · simp only
      rw [List.drop_append_of_le_length (by omega), List.drop_eq_nil_of_le (by omega),
        List.nil_append, ← List.drop_drop, List.take_append_drop, ← hr, hcr]
    · simp only [List.length_append, hl2]
      omega
  have hlt : cf.pos < cf.buf.length := Nat.lt_of_not_le hpos
  obtain ⟨ch,rest',hcr⟩ : ∃ ch rest', rest = ch::rest' := by
    rw [h.rest_eq, List.drop_eq_getElem_cons hlt]
    exact ⟨_,_,rfl⟩
  have hch : cf.buf[cf.pos]? = some ch := by
    have he := h.rest_eq
    rw [hcr, List.drop_eq_getElem_cons hlt, List.cons_append] at he
    rw [List.getElem?_eq_getElem hlt, (List.cons.inj he).1]
  rw [hcr] at h ⊢
  exact .byte ch rest' start cf (by omega) (by rw [refill, if_neg hpos]) hch rfl h

theorem holds_next {ch : UInt8} (h : Holds cf start held (ch::rest))
    (hch : cf.buf[cf.pos]? = some ch) (st : Start) :
    (cf.buf.take (cf.pos+1)).drop start = held++[ch] ∧
      Holds { cf with pos := cf.pos+1 }
        (st.place start (cf.pos+1)) (heldAfter st held ch) rest := by
  obtain ⟨hlt,he⟩ := List.getElem?_eq_some_iff.mp hch
  have htake : cf.buf.take (cf.pos+1) = cf.buf.take cf.pos++[ch] := by
    rw [List.take_succ_eq_append_getElem hlt, he]
  have hheld : (cf.buf.take (cf.pos+1)).drop start = held++[ch] := by
    rw [htake, List.drop_append_of_le_length, ← h.held_eq]
    rw [List.length_take]
    have := h.start_le
    omega
  have hrest : rest = cf.buf.drop (cf.pos+1)++cf.content.drop cf.offset := by
    have hr := h.rest_eq
    rw [List.drop_eq_getElem_cons hlt, List.cons_append] at hr
    exact (List.cons.inj hr).2
  have hs := h.start_le
  refine ⟨hheld,?_⟩
  cases st with
  | keep => exact ⟨by simp only [Start.place]; omega,hlt,h.buf_le,hheld.symm,hrest,h.full⟩
  | here =>
    refine ⟨by simp only [Start.place]; omega,hlt,h.buf_le,?_,hrest,h.full⟩
    simp only [Start.place, heldAfter, htake, Nat.add_sub_cancel]
    rw [List.drop_append_of_le_length, List.drop_of_length_le]
    · rfl
    · simp
    · rw [List.length_take]
      omega
  | past =>
    refine ⟨le_rfl,hlt,h.buf_le,?_,hrest,h.full⟩
    simp [Start.place, heldAfter]

theorem atWord_word (nelts : ℕ) (ch : UInt8) : (atWord s nelts ch).word = false := by
  simp only [atWord]
  repeat' split
  all_goals rfl

theorem inWord_start (ch : UInt8) : (inWord s ch).start = .keep := by
  simp only [inWord]
  repeat' split
  all_goals rfl

theorem readByte_word (nelts : ℕ) (ch : UInt8) (h : (readByte s nelts ch).word = true) :
    (readByte s nelts ch).start = .keep := by
  unfold readByte at h ⊢
  obtain ⟨s1,hs1⟩ : ∃ s1, (if ch = lf then { s with line := s.line+1, sharpComment := false }
    else s) = s1 := ⟨_,rfl⟩
  simp only [hs1] at h ⊢
  repeat' split
  all_goals first
    | rfl
    | exact inWord_start _ _
    | (exfalso; simp_all [atWord_word])

theorem readLoop_spec (fuel : ℕ) (s : Scan) (start : ℕ) (args : List Word) (cf : ConfFile)
    (held rest : List UInt8) (h : Holds cf start held rest) (hf : rest.length < fuel) :
    ∃ c cf', readLoop fuel s start args cf = some (c, cf') ∧
      (c.rc.stops = true ∧ readPlain s held args rest = [c] ∨
        c.rc.stops = false ∧ ∃ rest', rest'.length < rest.length ∧ Holds cf' cf'.pos [] rest' ∧
          readPlain s held args rest = c::readPlain (initScan cf'.line) [] [] rest') := by
  induction fuel generalizing s start args cf held rest with
  | zero => omega
  | succ fuel ih =>
    rw [readLoop]
    cases refill_spec s start args.length cf held rest h with
    | done hr =>
      rw [hr]
      refine ⟨_,_,rfl,Or.inl ⟨?_,rfl⟩⟩
      split <;> rfl
    | long ch rest hl hr =>
      rw [hr]
      refine ⟨_,_,rfl,Or.inl ⟨rfl,?_⟩⟩
      rw [readPlain, if_pos hl]
    | byte ch rest start' cf' hl hr hch hline hh =>
      rw [hr, readPlain, if_neg hl]
      simp only [hch]
      obtain ⟨t,ht⟩ : ∃ t, readByte s args.length ch = t := ⟨_,rfl⟩
      have hw := readByte_word s args.length ch
      rw [ht] at hw ⊢
      obtain ⟨hheld,hnext⟩ := holds_next hh hch t.start
      have hargs : (if t.word = true then args++[storeWord
          ((cf'.buf.take (cf'.pos+1)).drop (t.start.place start' (cf'.pos+1)))] else args) =
          if t.word = true then args++[storeWord (held++[ch])] else args := by
        by_cases hwt : t.word = true
        · rw [if_pos hwt, if_pos hwt, hw hwt]
          simp only [Start.place, hheld]
        · rw [if_neg hwt, if_neg hwt]
      simp only [hargs]
      simp only [List.length_cons] at hf
      cases hrc : t.rc with
      | none =>
        obtain ⟨c,cf2,h1,h2⟩ := ih t.scan _ _ _ _ _ hnext (by omega)
        refine ⟨c,cf2,h1,h2.imp id ?_⟩
        rintro ⟨h3,rest',h4,h5⟩
        exact ⟨h3,rest',by simp only [List.length_cons]; omega,h5⟩
      | some rc =>
        refine ⟨_,_,rfl,?_⟩
        by_cases hst : rc.stops = true
        · refine Or.inl ⟨hst,?_⟩
          simp only [if_pos hst]
        refine Or.inr ⟨by simpa using hst,rest,by simp,?_,?_⟩
        · exact holds_restart hnext t.scan.line
        · simp only [if_neg hst]

theorem bytesLeft_eq (h : Holds cf start held rest) : bytesLeft cf = rest.length := by
  rw [h.rest_eq, List.length_append, List.length_drop, List.length_drop, bytesLeft]

theorem confCalls_spec (n : ℕ) (cf : ConfFile) (rest : List UInt8)
    (h : Holds cf cf.pos [] rest) (hn : rest.length < n) :
    confCalls n cf = some (readPlain (initScan cf.line) [] [] rest) := by
  induction n generalizing cf rest with
  | zero => omega
  | succ n ih =>
    obtain ⟨c,cf',hr,hc⟩ := readLoop_spec (bytesLeft cf+1) (initScan cf.line) cf.pos [] cf [] rest h
      (by rw [bytesLeft_eq h]; omega)
    rw [confCalls, ngxConfReadToken, hr, Option.bind_some]
    rcases hc with ⟨hs,hp⟩ | ⟨hs,rest',hl,hh,hp⟩
    · rw [if_pos hs, hp]
    · rw [if_neg (by simp [hs]), ih cf' rest' hh (by omega), hp]
      rfl

end Nginx.ConfReadLaw
