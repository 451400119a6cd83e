import Nginx.SsiParse

/-!
# Where the bytes of SSI directives are stored

The parser stores in its blocks but for two bytes: a dash behind a name that fills its block, and
an escaped byte behind a value that fills its block. The block that is taken again is not that of
an earlier value.
-/

set_option autoImplicit false

namespace Nginx.SsiParseLaw
open BlockMemory SsiParse

def reading : State → Bool
  | .param => true
  | .preequal => true
  | .prevalue => true
  | .doubleQuotedValue => true
  | .quotedValue => true
  | .quotedSymbol => true
  | .postparam => true
  | _ => false

def settled : State → Bool
  | .command => true
  | .preparam => true
  | .commentEnd0 => true
  | .commentEnd1 => true
  | _ => false

/-! What a byte does -/

structure Same (c c' : Ctx) : Prop where
  command : c'.command = c.command
  params : c'.params = c.params
  valueLen : c'.valueLen = c.valueLen
  valueBuf : c'.valueBuf = c.valueBuf
  memory : c'.memory = c.memory

structure Follows (s s' : State) : Prop where
  reading : reading s' = true → reading s = true
  settled : settled s' = true → settled s = true
  command : s' = .command → s = .command
  symbol : s' = .quotedSymbol → s = .quotedSymbol

inductive Effect (c : Ctx) (ch : UInt8) (c' : Ctx) : Prop where
  | quiet (h : Same c c') (hs : Follows c.state c'.state) 
      (hsaved : c'.state = .quotedSymbol → c'.savedState = c.savedState)
  | begins (h : Same { precommandByte c ch with state := c'.state } c')
      (hbegins : isSpace ch = false) (hs : c'.state = .command)
  | command (hc : c.state = .command) (hlen : c.command.len ≠ commandLen)
      (h : Same (c.storeCommand ch) c') (hs : c'.state = .command)
  | push (hc : c.state = .preparam) (h : Same (pushParam c ch) c') (hs : c'.state = .param)
  | key (hc : c.state = .param) (hlen : c.param.key.len = paramLen → ch = 45)
      (h : Same (c.storeKey ch) c') (hs : c'.state = .param ∨ c'.state = .errorEnd0)
  | value (hc : c.state = .doubleQuotedValue ∨ c.state = .quotedValue)
      (hlen : c.param.value.len ≠ c.valueLen) (h : Same (c.storeValue ch) c')
      (hs : c'.state = c.state ∨ c'.state = .quotedSymbol ∧ c'.savedState = c.state)
  | symbol (hc : c.state = .quotedSymbol) (h : Same (c.storeValue ch) c')
      (hs : c'.state = c.savedState)
  | keep (hc : c.state = .postparam) (h : Same (keepValue c) c')
      (hs : c'.state = .preparam ∨ c'.state = .commentEnd0 ∨ c'.state = .error)

theorem follows_idle {s s' : State} (hr : reading s' = false) (hs : settled s' = false) :
    Follows s s' := by
  refine ⟨fun h => ?_,fun h => ?_,fun h => ?_,fun h => ?_⟩
  · rw [hr] at h
    cases h
  · rw [hs] at h
    cases h
  · rw [h] at hs
    cases hs
  · rw [h] at hr
    cases hr

theorem follows_refl (s : State) : Follows s s := ⟨id,id,id,id⟩

section Bytes

variable {c c' : Ctx} {bufPos p : ℕ} {ch : UInt8}

theorem no_tag_quiet : Effect c ch (noTag c p ch) := by
  rw [noTag]
  split
  · exact .quiet ⟨rfl,rfl,rfl,rfl,rfl⟩ (follows_idle rfl rfl) fun _ => rfl
  · exact .quiet ⟨rfl,rfl,rfl,rfl,rfl⟩ (follows_idle rfl rfl) fun _ => rfl

theorem tag_effect : Effect c ch (tagByte c p ch) := by
  rw [tagByte]
  split
  · exact .quiet ⟨rfl,rfl,rfl,rfl,rfl⟩ (follows_idle rfl rfl) fun _ => rfl
  · split
    · exact .quiet ⟨rfl,rfl,rfl,rfl,rfl⟩ (follows_refl _) fun _ => rfl
    · exact .quiet ⟨rfl,rfl,rfl,rfl,rfl⟩ (follows_idle rfl rfl) fun _ => rfl

theorem unexpected_quiet : Effect c ch (unexpected c ch) := by
  refine .quiet ⟨rfl,rfl,rfl,rfl,rfl⟩ ?_ fun _ => rfl
  rw [unexpected]
  split <;> exact follows_idle rfl rfl

theorem reading_quiet {s : State} (hc : reading c.state = true) (hs : settled s = false)
    (hsymbol : s ≠ .quotedSymbol) : Effect c ch { c with state := s } := by
  refine .quiet ⟨rfl,rfl,rfl,rfl,rfl⟩ ⟨fun _ => hc,fun h => ?_,fun h => ?_,fun h => absurd h hsymbol⟩
    fun _ => rfl
  · rw [hs] at h
    cases h
  · obtain rfl : s = .command := h
    cases hs

theorem settled_quiet {s : State} (hc : settled c.state = true) (hs : reading s = false)
    (hcommand : s ≠ .command) : Effect c ch { c with state := s } := by
  refine .quiet ⟨rfl,rfl,rfl,rfl,rfl⟩ ⟨fun h => ?_,fun _ => hc,fun h => absurd h hcommand,fun h => ?_⟩
    fun _ => rfl
  · rw [hs] at h
    cases h
  · obtain rfl : s = .quotedSymbol := h
    cases hs

theorem precommand_effect : Effect c ch (precommandByte c ch) := by
  by_cases hspace : isSpace ch
  · rw [precommandByte, if_pos hspace]
    exact .quiet ⟨rfl,rfl,rfl,rfl,rfl⟩ (follows_refl _) fun _ => rfl
  have hstate : (precommandByte c ch).state = .command := by
    rw [precommandByte, if_neg hspace]
  exact .begins ⟨rfl,rfl,rfl,rfl,rfl⟩ (Bool.eq_false_iff.mpr hspace) hstate

theorem command_effect (hc : c.state = .command) : Effect c ch (commandByte c ch) := by
  rw [commandByte]
  split
  · exact settled_quiet (by rw [hc]; rfl) rfl fun h => by cases h
  · split
    · exact settled_quiet (by rw [hc]; rfl) rfl fun h => by cases h
    · split
      · exact .quiet ⟨rfl,rfl,rfl,rfl,rfl⟩ (follows_idle rfl rfl) fun _ => rfl
      · next hlen => exact .command hc hlen ⟨rfl,rfl,rfl,rfl,rfl⟩ hc

theorem preparam_effect (hc : c.state = .preparam) : Effect c ch (preparamByte c ch) := by
  rw [preparamByte]
  split
  · exact .quiet ⟨rfl,rfl,rfl,rfl,rfl⟩ (follows_refl _) fun _ => rfl
  · split
    · exact settled_quiet (by rw [hc]; rfl) rfl fun h => by cases h
    · refine .push hc ⟨rfl,rfl,rfl,rfl,rfl⟩ ?_
      rw [pushParam]
      split <;> rfl

theorem param_effect (hc : c.state = .param) : Effect c ch (paramByte c ch) := by
  have hr : reading c.state = true := by rw [hc]; rfl
  rw [paramByte]
  split
  · exact reading_quiet hr rfl fun h => by cases h
  · split
    · exact reading_quiet hr rfl fun h => by cases h
    · split
      · next hdash => exact .key hc (fun _ => hdash) ⟨rfl,rfl,rfl,rfl,rfl⟩ (Or.inr rfl)
      · split
        · exact .quiet ⟨rfl,rfl,rfl,rfl,rfl⟩ (follows_idle rfl rfl) fun _ => rfl
        · next hlen => exact .key hc (fun h => absurd h hlen) ⟨rfl,rfl,rfl,rfl,rfl⟩ (Or.inl hc)

theorem preequal_effect (hc : c.state = .preequal) : Effect c ch (preequalByte c ch) := by
  rw [preequalByte]
  split
  · exact .quiet ⟨rfl,rfl,rfl,rfl,rfl⟩ (follows_refl _) fun _ => rfl
  · split
    · exact reading_quiet (by rw [hc]; rfl) rfl fun h => by cases h
    · exact unexpected_quiet

theorem prevalue_effect (hc : c.state = .prevalue) : Effect c ch (prevalueByte c ch) := by
  have hr : reading c.state = true := by rw [hc]; rfl
  rw [prevalueByte]
  split
  · exact .quiet ⟨rfl,rfl,rfl,rfl,rfl⟩ (follows_refl _) fun _ => rfl
  · split
    · exact reading_quiet hr rfl fun h => by cases h
    · split
      · exact reading_quiet hr rfl fun h => by cases h
      · exact unexpected_quiet

theorem value_effect (quote : UInt8) (hc : c.state = .doubleQuotedValue ∨ c.state = .quotedValue) :
    Effect c ch (valueByte quote c ch) := by
  have hr : reading c.state = true := by rcases hc with h|h <;> (rw [h]; rfl)
  rw [valueByte]
  split
  · exact reading_quiet hr rfl fun h => by cases h
  · by_cases hback : ch = 92
    · simp only [if_pos hback]
      split
      · exact .quiet ⟨rfl,rfl,rfl,rfl,rfl⟩ (follows_idle rfl rfl) fun h => by cases h
      · next hlen => exact .value hc hlen ⟨rfl,rfl,rfl,rfl,rfl⟩ (Or.inr ⟨rfl,rfl⟩)
    simp only [if_neg hback]
    split
    · exact .quiet ⟨rfl,rfl,rfl,rfl,rfl⟩ (follows_idle rfl rfl) fun _ => rfl
    · next hlen => exact .value hc hlen ⟨rfl,rfl,rfl,rfl,rfl⟩ (Or.inl rfl)

theorem symbol_effect (hc : c.state = .quotedSymbol) : Effect c ch (quotedSymbolByte c ch) :=
  .symbol hc ⟨rfl,rfl,rfl,rfl,rfl⟩ rfl

theorem postparam_effect (hc : c.state = .postparam) : Effect c ch (postparamByte c ch) := by
  rw [postparamByte]
  split
  · exact .keep hc ⟨rfl,rfl,rfl,rfl,rfl⟩ (Or.inl rfl)
  · split
    · exact .keep hc ⟨rfl,rfl,rfl,rfl,rfl⟩ (Or.inr (Or.inl rfl))
    · exact .keep hc ⟨rfl,rfl,rfl,rfl,rfl⟩ (Or.inr (Or.inr rfl))

theorem finish_same : Same c (finish c bufPos p) := ⟨rfl,rfl,rfl,rfl,rfl⟩

theorem byte_effect : (∃ c', ssiByte bufPos p ch c = .inl c' ∧ Effect c ch c') ∨
    ∃ rc, ssiByte bufPos p ch c = .inr (rc, finish c bufPos p) ∧
      (rc = .ok → c.state = .commentEnd1) := by
  have hidle : ∀ s, reading s = false → settled s = false →
      Effect c ch { c with state := s } := fun s hr hs =>
    .quiet ⟨rfl,rfl,rfl,rfl,rfl⟩ (follows_idle hr hs) fun _ => rfl
  cases hc : c.state <;> simp only [ssiByte, hc]
  case start =>
    split
    · exact Or.inl ⟨_,rfl,.quiet ⟨rfl,rfl,rfl,rfl,rfl⟩ (follows_idle rfl rfl) fun _ => rfl⟩
    · exact Or.inl ⟨_,rfl,.quiet ⟨rfl,rfl,rfl,rfl,rfl⟩ (follows_refl _) fun _ => rfl⟩
  case tag => exact Or.inl ⟨_,rfl,tag_effect⟩
  case comment0 =>
    refine Or.inl ⟨_,rfl,?_⟩
    rw [comment0Byte]
    split
    · exact .quiet ⟨rfl,rfl,rfl,rfl,rfl⟩ (follows_idle rfl rfl) fun _ => rfl
    · exact no_tag_quiet
  case comment1 =>
    refine Or.inl ⟨_,rfl,?_⟩
    rw [comment1Byte]
    split
    · exact .quiet ⟨rfl,rfl,rfl,rfl,rfl⟩ (follows_idle rfl rfl) fun _ => rfl
    · exact no_tag_quiet
  case sharp =>
    refine Or.inl ⟨_,rfl,?_⟩
    rw [sharpByte]
    split
    · exact .quiet ⟨rfl,rfl,rfl,rfl,rfl⟩ (follows_idle rfl rfl) fun _ => rfl
    · exact no_tag_quiet
  case precommand => exact Or.inl ⟨_,rfl,precommand_effect⟩
  case command => exact Or.inl ⟨_,rfl,command_effect hc⟩
  case preparam => exact Or.inl ⟨_,rfl,preparam_effect hc⟩
  case param => exact Or.inl ⟨_,rfl,param_effect hc⟩
  case preequal => exact Or.inl ⟨_,rfl,preequal_effect hc⟩
  case prevalue => exact Or.inl ⟨_,rfl,prevalue_effect hc⟩
  case doubleQuotedValue => exact Or.inl ⟨_,rfl,value_effect 34 (Or.inl hc)⟩
  case quotedValue => exact Or.inl ⟨_,rfl,value_effect 39 (Or.inr hc)⟩
  case quotedSymbol => exact Or.inl ⟨_,rfl,symbol_effect hc⟩
  case postparam => exact Or.inl ⟨_,rfl,postparam_effect hc⟩
  case commentEnd0 =>
    split
    · exact Or.inl ⟨_,rfl,settled_quiet (by rw [hc]; rfl) rfl fun h => by cases h⟩
    · exact Or.inl ⟨_,rfl,hidle _ rfl rfl⟩
  case commentEnd1 =>
    split
    · exact Or.inr ⟨_,rfl,fun _ => trivial⟩
    · exact Or.inl ⟨_,rfl,hidle _ rfl rfl⟩
  case error =>
    split
    · exact Or.inl ⟨_,rfl,hidle _ rfl rfl⟩
    · exact Or.inl ⟨_,rfl,.quiet ⟨rfl,rfl,rfl,rfl,rfl⟩ (follows_refl _) fun _ => rfl⟩
  case errorEnd0 =>
    split
    · exact Or.inl ⟨_,rfl,hidle _ rfl rfl⟩
    · exact Or.inl ⟨_,rfl,hidle _ rfl rfl⟩
  case errorEnd1 =>
    split
    · exact Or.inr ⟨_,rfl,fun h => by cases h⟩
    · exact Or.inl ⟨_,rfl,hidle _ rfl rfl⟩

end Bytes

/-! Blocks -/

def Block (m : Memory) (b n : ℕ) : Prop := b < m.next ∧ m.sizes b = n

theorem block_extends {m m' : Memory} {b n : ℕ} (h : Block m b n) (he : Extends m m') :
    Block m' b n := ⟨h.1.trans_le he.next,(he.sizes b h.1).trans h.2⟩

theorem block_new (n : ℕ) (m : Memory) : Block (alloc n m) m.next n :=
  ⟨Nat.lt_succ_self _,alloc_size n m⟩

structure Placed (c : Ctx) : Prop where
  command : c.state = .command → Block c.memory c.command.data commandLen
  param : reading c.state = true → c.params = c.param::c.params.tail
  key : reading c.state = true → Block c.memory c.param.key.data paramLen
  value : reading c.state = true → Block c.memory c.param.value.data c.valueLen
  valueBuf : ∀ b, c.valueBuf = some b → Block c.memory b c.valueLen
  symbol : c.state = .quotedSymbol →
    c.savedState = .doubleQuotedValue ∨ c.savedState = .quotedValue

structure Fits (c : Ctx) : Prop where
  sound : Sound c.memory
  command : c.state = .command → c.command.len ≤ commandLen
  key : reading c.state = true → c.param.key.len ≤ paramLen
  value : reading c.state = true → c.param.value.len ≤ c.valueLen

def complete (c : Ctx) : List Param :=
  if reading c.state then c.params.tail else if settled c.state then c.params else []

def taken (c : Ctx) (given : List ℕ) : List ℕ := (complete c).map (fun a => a.value.data)++given

/-- The block that the next value gets, or that the value being read has, is of no value that is
still looked at. -/
structure Apart (c : Ctx) (given : List ℕ) : Prop where
  known : ∀ b ∈ taken c given, b < c.memory.next
  valueBuf : ∀ b, c.valueBuf = some b → b ∉ taken c given
  value : reading c.state = true → c.param.value.data ∉ taken c given

def Overrun (c : Ctx) (ch : UInt8) : Prop :=
  c.state = .param ∧ ch = 45 ∧ c.param.key.len = paramLen ∨
    c.state = .quotedSymbol ∧ c.param.value.len = c.valueLen

section Steps

variable {c c' : Ctx} {ch : UInt8} {given : List ℕ}

theorem same_param (h : Same c c') : c'.param = c.param := by
  rw [Ctx.param, Ctx.param, h.params]

theorem push_extends (c : Ctx) (ch : UInt8) : Extends c.memory (pushParam c ch).memory := by
  have hkey := extends_trans (alloc_extends paramLen c.memory)
    (store_extends c.memory.next 0 ch (alloc paramLen c.memory))
  rw [pushParam]
  split
  · exact extends_trans hkey (alloc_extends _ _)
  · exact hkey

theorem keep_extends (c : Ctx) : Extends c.memory (keepValue c).memory := by
  rw [keepValue]
  split
  · exact extends_trans (alloc_extends _ _) (copy_extends _ _ _ _)
  · exact extends_refl _

theorem effect_extends (h : Effect c ch c') : Extends c.memory c'.memory := by
  cases h with
  | quiet h => exact h.memory ▸ extends_refl _
  | begins h hbegins =>
    rw [h.memory, precommandByte, if_neg (by rw [hbegins]; exact Bool.false_ne_true)]
    exact extends_trans (alloc_extends _ _) (store_extends _ _ _ _)
  | command _ _ h => exact h.memory ▸ store_extends _ _ _ _
  | push _ h => exact h.memory ▸ push_extends c ch
  | key _ _ h => exact h.memory ▸ store_extends _ _ _ _
  | value _ _ h => exact h.memory ▸ store_extends _ _ _ _
  | symbol _ h => exact h.memory ▸ store_extends _ _ _ _
  | keep _ h => exact h.memory ▸ keep_extends c

theorem begin_memory (hspace : isSpace ch = false) :
    (precommandByte c ch).memory = store c.memory.next 0 ch (alloc commandLen c.memory) ∧
      (precommandByte c ch).command = ⟨c.memory.next,1⟩ ∧ (precommandByte c ch).params = [] ∧
      (precommandByte c ch).valueBuf = c.valueBuf ∧
      (precommandByte c ch).valueLen = c.valueLen := by
  rw [precommandByte, if_neg (by rw [hspace]; exact Bool.false_ne_true)]
  exact ⟨rfl,rfl,rfl,rfl,rfl⟩

theorem push_param (c : Ctx) (ch : UInt8) : ∃ b,
    (pushParam c ch).params = ⟨⟨c.memory.next,1⟩,⟨b,0⟩⟩::c.params ∧
      (pushParam c ch).valueBuf = c.valueBuf ∧ (pushParam c ch).valueLen = c.valueLen ∧
      Block (pushParam c ch).memory c.memory.next paramLen ∧
      (c.valueBuf = some b ∨ c.memory.next ≤ b ∧ Block (pushParam c ch).memory b c.valueLen) ∧
      (Sound c.memory → Sound (pushParam c ch).memory) := by
  have hkey : Block (store c.memory.next 0 ch (alloc paramLen c.memory)) c.memory.next paramLen :=
    block_new paramLen c.memory
  have hsound : Sound c.memory → Sound (store c.memory.next 0 ch (alloc paramLen c.memory)) :=
    fun h => store_sound (alloc_sound h _) (Nat.lt_succ_self _)
      (by rw [alloc_size]; exact Nat.succ_pos 31) ch
  rw [pushParam]
  cases hbuf : c.valueBuf with
  | some b => exact ⟨b,rfl,rfl,rfl,hkey,Or.inl rfl,hsound⟩
  | none =>
    exact ⟨_,rfl,rfl,rfl,block_extends hkey (alloc_extends _ _),
      Or.inr ⟨Nat.le_succ _,block_new _ _⟩,fun h => alloc_sound (hsound h) _⟩

theorem keep_value (c : Ctx) : ∃ b,
    (keepValue c).valueLen = c.valueLen ∧
      ((keepValue c).valueBuf = none ∧ (keepValue c).memory = c.memory ∧
          (keepValue c).params = c.params ∧ b = c.param.value.data ∨
        (keepValue c).valueBuf = some c.param.value.data ∧ c.memory.next = b ∧
          (keepValue c).params =
            { c.param with value := { c.param.value with data := b } }::c.params.tail ∧
          (keepValue c).memory.next = c.memory.next+1 ∧
          (Sound c.memory → Sound (keepValue c).memory)) := by
  rw [keepValue]
  split
  · refine ⟨c.memory.next,rfl,Or.inr ⟨rfl,rfl,rfl,?_,fun h => ?_⟩⟩
    · exact copy_next _ _ _ _
    · refine copy_sound (alloc_sound h _) _ (Nat.lt_succ_self _) ?_
      rw [alloc_size]
      exact Nat.le_succ _
  · exact ⟨_,rfl,Or.inl ⟨rfl,rfl,rfl,rfl⟩⟩

theorem reading_quoted (h : c.state = .doubleQuotedValue ∨ c.state = .quotedValue) :
    reading c.state = true := by
  rcases h with h|h <;> (rw [h]; rfl)

theorem stored_placed (hc : Placed c) (hr : reading c.state = true) {a : Param}
    (hkey : a.key.data = c.param.key.data) (hvalue : a.value.data = c.param.value.data)
    (hparams : c'.params = a::c.params.tail) (hlen : c'.valueLen = c.valueLen)
    (hbuf : c'.valueBuf = c.valueBuf) (he : Extends c.memory c'.memory)
    (hcommand : c'.state ≠ .command)
    (hsymbol : c'.state = .quotedSymbol → c'.savedState = .doubleQuotedValue ∨
      c'.savedState = .quotedValue) : Placed c' := by
  have hparam : c'.param = a := by rw [Ctx.param, hparams]; rfl
  refine ⟨fun h => absurd h hcommand,fun _ => ?_,fun _ => ?_,fun _ => ?_,fun b hb => ?_,hsymbol⟩
  · rw [hparam, hparams]
    rfl
  · rw [hparam, hkey]
    exact block_extends (hc.key hr) he
  · rw [hparam, hvalue, hlen]
    exact block_extends (hc.value hr) he
  · rw [hlen]
    exact block_extends (hc.valueBuf b (hbuf ▸ hb)) he

theorem effect_placed (hc : Placed c) (h : Effect c ch c') : Placed c' := by
  have he := effect_extends h
  cases h with
  | quiet h hs hsaved =>
    have hparam := same_param h
    refine ⟨fun hcommand => ?_,fun hr => ?_,fun hr => ?_,fun hr => ?_,fun b hb => ?_,fun hsymbol => ?_⟩
    · rw [h.memory, h.command]
      exact hc.command (hs.command hcommand)
    · rw [hparam, h.params]
      exact hc.param (hs.reading hr)
    · rw [hparam, h.memory]
      exact hc.key (hs.reading hr)
    · rw [hparam, h.memory, h.valueLen]
      exact hc.value (hs.reading hr)
    · rw [h.memory, h.valueLen]
      exact hc.valueBuf b (h.valueBuf ▸ hb)
    · rw [hsaved hsymbol]
      exact hc.symbol (hs.symbol hsymbol)
  | begins h hbegins hs =>
    obtain ⟨hmemory,hcommand,-,hbuf,hlen⟩ := begin_memory (c := c) hbegins
    have hnot : reading c'.state ≠ true := by
      rw [hs]
      exact Bool.false_ne_true
    refine ⟨fun _ => ?_,fun hr => absurd hr hnot,fun hr => absurd hr hnot,fun hr => absurd hr hnot,
      fun b hb => ?_,fun hsymbol => by rw [hs] at hsymbol; cases hsymbol⟩
    · rw [h.memory, h.command, hmemory, hcommand]
      exact block_new commandLen c.memory
    · rw [h.valueLen, hlen]
      rw [h.valueBuf, hbuf] at hb
      exact block_extends (hc.valueBuf b hb) he
  | command hstate _ h hs =>
    have hnot : reading c'.state ≠ true := by
      rw [hs]
      exact Bool.false_ne_true
    refine ⟨fun _ => ?_,fun hr => absurd hr hnot,fun hr => absurd hr hnot,fun hr => absurd hr hnot,
      fun b hb => ?_,fun hsymbol => by rw [hs] at hsymbol; cases hsymbol⟩
    · rw [h.command]
      exact block_extends (hc.command hstate) he
    · rw [h.valueLen]
      exact block_extends (hc.valueBuf b (h.valueBuf ▸ hb)) he
  | push hstate h hs =>
    obtain ⟨b,hparams,hbuf,hlen,hkey,hvalue,-⟩ := push_param c ch
    have hparam : c'.param = ⟨⟨c.memory.next,1⟩,⟨b,0⟩⟩ := by
      rw [Ctx.param, h.params, hparams]
      rfl
    refine ⟨fun hcommand => (by rw [hs] at hcommand; cases hcommand),fun _ => ?_,fun _ => ?_,fun _ => ?_,
      fun b' hb => ?_,fun hsymbol => by rw [hs] at hsymbol; cases hsymbol⟩
    · rw [hparam, h.params, hparams]
      rfl
    · rw [hparam, h.memory]
      exact hkey
    · rw [hparam, h.valueLen, hlen]
      rcases hvalue with hvalue|hvalue
      · exact block_extends (hc.valueBuf b hvalue) he
      · rw [h.memory]
        exact hvalue.2
    · rw [h.valueLen, hlen]
      rw [h.valueBuf, hbuf] at hb
      exact block_extends (hc.valueBuf b' hb) he
  | key hstate _ h hs =>
    refine stored_placed hc (by rw [hstate]; rfl) (a := (c.storeKey ch).param) rfl rfl h.params
      h.valueLen h.valueBuf he ?_ ?_
    · rcases hs with hs|hs <;> (rw [hs]; exact fun h => by cases h)
    · rcases hs with hs|hs <;> (rw [hs]; exact fun h => by cases h)
  | value hstate _ h hs =>
    refine stored_placed hc (reading_quoted hstate) (a := (c.storeValue ch).param) rfl rfl h.params
      h.valueLen h.valueBuf he ?_ ?_
    · rcases hs with hs|hs
      · rw [hs]
        rcases hstate with h'|h' <;> (rw [h']; exact fun h => by cases h)
      · rw [hs.1]
        exact fun h => by cases h
    · rcases hs with hs|hs
      · rw [hs]
        rcases hstate with h'|h' <;> (rw [h']; exact fun h => by cases h)
      · rw [hs.2]
        exact fun _ => hstate
  | symbol hstate h hs =>
    refine stored_placed hc (by rw [hstate]; rfl) (a := (c.storeValue ch).param) rfl rfl h.params
      h.valueLen h.valueBuf he ?_ ?_
    · rcases hc.symbol hstate with h'|h' <;> (rw [hs, h']; exact fun h => by cases h)
    · rcases hc.symbol hstate with h'|h' <;> (rw [hs, h']; exact fun h => by cases h)
  | keep hstate h hs =>
    have hr : reading c.state = true := by rw [hstate]; rfl
    have hnot : reading c'.state ≠ true ∧ c'.state ≠ .command ∧ c'.state ≠ .quotedSymbol := by
      rcases hs with hs|hs|hs <;> (rw [hs]; decide)
    obtain ⟨b,hlen,hkeep⟩ := keep_value c
    refine ⟨fun h => absurd h hnot.2.1,fun h => absurd h hnot.1,fun h => absurd h hnot.1,
      fun h => absurd h hnot.1,fun b hb => ?_,fun h => absurd h hnot.2.2⟩
    rw [h.valueBuf] at hb
    rw [h.valueLen, hlen]
    rcases hkeep with hkeep|hkeep
    · rw [hkeep.1] at hb
      cases hb
    rw [hkeep.1] at hb
    obtain rfl := Option.some.inj hb
    exact block_extends (hc.value hr) he

/-! The block that is taken again -/

theorem complete_reading (h : reading c.state = true) : complete c = c.params.tail := by
  rw [complete, if_pos h]

theorem complete_settled (h : settled c.state = true) : complete c = c.params := by
  have hr : ¬reading c.state = true := by
    generalize c.state = s at h
    cases s <;> first
      | exact Bool.false_ne_true
      | cases h
  rw [complete, if_neg hr, if_pos h]

theorem complete_idle (hr : reading c.state = false) (hs : settled c.state = false) :
    complete c = [] := by
  rw [complete, hr, hs]
  rfl

theorem given_taken {b : ℕ} (h : b ∈ given) : b ∈ taken c given := List.mem_append_right _ h

theorem taken_sub (h : ∀ a, a ∈ complete c' → a ∈ complete c) {b : ℕ} (hb : b ∈ taken c' given) :
    b ∈ taken c given := by
  rcases List.mem_append.mp hb with hb|hb
  · obtain ⟨a,ha,rfl⟩ := List.mem_map.mp hb
    exact List.mem_append_left _ (List.mem_map.mpr ⟨a,h a ha,rfl⟩)
  · exact given_taken hb

theorem apart_kept (hc : Apart c given) (hsub : ∀ a, a ∈ complete c' → a ∈ complete c)
    (hbuf : c'.valueBuf = c.valueBuf) (he : Extends c.memory c'.memory)
    (hvalue : reading c'.state = true →
      reading c.state = true ∧ c'.param.value.data = c.param.value.data) : Apart c' given where
  known b hb := (hc.known b (taken_sub hsub hb)).trans_le he.next
  valueBuf b hb h := hc.valueBuf b (hbuf ▸ hb) (taken_sub hsub h)
  value hr h := by
    rw [(hvalue hr).2] at h
    exact hc.value (hvalue hr).1 (taken_sub hsub h)

theorem complete_stored {a : Param} (hr : reading c.state = true)
    (hparams : c'.params = a::c.params.tail) (hs : settled c'.state = false) :
    ∀ x, x ∈ complete c' → x ∈ complete c := by
  intro x hx
  rw [complete_reading hr]
  cases hr' : reading c'.state with
  | true =>
    rw [complete_reading hr', hparams] at hx
    exact hx
  | false =>
    rw [complete_idle hr' hs] at hx
    exact absurd hx List.not_mem_nil

theorem stored_apart (hc : Apart c given) (hr : reading c.state = true) {a : Param}
    (hvalue : a.value.data = c.param.value.data) (hparams : c'.params = a::c.params.tail)
    (hs : settled c'.state = false) (hbuf : c'.valueBuf = c.valueBuf)
    (he : Extends c.memory c'.memory) : Apart c' given := by
  refine apart_kept hc (complete_stored hr hparams hs) hbuf he fun _ => ⟨hr,?_⟩
  rw [Ctx.param, hparams]
  exact hvalue

theorem effect_apart (hp : Placed c) (hc : Apart c given) (h : Effect c ch c') :
    Apart c' given := by
  have he := effect_extends h
  cases h with
  | quiet h hs =>
    refine apart_kept hc (fun a ha => ?_) h.valueBuf he fun hr => ⟨hs.reading hr,by rw [same_param h]⟩
    by_cases hr : reading c'.state = true
    · rw [complete_reading hr, h.params] at ha
      rw [complete_reading (hs.reading hr)]
      exact ha
    by_cases hset : settled c'.state = true
    · rw [complete_settled hset, h.params] at ha
      rw [complete_settled (hs.settled hset)]
      exact ha
    · rw [complete_idle (Bool.eq_false_iff.mpr hr) (Bool.eq_false_iff.mpr hset)] at ha
      exact absurd ha List.not_mem_nil
  | begins h hbegins hs =>
    obtain ⟨-,-,hparams,hbuf,-⟩ := begin_memory (c := c) hbegins
    refine apart_kept hc (fun a ha => ?_) (h.valueBuf.trans hbuf) he fun hr => ?_
    · rw [complete_settled (by rw [hs]; rfl), h.params, hparams] at ha
      exact absurd ha List.not_mem_nil
    · rw [hs] at hr
      cases hr
  | command hstate _ h hs =>
    refine apart_kept hc (fun a ha => ?_) h.valueBuf he fun hr => ?_
    · rw [complete_settled (by rw [hs]; rfl), h.params] at ha
      rw [complete_settled (by rw [hstate]; rfl)]
      exact ha
    · rw [hs] at hr
      cases hr
  | push hstate h hs =>
    obtain ⟨b,hparams,hbuf,-,-,hvalue,-⟩ := push_param c ch
    have hsub : ∀ a, a ∈ complete c' → a ∈ complete c := fun a ha => by
      rw [complete_reading (by rw [hs]; rfl), h.params, hparams] at ha
      rw [complete_settled (by rw [hstate]; rfl)]
      exact ha
    have hparam : c'.param.value.data = b := by
      rw [Ctx.param, h.params, hparams]
      rfl
    refine ⟨fun b hb => (hc.known b (taken_sub hsub hb)).trans_le he.next,fun b hb hin => ?_,
      fun _ hin => ?_⟩
    · rw [h.valueBuf, hbuf] at hb
      exact hc.valueBuf b hb (taken_sub hsub hin)
    · rw [hparam] at hin
      rcases hvalue with hvalue|hvalue
      · exact hc.valueBuf b hvalue (taken_sub hsub hin)
      · exact absurd (hc.known b (taken_sub hsub hin)) (not_lt.mpr hvalue.1)
  | key hstate _ h hs =>
    refine stored_apart hc (by rw [hstate]; rfl) (a := (c.storeKey ch).param) rfl h.params ?_
      h.valueBuf he
    rcases hs with hs|hs <;> (rw [hs]; rfl)
  | value hstate _ h hs =>
    refine stored_apart hc (reading_quoted hstate) (a := (c.storeValue ch).param) rfl h.params ?_
      h.valueBuf he
    rcases hs with hs|hs
    · rcases hstate with h'|h' <;> (rw [hs, h']; rfl)
    · rw [hs.1]
      rfl
  | symbol hstate h hs =>
    refine stored_apart hc (by rw [hstate]; rfl) (a := (c.storeValue ch).param) rfl h.params ?_
      h.valueBuf he
    rcases hp.symbol hstate with h'|h' <;> (rw [hs, h']; rfl)
  | keep hstate h hs =>
    have hr : reading c.state = true := by rw [hstate]; rfl
    have hnot : reading c'.state ≠ true := by
      rcases hs with hs|hs|hs <;> (rw [hs]; exact Bool.false_ne_true)
    obtain ⟨b,-,hkeep⟩ := keep_value c
    have hblock := hp.value hr
    -- the blocks of the values: those of before, and the one that has been read
    have hsub : ∀ x, x ∈ taken c' given → x = b ∨ x ∈ taken c given := by
      intro x hx
      rcases List.mem_append.mp hx with hx|hx
      · obtain ⟨a,ha,rfl⟩ := List.mem_map.mp hx
        have hin : a ∈ c'.params := by
          rw [complete, if_neg hnot] at ha
          split at ha
          · exact ha
          · exact absurd ha List.not_mem_nil
        have hcomplete := complete_reading hr
        rw [h.params] at hin
        rcases hkeep with ⟨-,-,hparams,hb⟩|⟨-,-,hparams,-⟩
        · rw [hparams, hp.param hr] at hin
          rcases List.mem_cons.mp hin with rfl|hin
          · exact Or.inl hb.symm
          · exact Or.inr (List.mem_append_left _ (List.mem_map.mpr ⟨a,hcomplete ▸ hin,rfl⟩))
        rw [hparams] at hin
        rcases List.mem_cons.mp hin with rfl|hin
        · exact Or.inl rfl
        · exact Or.inr (List.mem_append_left _ (List.mem_map.mpr ⟨a,hcomplete ▸ hin,rfl⟩))
      · exact Or.inr (given_taken hx)
    refine ⟨fun x hx => ?_,fun x hx hin => ?_,fun h => absurd h hnot⟩
    · rcases hsub x hx with rfl|hx
      · rcases hkeep with ⟨-,-,-,hb⟩|⟨-,hb,-,hnext,-⟩
        · rw [hb]
          exact hblock.1.trans_le he.next
        · rw [h.memory, hnext, ← hb]
          exact Nat.lt_succ_self _
      · exact (hc.known x hx).trans_le he.next
    · rw [h.valueBuf] at hx
      rcases hkeep with ⟨hnone,-⟩|⟨hsome,hb,-⟩
      · rw [hnone] at hx
        cases hx
      rw [hsome] at hx
      obtain rfl := Option.some.inj hx
      rcases hsub _ hin with heq|hin
      · rw [heq, ← hb] at hblock
        exact absurd hblock.1 (lt_irrefl _)
      · exact hc.value hr hin

/-! Lengths -/

theorem same_fits (hc : Fits c) (h : Same c c') (hs : Follows c.state c'.state) : Fits c' := by
  have hparam := same_param h
  refine ⟨h.memory ▸ hc.sound,fun hcommand => ?_,fun hr => ?_,fun hr => ?_⟩
  · exact h.command ▸ hc.command (hs.command hcommand)
  · exact hparam ▸ hc.key (hs.reading hr)
  · rw [hparam, h.valueLen]
    exact hc.value (hs.reading hr)

theorem stored_fits (hp : Placed c) (hc : Fits c) (hr : reading c.state = true)
    (hne : c.param.value.len ≠ c.valueLen) (h : Same (c.storeValue ch) c')
    (hcommand : c'.state ≠ .command) : Fits c' := by
  obtain ⟨hblock,hsize⟩ := hp.value hr
  have hlt := lt_of_le_of_ne (hc.value hr) hne
  have hparam : c'.param = (c.storeValue ch).param := by
    rw [Ctx.param, h.params]
    rfl
  refine ⟨?_,fun h => absurd h hcommand,fun _ => ?_,fun _ => ?_⟩
  · rw [h.memory]
    exact store_sound hc.sound hblock (by rw [hsize]; exact hlt) ch
  · rw [hparam]
    exact hc.key hr
  · rw [hparam, h.valueLen]
    exact hlt

theorem effect_fits (hp : Placed c) (hc : Fits c) (hno : ¬Overrun c ch) (h : Effect c ch c') :
    Fits c' := by
  cases h with
  | quiet h hs => exact same_fits hc h hs
  | begins h hbegins hs =>
    obtain ⟨hmemory,hcommand,-⟩ := begin_memory (c := c) hbegins
    refine ⟨?_,fun _ => ?_,fun hr => ?_,fun hr => ?_⟩
    · rw [h.memory, hmemory]
      exact store_sound (alloc_sound hc.sound _) (Nat.lt_succ_self _)
        (by rw [alloc_size]; exact Nat.succ_pos 31) ch
    · rw [h.command, hcommand]
      exact Nat.succ_le_succ (Nat.zero_le 31)
    · rw [hs] at hr
      cases hr
    · rw [hs] at hr
      cases hr
  | command hstate hlen h hs =>
    obtain ⟨hblock,hsize⟩ := hp.command hstate
    have hlt := lt_of_le_of_ne (hc.command hstate) hlen
    refine ⟨?_,fun _ => ?_,fun hr => ?_,fun hr => ?_⟩
    · rw [h.memory]
      exact store_sound hc.sound hblock (by rw [hsize]; exact hlt) ch
    · rw [h.command]
      exact hlt
    · rw [hs] at hr
      cases hr
    · rw [hs] at hr
      cases hr
  | push hstate h hs =>
    obtain ⟨b,hparams,-,-,-,-,hsound⟩ := push_param c ch
    have hparam : c'.param = ⟨⟨c.memory.next,1⟩,⟨b,0⟩⟩ := by
      rw [Ctx.param, h.params, hparams]
      rfl
    refine ⟨h.memory ▸ hsound hc.sound,fun hcommand => ?_,fun _ => ?_,fun _ => ?_⟩
    · rw [hs] at hcommand
      cases hcommand
    · rw [hparam]
      exact Nat.succ_le_succ (Nat.zero_le 31)
    · rw [hparam]
      exact Nat.zero_le _
  | key hstate hlen h hs =>
    have hr : reading c.state = true := by rw [hstate]; rfl
    obtain ⟨hblock,hsize⟩ := hp.key hr
    have hne : c.param.key.len ≠ paramLen := fun heq =>
      hno (Or.inl ⟨hstate,hlen heq,heq⟩)
    have hlt := lt_of_le_of_ne (hc.key hr) hne
    have hparam : c'.param = (c.storeKey ch).param := by
      rw [Ctx.param, h.params]
      rfl
    refine ⟨?_,fun hcommand => ?_,fun _ => ?_,fun _ => ?_⟩
    · rw [h.memory]
      exact store_sound hc.sound hblock (by rw [hsize]; exact hlt) ch
    · rcases hs with hs|hs <;> (rw [hs] at hcommand; cases hcommand)
    · rw [hparam]
      exact hlt
    · rw [hparam, h.valueLen]
      exact hc.value hr
  | value hstate hlen h hs =>
    have hr := reading_quoted hstate
    exact stored_fits hp hc hr hlen h (by
      rcases hs with hs|hs
      · rw [hs]
        rcases hstate with h'|h' <;> (rw [h']; exact fun h => by cases h)
      · rw [hs.1]
        exact fun h => by cases h)
  | symbol hstate h hs =>
    have hr : reading c.state = true := by rw [hstate]; rfl
    exact stored_fits hp hc hr (fun heq => hno (Or.inr ⟨hstate,heq⟩)) h (by
      rcases hp.symbol hstate with h'|h' <;> (rw [hs, h']; exact fun h => by cases h))
  | keep hstate h hs =>
    have hnot : reading c'.state ≠ true ∧ c'.state ≠ .command := by
      rcases hs with hs|hs|hs <;> (rw [hs]; decide)
    obtain ⟨b,-,hkeep⟩ := keep_value c
    refine ⟨?_,fun h => absurd h hnot.2,fun h => absurd h hnot.1,fun h => absurd h hnot.1⟩
    rw [h.memory]
    rcases hkeep with ⟨-,hmemory,-⟩|⟨-,-,-,-,hsound⟩
    · rw [hmemory]
      exact hc.sound
    · exact hsound hc.sound

theorem overrun_store {bufPos p : ℕ} (hp : Placed c) (h : Overrun c ch)
    (hc' : ssiByte bufPos p ch c = .inl c') :
    ∃ b o, c'.memory = store b o ch c.memory ∧ Block c.memory b o := by
  rcases h with ⟨hstate,rfl,hlen⟩|⟨hstate,hlen⟩
  · rw [ssiByte, hstate] at hc'
    obtain rfl := Sum.inl.inj hc'
    have hr : reading c.state = true := by rw [hstate]; rfl
    exact ⟨_,_,rfl,hlen ▸ hp.key hr⟩
  rw [ssiByte, hstate] at hc'
  obtain rfl := Sum.inl.inj hc'
  have hr : reading c.state = true := by rw [hstate]; rfl
  exact ⟨_,_,rfl,hlen ▸ hp.value hr⟩

end Steps

/-! Calls -/

section Calls

variable {c c' : Ctx} {bufPos p n : ℕ} {given : List ℕ}

theorem same_placed (hp : Placed c) (h : Same c c') (hs : Follows c.state c'.state)
    (hsaved : c'.state = .quotedSymbol → c'.savedState = c.savedState) : Placed c' := by
  have heffect : Effect c 0 c' := .quiet h hs hsaved
  exact effect_placed hp heffect

theorem same_apart (hp : Placed c) (hc : Apart c given) (h : Same c c')
    (hs : Follows c.state c'.state)
    (hsaved : c'.state = .quotedSymbol → c'.savedState = c.savedState) : Apart c' given := by
  have heffect : Effect c 0 c' := .quiet h hs hsaved
  exact effect_apart hp hc heffect

theorem finish_apart (hc : Apart c given) (hstate : c.state = .commentEnd1) :
    Apart (finish c bufPos p) ((finish c bufPos p).params.map (fun a => a.value.data)++given) := by
  have htaken : taken (finish c bufPos p)
      ((finish c bufPos p).params.map (fun a => a.value.data)++given) = taken c given := by
    rw [taken, taken, complete_settled (c := c) (by rw [hstate]; rfl),
      complete_idle (c := finish c bufPos p) rfl rfl]
    rfl
  refine ⟨fun b hb => hc.known b (htaken ▸ hb),fun b hb hin => ?_,fun hr => by cases hr⟩
  exact hc.valueBuf b hb (htaken ▸ hin)

theorem loop_kept (bytes : List UInt8) (hp : Placed c) (hc : Apart c given) :
    Placed (ssiLoop bufPos p bytes c).2 ∧ Apart (ssiLoop bufPos p bytes c).2 given ∧
      Extends c.memory (ssiLoop bufPos p bytes c).2.memory ∧
      ((ssiLoop bufPos p bytes c).1 = .ok → Apart (ssiLoop bufPos p bytes c).2
        ((ssiLoop bufPos p bytes c).2.params.map (fun a => a.value.data)++given)) := by
  induction bytes generalizing p c with
  | nil =>
    exact ⟨same_placed hp ⟨rfl,rfl,rfl,rfl,rfl⟩ (follows_refl _) fun _ => rfl,
      same_apart hp hc ⟨rfl,rfl,rfl,rfl,rfl⟩ (follows_refl _) fun _ => rfl,extends_refl _,
      fun h => by cases h⟩
  | cons ch bytes ih =>
    rw [ssiLoop]
    rcases @byte_effect c bufPos p ch with ⟨c',hbyte,heffect⟩|⟨rc,hbyte,hok⟩
    · rw [hbyte]
      obtain ⟨hp',hc',he,hgiven⟩ := ih (p := p+1) (effect_placed hp heffect)
        (effect_apart hp hc heffect)
      exact ⟨hp',hc',extends_trans (effect_extends heffect) he,hgiven⟩
    rw [hbyte]
    exact ⟨same_placed hp finish_same (follows_idle rfl rfl) fun h => (by cases h),
      same_apart hp hc finish_same (follows_idle rfl rfl) fun h => (by cases h),extends_refl _,
      fun h => finish_apart hc (hok h)⟩

def CleanLoop (bufPos : ℕ) : ℕ → List UInt8 → Ctx → Prop
  | _, [], _ => True
  | p, ch::bytes, c =>
    ¬Overrun c ch ∧ ∀ c', ssiByte bufPos p ch c = .inl c' → CleanLoop bufPos (p+1) bytes c'

def CleanCalls : List Call → Ctx → Prop
  | [], _ => True
  | k::ks, c => CleanLoop k.bufPos k.pos k.bytes (k.enter c) ∧ CleanCalls ks (k.parse c).2

theorem loop_fits (bytes : List UInt8) (hp : Placed c) (hc : Fits c)
    (hclean : CleanLoop bufPos p bytes c) : Fits (ssiLoop bufPos p bytes c).2 := by
  induction bytes generalizing p c with
  | nil => exact same_fits hc ⟨rfl,rfl,rfl,rfl,rfl⟩ (follows_refl _)
  | cons ch bytes ih =>
    rw [ssiLoop]
    rcases @byte_effect c bufPos p ch with ⟨c',hbyte,heffect⟩|⟨rc,hbyte,-⟩
    · rw [hbyte]
      exact ih (effect_placed hp heffect) (effect_fits hp hc hclean.1 heffect) (hclean.2 c' hbyte)
    · rw [hbyte]
      exact same_fits hc finish_same (follows_idle rfl rfl)

theorem loop_outside (bytes : List UInt8) (hp : Placed c) (hc : Apart c given)
    (hclean : ¬CleanLoop bufPos p bytes c) {m : Memory}
    (hm : Extends (ssiLoop bufPos p bytes c).2.memory m) : ¬Sound m := by
  induction bytes generalizing p c with
  | nil => exact absurd trivial hclean
  | cons ch bytes ih =>
    rw [ssiLoop] at hm
    rcases @byte_effect c bufPos p ch with ⟨c',hbyte,heffect⟩|⟨rc,hbyte,-⟩
    · rw [hbyte] at hm
      have hp' := effect_placed hp heffect
      have hc' := effect_apart hp hc heffect
      by_cases hover : Overrun c ch
      · obtain ⟨b,o,hmemory,hblock⟩ := overrun_store hp hover hbyte
        have hkept : Extends c'.memory (ssiLoop bufPos (p+1) bytes c').2.memory :=
          (loop_kept bytes hp' hc').2.2.1
        have he := extends_trans hkept hm
        rw [hmemory] at he
        exact store_outside hblock.1 hblock.2.le he
      refine ih hp' hc' (fun h => hclean ⟨hover,fun x hx => ?_⟩) hm
      rw [hbyte] at hx
      obtain rfl := Sum.inl.inj hx
      exact h
    refine absurd ⟨fun hover => ?_,fun x hx => ?_⟩ hclean
    · rcases hover with ⟨hstate,-⟩|⟨hstate,-⟩ <;>
      · rw [ssiByte, hstate] at hbyte
        cases hbyte
    · rw [hbyte] at hx
      cases hx

theorem new_placed (n : ℕ) : Placed (newCtx n) :=
  ⟨fun h => (by cases h),fun h => (by cases h),fun h => (by cases h),fun h => (by cases h),
    fun _ h => (by cases h),fun h => by cases h⟩

theorem new_apart (n : ℕ) : Apart (newCtx n) [] :=
  ⟨fun _ h => absurd h List.not_mem_nil,fun _ h => (by cases h),fun h => by cases h⟩

theorem new_fits (n : ℕ) : Fits (newCtx n) :=
  ⟨empty_sound,fun h => (by cases h),fun h => (by cases h),fun h => by cases h⟩

theorem enter_same (k : Call) (c : Ctx) : Same c (k.enter c) := ⟨rfl,rfl,rfl,rfl,rfl⟩

theorem call_run (k : Call) (ks : List Call) (c : Ctx) (given : List ℕ) :
    runCalls (k::ks) c given = runCalls ks (k.parse c).2
      (if (k.parse c).1 = .ok then (k.parse c).2.params.map (fun a => a.value.data)++given
        else given) := by
  rw [runCalls]
  generalize k.parse c = r
  obtain ⟨rc,c'⟩ := r
  cases rc <;> rfl

theorem calls_kept (ks : List Call) (hp : Placed c) (hc : Apart c given) :
    Placed (runCalls ks c given).1 ∧ Apart (runCalls ks c given).1 (runCalls ks c given).2 ∧
      Extends c.memory (runCalls ks c given).1.memory := by
  induction ks generalizing c given with
  | nil => exact ⟨hp,hc,extends_refl _⟩
  | cons k ks ih =>
    have hp' := same_placed hp (enter_same k c) (follows_refl _) fun _ => rfl
    have hc' := same_apart hp hc (enter_same k c) (follows_refl _) fun _ => rfl
    obtain ⟨hplaced,hapart,he,hgiven⟩ := @loop_kept _ k.bufPos k.pos _ k.bytes hp' hc'
    rw [call_run]
    have hnext : Apart (k.parse c).2 (if (k.parse c).1 = .ok then
        (k.parse c).2.params.map (fun a => a.value.data)++given else given) := by
      split
      · next hok => exact hgiven hok
      · exact hapart
    obtain ⟨hplaced',hapart',he'⟩ := ih hplaced hnext
    exact ⟨hplaced',hapart',extends_trans he he'⟩

theorem calls_sound (ks : List Call) (hp : Placed c) (hc : Apart c given) (hf : Fits c) :
    Sound (runCalls ks c given).1.memory ↔ CleanCalls ks c := by
  induction ks generalizing c given with
  | nil => exact ⟨fun _ => trivial,fun _ => hf.sound⟩
  | cons k ks ih =>
    have hp' := same_placed hp (enter_same k c) (follows_refl _) fun _ => rfl
    have hc' := same_apart hp hc (enter_same k c) (follows_refl _) fun _ => rfl
    have hf' := same_fits hf (enter_same k c) (follows_refl _)
    obtain ⟨hplaced,hapart,-,hgiven⟩ := @loop_kept _ k.bufPos k.pos _ k.bytes hp' hc'
    have hnext : Apart (k.parse c).2 (if (k.parse c).1 = .ok then
        (k.parse c).2.params.map (fun a => a.value.data)++given else given) := by
      split
      · next hok => exact hgiven hok
      · exact hapart
    rw [call_run]
    constructor
    · intro hsound
      have hclean : CleanLoop k.bufPos k.pos k.bytes (k.enter c) := by
        by_contra hnot
        exact loop_outside k.bytes hp' hc' hnot (calls_kept ks hplaced hnext).2.2 hsound
      exact ⟨hclean,(ih hplaced hnext (loop_fits k.bytes hp' hf' hclean)).mp hsound⟩
    · exact fun hclean => (ih hplaced hnext (loop_fits k.bytes hp' hf' hclean.1)).mpr hclean.2

end Calls

/-- For every document and every split, all stores are in their blocks just when no dash comes
behind a name that fills its block and no escaped byte behind a value that fills its block. The
strings are in blocks of their lengths, and the block that is free for the next value, or that the
value being read has, is of no value read before, for this command or another. -/
theorem ssi_buffers (valueLen : ℕ) (ks : List Call) :
    (Sound (runCalls ks (newCtx valueLen) []).1.memory ↔ CleanCalls ks (newCtx valueLen)) ∧
      Placed (runCalls ks (newCtx valueLen) []).1 ∧
      Apart (runCalls ks (newCtx valueLen) []).1 (runCalls ks (newCtx valueLen) []).2 := by
  have hkept := calls_kept ks (new_placed valueLen) (new_apart valueLen)
  exact ⟨calls_sound ks (new_placed valueLen) (new_apart valueLen) (new_fits valueLen),
    hkept.1,hkept.2.1⟩

/-- `<!--#a bbbbbbbbbbbbbbbbbbbbbbbbbbbbbbbb-`, and `<!--#a b="1234567\xy` with values of 8 bytes,
of which both bytes behind the backslash are outside -/
theorem dash_outside :
    ¬Sound (runCalls [⟨0,0,none,none,0,
        [60,33,45,45,35,97,32]++List.replicate 32 98++[45]⟩] (newCtx 256) []).1.memory ∧
      ¬Sound (runCalls [⟨0,0,none,none,0,[60,33,45,45,35,97,32,98,61,34,49,50,51,52,
        53,54,55,92,120,121]⟩] (newCtx 8) []).1.memory := by
  constructor <;> decide

end Nginx.SsiParseLaw
