import Nginx.KernelSend
import Mathlib.Data.List.Forall2

/-!
# What the send loops deliver

Both loops hand over a prefix of the chain, each offer starting at the first byte that has
not been taken. `ngx_linux_sendfile_chain` stops when an offer is taken in part;
`ngx_writev_chain` does so only before an offer has been taken whole, because the
outcome of its test for completeness stays from one turn to the next.
-/

set_option autoImplicit false

namespace Nginx.KernelSendLaw
open Nginx.KernelSend

inductive Ends (f : Sender) : List Round → Turn → Outcome → Prop where
  | broken (t : Turn) (h : f.offer t.send t.rest = none) :
      Ends f [] t (t.chainError t.conn.error)
  | empty (t : Turn) (o : Offer) (h : f.offer t.send t.rest = some o) (hbytes : o.bytes = [])
      (hend : o.send ≥ f.limit ∨ (t.moved f 0).rest = []) :
      Ends f [] t ((t.moved f 0).returned t.conn.ready)
  | uncorked (t : Turn) (o : Offer) (k : Round) (h : f.offer t.send t.rest = some o)
      (hcork : o.cork = true) : Ends f [k] t (t.chainError true)
  | failed (t : Turn) (o : Offer) (k : Round) (conn : Connection)
      (h : f.offer t.send t.rest = some o) (hbytes : o.bytes ≠ [])
      (hready : conn.ready = t.conn.ready) (hsent : conn.sent = t.conn.sent)
      (hio : k.io = .fail) : Ends f [k] t ((t.called f conn o k.io).chainError true)
  | interrupted (t : Turn) (o : Offer) (k : Round) (ks : List Round) (conn : Connection)
      (out : Outcome) (h : f.offer t.send t.rest = some o) (hbytes : o.bytes ≠ [])
      (hready : conn.ready = t.conn.ready) (hsent : conn.sent = t.conn.sent)
      (hio : k.io = .intr) (hrest : Ends f ks (t.called f conn o k.io) out) : Ends f (k::ks) t out
  | stopped (t : Turn) (o : Offer) (k : Round) (conn : Connection)
      (h : f.offer t.send t.rest = some o) (hbytes : o.bytes ≠ [])
      (hready : conn.ready = t.conn.ready) (hsent : conn.sent = t.conn.sent)
      (hio : k.io ≠ .intr) (hcomplete : (t.called f conn o k.io).complete = false) :
      Ends f [k] t
        (((t.called f conn o k.io).moved f (k.io.taken o.bytes.length)).returned false)
  | finished (t : Turn) (o : Offer) (k : Round) (conn : Connection)
      (h : f.offer t.send t.rest = some o) (hbytes : o.bytes ≠ [])
      (hready : conn.ready = t.conn.ready) (hsent : conn.sent = t.conn.sent)
      (hio : k.io ≠ .intr) (hcomplete : (t.called f conn o k.io).complete = true) :
      Ends f [k] t
        (((t.called f conn o k.io).moved f (k.io.taken o.bytes.length)).returned conn.ready)
  | continued (t : Turn) (o : Offer) (k : Round) (ks : List Round) (conn : Connection)
      (out : Outcome) (h : f.offer t.send t.rest = some o) (hbytes : o.bytes ≠ [])
      (hready : conn.ready = t.conn.ready) (hsent : conn.sent = t.conn.sent)
      (hio : k.io ≠ .intr) (hcomplete : (t.called f conn o k.io).complete = true)
      (hrest : Ends f ks ((t.called f conn o k.io).moved f (k.io.taken o.bytes.length)) out) :
      Ends f (k::ks) t out

theorem set_cork_keeps (c c' : Connection) (k : Round) (h : setCork c k = some c') :
    c'.ready = c.ready ∧ c'.sent = c.sent := by
  rw [setCork] at h
  split_ifs at h with hset hnodelay
  · cases h
    exact ⟨rfl,rfl⟩
  · obtain ⟨c1,h1,h2⟩ := Option.bind_eq_some_iff.mp h
    have hfirst : c1.ready = c.ready ∧ c1.sent = c.sent := by
      cases hk : k.nodelay <;> rw [hk] at h1 <;> cases h1 <;> exact ⟨rfl,rfl⟩
    split_ifs at h2
    · cases hk : k.nopush <;> rw [hk] at h2 <;> cases h2 <;> exact hfirst
    · cases h2
      exact hfirst
  · obtain ⟨c1,h1,h2⟩ := Option.bind_eq_some_iff.mp h
    cases h1
    split_ifs at h2
    · cases hk : k.nopush <;> rw [hk] at h2 <;> cases h2 <;> exact ⟨rfl,rfl⟩
    · cases h2
      exact ⟨rfl,rfl⟩

variable (f : Sender) (ks : List Round) (t : Turn)

theorem send_loop_ends (out : Outcome) (h : sendLoop f ks t = some out) : Ends f ks t out := by
  induction ks generalizing t with
  | nil =>
    rw [sendLoop] at h
    cases hoffer : f.offer t.send t.rest with
    | none =>
      rw [hoffer] at h
      cases h
      exact Ends.broken t hoffer
    | some o =>
      simp only [hoffer] at h
      split_ifs at h with hend
      cases h
      exact Ends.empty t o hoffer hend.1 hend.2
  | cons k ks ih =>
    rw [sendLoop] at h
    cases hoffer : f.offer t.send t.rest with
    | none =>
      rw [hoffer] at h
      cases h
    | some o =>
      simp only [hoffer] at h
      by_cases hbytes : o.bytes = []
      · rw [if_pos hbytes] at h
        cases h
      rw [if_neg hbytes] at h
      have hkeeps : ∀ conn, (if o.cork = true then setCork t.conn k else some t.conn) = some conn →
          conn.ready = t.conn.ready ∧ conn.sent = t.conn.sent := by
        intro conn hconn
        split_ifs at hconn
        · exact set_cork_keeps _ _ k hconn
        · cases hconn
          exact ⟨rfl,rfl⟩
      cases hconn : (if o.cork = true then setCork t.conn k else some t.conn) with
      | none =>
        simp only [hconn] at h
        split_ifs at h with hks
        cases h
        subst hks
        have hcork : o.cork = true := by
          by_contra hcork
          rw [if_neg hcork] at hconn
          cases hconn
        exact Ends.uncorked t o k hoffer hcork
      | some conn =>
        obtain ⟨hready,hsent⟩ := hkeeps conn hconn
        simp only [hconn] at h
        by_cases hfail : k.io = .fail
        · rw [if_pos hfail] at h
          split_ifs at h with hks
          cases h
          subst hks
          exact Ends.failed t o k conn hoffer hbytes hready hsent hfail
        rw [if_neg hfail] at h
        by_cases hintr : k.io = .intr
        · rw [if_pos hintr] at h
          exact Ends.interrupted t o k ks conn out hoffer hbytes hready hsent hintr (ih _ h)
        rw [if_neg hintr] at h
        by_cases hcomplete : ((t.called f conn o k.io).moved f
            (k.io.taken o.bytes.length)).complete = false
        · rw [if_pos hcomplete] at h
          split_ifs at h with hks
          cases h
          subst hks
          exact Ends.stopped t o k conn hoffer hbytes hready hsent hintr hcomplete
        rw [if_neg hcomplete] at h
        rw [Bool.not_eq_false] at hcomplete
        by_cases hend : ((t.called f conn o k.io).moved f
            (k.io.taken o.bytes.length)).send ≥ f.limit ∨
            ((t.called f conn o k.io).moved f (k.io.taken o.bytes.length)).rest = []
        · rw [if_pos hend] at h
          split_ifs at h with hks
          cases h
          subst hks
          exact Ends.finished t o k conn hoffer hbytes hready hsent hintr hcomplete
        rw [if_neg hend] at h
        exact Ends.continued t o k ks conn out hoffer hbytes hready hsent hintr hcomplete
          (ih _ h)

/-- A buffer whose positions have moved on, that in the file only where `files` are sent. -/
structure Moved (files : Bool) (b b' : Buf) : Prop where
  same : b' = { b with pos := b'.pos, filePos := b'.filePos }
  pos : b.pos ≤ b'.pos
  filePos : b.filePos ≤ b'.filePos
  memory : ngxBufInMemory b = false → b'.pos = b.pos
  file : (files && b.inFile) = false → b'.filePos = b.filePos
  together : ngxBufInMemory b = true → (files && b.inFile) = true →
    b'.pos-b.pos = b'.filePos-b.filePos

variable (files : Bool)

theorem moved_refl (b : Buf) : Moved files b b :=
  ⟨rfl,Nat.le_refl _,Nat.le_refl _,fun _ => rfl,fun _ => rfl,fun _ _ => by omega⟩

theorem moved_trans (a b c : Buf) (h : Moved files a b) (h' : Moved files b c) :
    Moved files a c := by
  have hmemory : ngxBufInMemory b = ngxBufInMemory a := by
    rw [h.same]
    rfl
  have hfile : b.inFile = a.inFile := by
    rw [h.same]
  refine ⟨?_,Nat.le_trans h.pos h'.pos,Nat.le_trans h.filePos h'.filePos,fun hm => ?_,
    fun hf => ?_,fun hm hf => ?_⟩
  · rw [h'.same, h.same]
  · rw [h'.memory (hmemory.trans hm), h.memory hm]
  · rw [h'.file (by rw [hfile]; exact hf), h.file hf]
  · have hfirst := h.together hm hf
    have hsecond := h'.together (hmemory.trans hm) (by rw [hfile]; exact hf)
    have := h.pos
    have := h.filePos
    have := h'.pos
    have := h'.filePos
    omega

theorem moved_forall_refl (bs : List Buf) : List.Forall₂ (Moved files) bs bs :=
  List.forall₂_same.mpr (fun b _ => moved_refl files b)

theorem move_forall (chain gone rest rest' : List Buf)
    (h : List.Forall₂ (Moved files) chain (gone++rest)) (h' : List.Forall₂ (Moved files) rest rest') :
    List.Forall₂ (Moved files) chain (gone++rest') := by
  induction gone generalizing chain with
  | nil =>
    rw [List.nil_append] at h ⊢
    induction h' generalizing chain with
    | nil => exact h
    | cons hb _ ih =>
      cases h with
      | cons ha hrest => exact List.Forall₂.cons (moved_trans files _ _ _ ha hb) (ih _ hrest)
  | cons g gone ih =>
    cases h with
    | cons ha hrest => exact List.Forall₂.cons ha (ih _ hrest)

def total (calls : List Call) : ℕ := (calls.map Call.taken).sum

theorem total_append (calls : List Call) (c : Call) : total (calls++[c]) = total calls+c.taken := by
  simp [total]

/-- What a sender's offers and moves do to the bytes of a proper chain. -/
structure Lawful (f : Sender) (files : Bool) (payload : Buf → List ℕ) (Proper : Buf → Prop)
    (cap : ℕ) : Prop where
  offer : ∀ send chain, (∀ b ∈ chain, Proper b) → send ≤ cap → ∃ o, f.offer send chain = some o ∧
    o.bytes = (chain.flatMap payload).take o.bytes.length ∧ o.send = send+o.bytes.length ∧
    o.send ≤ cap ∧ (o.bytes = [] → chain.flatMap payload = [] ∨ f.limit ≤ o.send)
  move : ∀ n chain, (∀ b ∈ chain, Proper b) → n ≤ (chain.flatMap payload).length →
    List.Forall₂ (Moved files) chain ((f.move n chain).1++(f.move n chain).2) ∧
    (f.move n chain).1.flatMap payload = [] ∧
    (f.move n chain).2.flatMap payload = (chain.flatMap payload).drop n ∧
    (∀ b ∈ (f.move n chain).2, Proper b) ∧ ∀ b ∈ (f.move n chain).2.head?, payload b ≠ []

/-- Each offer starts at the first byte that has not been taken, and no more is taken. -/
def Offers (bytes : List ℕ) (calls : List Call) : Prop :=
  ∀ pre c post, calls = pre++c::post → c.taken ≤ c.offered.length ∧
    c.offered = (bytes.drop (total pre)).take c.offered.length

def taken (calls : List Call) : List ℕ := calls.flatMap (fun c => c.offered.take c.taken)

structure Delivered (files : Bool) (payload : Buf → List ℕ) (cap : ℕ) (c : Connection)
    (chain : List Buf) (o : Outcome) : Prop where
  offers : Offers (chain.flatMap payload) o.calls
  taken : KernelSendLaw.taken o.calls = (chain.flatMap payload).take (total o.calls)
  within : total o.calls ≤ (chain.flatMap payload).length
  moved : List.Forall₂ (Moved files) chain o.chain
  left : o.chain.flatMap payload = (chain.flatMap payload).drop (total o.calls)
  result : ∀ rest, o.result = some rest → ∃ gone, o.chain = gone++rest ∧ gone.flatMap payload = []
  first : c.ready = true → ∀ rest, o.result = some rest → ∀ b ∈ rest.head?, payload b ≠ []
  limit : total o.calls ≤ cap
  sent : o.conn.sent = c.sent+total o.calls

structure At (files : Bool) (payload : Buf → List ℕ) (Proper : Buf → Prop) (cap : ℕ)
    (c : Connection) (chain : List Buf) (t : Turn) : Prop where
  offers : Offers (chain.flatMap payload) t.calls
  taken : KernelSendLaw.taken t.calls = (chain.flatMap payload).take (total t.calls)
  within : total t.calls ≤ (chain.flatMap payload).length
  moved : List.Forall₂ (Moved files) chain (t.gone++t.rest)
  gone : t.gone.flatMap payload = []
  rest : t.rest.flatMap payload = (chain.flatMap payload).drop (total t.calls)
  proper : ∀ b ∈ t.rest, Proper b
  counted : total t.calls ≤ t.send
  limit : t.send ≤ cap
  sent : t.conn.sent = c.sent+total t.calls

section Loop
variable (f : Sender) (files : Bool) (payload : Buf → List ℕ) (Proper : Buf → Prop) (cap : ℕ)
  (c : Connection) (chain : List Buf) (t : Turn)

variable (a : Answer)

theorem taken_le (n : ℕ) : a.taken n ≤ n := by
  cases a <;> simp only [Answer.taken] <;> omega

theorem offers_snoc (bytes : List ℕ) (calls : List Call) (x : Call) (h : Offers bytes calls)
    (hx : x.taken ≤ x.offered.length)
    (hbytes : x.offered = (bytes.drop (total calls)).take x.offered.length) :
    Offers bytes (calls++[x]) := by
  intro pre y post heq
  rcases List.eq_nil_or_concat post with rfl | ⟨post',z,rfl⟩
  · obtain ⟨rfl,hy⟩ := List.append_inj' heq rfl
    cases hy
    exact ⟨hx,hbytes⟩
  have heq' : calls++[x] = (pre++y::post')++[z] := by
    rw [heq]
    simp
  obtain ⟨rfl,-⟩ := List.append_inj' heq' rfl
  exact h pre y post' rfl

theorem called_spec (h : At files payload Proper cap c chain t) (hf : Lawful f files payload Proper cap)
    (conn : Connection) (o : Offer) (a : Answer) (ho : f.offer t.send t.rest = some o)
    (hsent : conn.sent = t.conn.sent) :
    Offers (chain.flatMap payload) (t.called f conn o a).calls ∧
      taken (t.called f conn o a).calls =
        (chain.flatMap payload).take (total (t.called f conn o a).calls) ∧
      total (t.called f conn o a).calls = total t.calls+a.taken o.bytes.length ∧
      a.taken o.bytes.length ≤ (t.rest.flatMap payload).length ∧
      total (t.called f conn o a).calls ≤ (chain.flatMap payload).length ∧
      total (t.called f conn o a).calls ≤ o.send ∧ o.send ≤ cap ∧
      (t.called f conn o a).conn.sent = c.sent+total (t.called f conn o a).calls := by
  obtain ⟨o',ho',hbytes,hsend,hcap,-⟩ := hf.offer t.send t.rest h.proper h.limit
  rw [ho] at ho'
  cases ho'
  have hle := taken_le a o.bytes.length
  have htotal : total (t.called f conn o a).calls = total t.calls+a.taken o.bytes.length :=
    total_append t.calls _
  have hrest := h.rest
  have hlen : o.bytes.length ≤ (t.rest.flatMap payload).length := by
    rw [hbytes, List.length_take]
    exact Nat.min_le_right _ _
  have hdrop : (t.rest.flatMap payload).length = (chain.flatMap payload).length-total t.calls := by
    rw [hrest, List.length_drop]
  have hwithin := h.within
  have hcounted := h.counted
  have hconn : (t.called f conn o a).conn.sent = conn.sent+a.taken o.bytes.length := rfl
  have hsent' := h.sent
  rw [htotal]
  refine ⟨offers_snoc _ t.calls _ h.offers hle (by rw [← hrest]; exact hbytes),?_,rfl,by omega,
    by omega,by omega,hcap,by omega⟩
  have hcalls : taken (t.called f conn o a).calls =
      taken t.calls++o.bytes.take (a.taken o.bytes.length) := by
    show taken (t.calls++[_]) = _
    simp [taken]
  have hfront : o.bytes.take (a.taken o.bytes.length) =
      ((chain.flatMap payload).drop (total t.calls)).take (a.taken o.bytes.length) := by
    generalize a.taken o.bytes.length = n at hle
    rw [hbytes, List.take_take, Nat.min_eq_left hle, hrest]
  rw [hcalls, h.taken, List.take_add, hfront]

theorem at_called (h : At files payload Proper cap c chain t) (hf : Lawful f files payload Proper cap)
    (conn : Connection) (o : Offer) (a : Answer) (ho : f.offer t.send t.rest = some o)
    (hsent : conn.sent = t.conn.sent) (ha : a.taken o.bytes.length = 0) :
    At files payload Proper cap c chain (t.called f conn o a) := by
  obtain ⟨hoffers,htaken,htotal,-,hwithin,hcounted,hcap,hconn⟩ :=
    called_spec f files payload Proper cap c chain t h hf conn o a ho hsent
  refine ⟨hoffers,htaken,hwithin,h.moved,h.gone,?_,h.proper,hcounted,hcap,hconn⟩
  rw [htotal, ha, Nat.add_zero]
  exact h.rest

theorem at_moved (h : At files payload Proper cap c chain t) (hf : Lawful f files payload Proper cap)
    (conn : Connection) (o : Offer) (a : Answer) (ho : f.offer t.send t.rest = some o)
    (hsent : conn.sent = t.conn.sent) :
    At files payload Proper cap c chain ((t.called f conn o a).moved f (a.taken o.bytes.length)) ∧
      ∀ b ∈ ((t.called f conn o a).moved f (a.taken o.bytes.length)).rest.head?,
        payload b ≠ [] := by
  obtain ⟨hoffers,htaken,htotal,hn,hwithin,hcounted,hcap,hconn⟩ :=
    called_spec f files payload Proper cap c chain t h hf conn o a ho hsent
  obtain ⟨hmoved,hgone,hleft,hproper,hfirst⟩ := hf.move _ t.rest h.proper hn
  refine ⟨⟨hoffers,htaken,hwithin,?_,?_,?_,hproper,hcounted,hcap,hconn⟩,hfirst⟩
  · show List.Forall₂ (Moved files) chain (t.gone++(f.move _ t.rest).1++(f.move _ t.rest).2)
    rw [List.append_assoc]
    exact move_forall files chain t.gone t.rest _ h.moved hmoved
  · show (t.gone++(f.move _ t.rest).1).flatMap payload = []
    rw [List.flatMap_append, h.gone, hgone]
    rfl
  · show (f.move _ t.rest).2.flatMap payload =
      (chain.flatMap payload).drop (total (t.called f conn o a).calls)
    rw [hleft, h.rest, List.drop_drop, htotal]

theorem at_unmoved (h : At files payload Proper cap c chain t)
    (hf : Lawful f files payload Proper cap) :
    At files payload Proper cap c chain (t.moved f 0) ∧
      ∀ b ∈ (t.moved f 0).rest.head?, payload b ≠ [] := by
  obtain ⟨hmoved,hgone,hleft,hproper,hfirst⟩ := hf.move 0 t.rest h.proper (Nat.zero_le _)
  refine ⟨⟨h.offers,h.taken,h.within,?_,?_,?_,hproper,h.counted,h.limit,h.sent⟩,hfirst⟩
  · show List.Forall₂ (Moved files) chain (t.gone++(f.move 0 t.rest).1++(f.move 0 t.rest).2)
    rw [List.append_assoc]
    exact move_forall files chain t.gone t.rest _ h.moved hmoved
  · show (t.gone++(f.move 0 t.rest).1).flatMap payload = []
    rw [List.flatMap_append, h.gone, hgone]
    rfl
  · show (f.move 0 t.rest).2.flatMap payload = _
    rw [hleft, List.drop_zero]
    exact h.rest

theorem at_left (h : At files payload Proper cap c chain t) :
    (t.gone++t.rest).flatMap payload = (chain.flatMap payload).drop (total t.calls) := by
  rw [List.flatMap_append, h.gone, List.nil_append]
  exact h.rest

theorem delivered_returned (h : At files payload Proper cap c chain t) (ready : Bool)
    (hfirst : ∀ b ∈ t.rest.head?, payload b ≠ []) :
    Delivered files payload cap c chain (t.returned ready) := by
  refine ⟨h.offers,h.taken,h.within,h.moved,
    at_left files payload Proper cap c chain t h,fun rest hrest => ?_,fun _ rest hrest => ?_,
    Nat.le_trans h.counted h.limit,h.sent⟩
  · cases hrest
    exact ⟨t.gone,rfl,h.gone⟩
  · cases hrest
    exact hfirst

theorem delivered_chain_error (h : At files payload Proper cap c chain t) (error : Bool) :
    Delivered files payload cap c chain (t.chainError error) :=
  ⟨h.offers,h.taken,h.within,h.moved,at_left files payload Proper cap c chain t h,nofun,
    fun _ => nofun,Nat.le_trans h.counted h.limit,h.sent⟩

end Loop

theorem ends_delivered (payload : Buf → List ℕ) (Proper : Buf → Prop) (cap : ℕ) (c : Connection)
    (chain : List Buf) (hf : Lawful f files payload Proper cap) (ks : List Round) (t : Turn)
    (out : Outcome) (hends : Ends f ks t out) (h : At files payload Proper cap c chain t) :
    Delivered files payload cap c chain out := by
  induction hends with
  | broken t hoffer =>
    obtain ⟨o,ho,-⟩ := hf.offer t.send t.rest h.proper h.limit
    rw [hoffer] at ho
    cases ho
  | empty t o hoffer hbytes hend =>
    obtain ⟨hat,hfirst⟩ := at_unmoved f files payload Proper cap c chain t h hf
    exact delivered_returned files payload Proper cap c chain _ hat _ hfirst
  | uncorked t o k hoffer hcork => exact delivered_chain_error files payload Proper cap c chain t h _
  | failed t o k conn hoffer hbytes hready hsent hio =>
    have hat := at_called f files payload Proper cap c chain t h hf conn o k.io hoffer hsent
      (by rw [hio]; rfl)
    exact delivered_chain_error files payload Proper cap c chain _ hat _
  | interrupted t o k ks conn out hoffer hbytes hready hsent hio hrest ih =>
    exact ih (at_called f files payload Proper cap c chain t h hf conn o k.io hoffer hsent
      (by rw [hio]; rfl))
  | stopped t o k conn hoffer hbytes hready hsent hio hcomplete =>
    obtain ⟨hat,hfirst⟩ :=
      at_moved f files payload Proper cap c chain t h hf conn o k.io hoffer hsent
    exact delivered_returned files payload Proper cap c chain _ hat _ hfirst
  | finished t o k conn hoffer hbytes hready hsent hio hcomplete =>
    obtain ⟨hat,hfirst⟩ :=
      at_moved f files payload Proper cap c chain t h hf conn o k.io hoffer hsent
    exact delivered_returned files payload Proper cap c chain _ hat _ hfirst
  | continued t o k ks conn out hoffer hbytes hready hsent hio hcomplete hrest ih =>
    exact ih (at_moved f files payload Proper cap c chain t h hf conn o k.io hoffer hsent).1

theorem send_loop_returns (payload : Buf → List ℕ) (Proper : Buf → Prop) (cap : ℕ) (c : Connection)
    (chain : List Buf) (hf : Lawful f files payload Proper cap) (ks : List Round) (t : Turn)
    (h : At files payload Proper cap c chain t) (hks : cap-t.send < ks.length) :
    ∃ n, (sendLoop f (ks.take n) t).isSome := by
  induction ks generalizing t with
  | nil => exact absurd hks (Nat.not_lt_zero _)
  | cons k ks ih =>
    obtain ⟨o,ho,-,hsend,hcap,hempty⟩ := hf.offer t.send t.rest h.proper h.limit
    by_cases hbytes : o.bytes = []
    · have hend : o.send ≥ f.limit ∨ (t.moved f 0).rest = [] := by
        rcases hempty hbytes with hrest | hlimit
        · right
          obtain ⟨-,-,hleft,-,hfirst⟩ := hf.move 0 t.rest h.proper (Nat.zero_le _)
          have hnil : (f.move 0 t.rest).2.flatMap payload = [] := by
            rw [hleft, hrest]
            rfl
          show (f.move 0 t.rest).2 = []
          rcases hmoved : (f.move 0 t.rest).2 with _ | ⟨b,bs⟩
          · rfl
          rw [hmoved] at hnil hfirst
          rw [List.flatMap_cons] at hnil
          exact absurd (List.append_eq_nil_iff.mp hnil).1 (hfirst b rfl)
        · exact Or.inl hlimit
      refine ⟨0,?_⟩
      rw [List.take_zero, sendLoop, ho]
      simp only [hbytes, hend, and_self, if_true, Option.isSome_some]
    have hmore : t.send < o.send := by
      have := List.length_pos_iff.mpr hbytes
      omega
    have hlength : cap-o.send < ks.length := by
      rw [List.length_cons] at hks
      omega
    cases hconn : (if o.cork = true then setCork t.conn k else some t.conn) with
    | none =>
      refine ⟨1,?_⟩
      show (sendLoop f [k] t).isSome
      rw [sendLoop]
      simp [ho, hbytes, hconn]
    | some conn =>
      have hsent : conn.sent = t.conn.sent := by
        split_ifs at hconn
        · exact (set_cork_keeps _ _ k hconn).2
        · cases hconn
          rfl
      by_cases hfail : k.io = .fail
      · refine ⟨1,?_⟩
        show (sendLoop f [k] t).isSome
        rw [sendLoop]
        simp [ho, hbytes, hconn, hfail]
      by_cases hintr : k.io = .intr
      · obtain ⟨n,hn⟩ := ih (t.called f conn o k.io)
          (at_called f files payload Proper cap c chain t h hf conn o k.io ho hsent
            (by rw [hintr]; rfl)) hlength
        refine ⟨n+1,?_⟩
        rw [List.take_succ_cons, sendLoop]
        simp only [ho, if_neg hbytes, hconn, if_neg hfail, if_pos hintr]
        exact hn
      by_cases hcomplete : ((t.called f conn o k.io).moved f
          (k.io.taken o.bytes.length)).complete = false
      · refine ⟨1,?_⟩
        show (sendLoop f [k] t).isSome
        rw [sendLoop]
        simp only [ho, if_neg hbytes, hconn, if_neg hfail, if_neg hintr, if_pos hcomplete,
          if_true, Option.isSome_some]
      by_cases hend : ((t.called f conn o k.io).moved f
          (k.io.taken o.bytes.length)).send ≥ f.limit ∨
          ((t.called f conn o k.io).moved f (k.io.taken o.bytes.length)).rest = []
      · refine ⟨1,?_⟩
        show (sendLoop f [k] t).isSome
        rw [sendLoop]
        simp only [ho, if_neg hbytes, hconn, if_neg hfail, if_neg hintr,
          if_neg hcomplete, if_pos hend, if_true, Option.isSome_some]
      obtain ⟨n,hn⟩ := ih _ (at_moved f files payload Proper cap c chain t h hf conn o
        k.io ho hsent).1 hlength
      refine ⟨n+1,?_⟩
      rw [List.take_succ_cons, sendLoop]
      simp only [ho, if_neg hbytes, hconn, if_neg hfail, if_neg hintr,
        if_neg hcomplete, if_neg hend]
      exact hn

/-- Behind an offer that was not taken whole nothing is offered, and the function returns
with the connection not ready. -/
structure Halts (calls : List Call) (o : Outcome) : Prop where
  last : calls.Pairwise (fun x _ => x.answer.short = false)
  stopped : ∀ x ∈ calls, x.answer.short = true → o.conn.ready = false ∧ o.result ≠ none

/-- No answer takes less than the offer behind one that takes all of it. -/
def Steady (ks : List Round) : Prop :=
  ks.Pairwise (fun k j => k.io = .whole → j.io.short = false)

theorem halts_cons (x : Call) (calls : List Call) (o : Outcome) :
    Halts (x::calls) o ↔ (x.answer.short = true → calls = [] ∧ o.conn.ready = false ∧
      o.result ≠ none) ∧ Halts calls o := by
  constructor
  · intro h
    obtain ⟨hlast,hcalls⟩ := List.pairwise_cons.mp h.last
    refine ⟨fun hx => ⟨?_,h.stopped x List.mem_cons_self hx⟩,hcalls,
      fun y hy => h.stopped y (List.mem_cons_of_mem x hy)⟩
    rcases calls with _ | ⟨y,calls⟩
    · rfl
    · exact absurd (hlast y List.mem_cons_self) (by simp [hx])
  · rintro ⟨hx,h⟩
    refine ⟨List.pairwise_cons.mpr ⟨fun y hy => ?_,h.last⟩,fun y hy hshort => ?_⟩
    · by_contra hshort
      rw [Bool.not_eq_false] at hshort
      rw [(hx hshort).1] at hy
      cases hy
    · rcases List.mem_cons.mp hy with rfl | hy
      · exact (hx hshort).2
      · exact h.stopped y hy hshort

theorem halts_nil (o : Outcome) : Halts [] o := ⟨List.Pairwise.nil,nofun⟩

variable (conn : Connection) (o : Offer) (a : Answer)

theorem called_complete (hbytes : o.bytes ≠ []) :
    (t.called f conn o a).complete = true ↔ a = .whole ∨ (f.sticky = true ∧ t.complete = true) := by
  have hpos := List.length_pos_iff.mpr hbytes
  show (if _ then true else _) = true ↔ _
  have hwhole : a.taken o.bytes.length = o.bytes.length ↔ a = .whole := by
    cases a <;> simp [Answer.taken] <;> omega
  by_cases h : a = .whole
  · subst h
    simp [Answer.taken]
  · simp [mt hwhole.mp h, h]

theorem ends_halts
    (hcork : f.sticky = true → ∀ send chain o, f.offer send chain = some o → o.cork = false)
    (ks : List Round) (t : Turn) (out : Outcome) (hends : Ends f ks t out)
    (hready : t.conn.ready = true) :
    ∃ calls, out.calls = t.calls++calls ∧
      (calls = [] → out.conn.ready = true ∨ out.result = none) ∧
      (Halts calls out ↔ (f.sticky = true →
        (t.complete = true → ∀ k ∈ ks, k.io.short = false) ∧ Steady ks)) := by
  induction hends with
  | broken t hoffer =>
    exact ⟨[],(List.append_nil _).symm,fun _ => Or.inr rfl,
      iff_of_true (halts_nil _) (fun _ => ⟨fun _ => nofun,List.Pairwise.nil⟩)⟩
  | empty t o hoffer hbytes hend =>
    exact ⟨[],(List.append_nil _).symm,fun _ => Or.inl hready,
      iff_of_true (halts_nil _) (fun _ => ⟨fun _ => nofun,List.Pairwise.nil⟩)⟩
  | uncorked t o k hoffer hset =>
    refine ⟨[],(List.append_nil _).symm,fun _ => Or.inr rfl,
      iff_of_true (halts_nil _) (fun hsticky => ?_)⟩
    have := hcork hsticky _ _ _ hoffer
    rw [hset] at this
    cases this
  | failed t o k conn hoffer hbytes hconn hsent hio =>
    refine ⟨[_],rfl,nofun,iff_of_true ((halts_cons _ [] _).mpr ⟨?_,halts_nil _⟩)
      (fun _ => ⟨fun _ j hj => ?_,List.pairwise_singleton _ _⟩)⟩
    · intro hshort
      have : k.io.short = true := hshort
      rw [hio] at this
      cases this
    · rw [List.mem_singleton.mp hj, hio]
      rfl
  | interrupted t o k ks conn out hoffer hbytes hconn hsent hio hrest ih =>
    obtain ⟨calls,hcalls,hnil,hiff⟩ := ih (hconn.trans hready)
    have hshort : k.io.short = false := by
      rw [hio]
      rfl
    have hcomplete := called_complete f t conn o k.io hbytes
    refine ⟨_::calls,by rw [hcalls]; exact List.append_assoc _ [_] calls,nofun,?_⟩
    rw [halts_cons, hiff]
    constructor
    · rintro ⟨-,h⟩ hsticky
      obtain ⟨hall,hsteady⟩ := h hsticky
      refine ⟨fun ht j hj => ?_,List.pairwise_cons.mpr ⟨?_,hsteady⟩⟩
      · rcases List.mem_cons.mp hj with rfl | hj
        · exact hshort
        · exact hall (hcomplete.mpr (Or.inr ⟨hsticky,ht⟩)) j hj
      · intro j _ hwhole
        rw [hio] at hwhole
        cases hwhole
    · intro h
      refine ⟨fun hx => absurd hx (by simp [hshort]),fun hsticky => ?_⟩
      obtain ⟨hall,hsteady⟩ := h hsticky
      refine ⟨fun ht j hj => ?_,(List.pairwise_cons.mp hsteady).2⟩
      rcases hcomplete.mp ht with hwhole | ⟨-,ht'⟩
      · rw [hio] at hwhole
        cases hwhole
      · exact hall ht' j (List.mem_cons_of_mem k hj)
  | stopped t o k conn hoffer hbytes hconn hsent hio hcomplete =>
    refine ⟨[_],rfl,nofun,iff_of_true ((halts_cons _ [] _).mpr ⟨fun _ => ⟨rfl,rfl,?_⟩,
      halts_nil _⟩) (fun hsticky => ⟨fun ht => ?_,List.pairwise_singleton _ _⟩)⟩
    · exact Option.some_ne_none _
    · have := (called_complete f t conn o k.io hbytes).mpr (Or.inr ⟨hsticky,ht⟩)
      rw [hcomplete] at this
      cases this
  | finished t o k conn hoffer hbytes hconn hsent hio hcomplete =>
    refine ⟨[_],rfl,nofun,?_⟩
    rw [halts_cons]
    constructor
    · rintro ⟨h,-⟩ hsticky
      refine ⟨fun _ j hj => ?_,List.pairwise_singleton _ _⟩
      rw [List.mem_singleton.mp hj]
      by_contra hshort
      rw [Bool.not_eq_false] at hshort
      have hstopped : conn.ready = false := (h hshort).2.1
      rw [hconn, hready] at hstopped
      cases hstopped
    · intro h
      refine ⟨fun hshort => ?_,halts_nil _⟩
      have hshort' : k.io.short = true := hshort
      rcases (called_complete f t conn o k.io hbytes).mp hcomplete with hwhole | ⟨hsticky,ht⟩
      · rw [hwhole] at hshort'
        cases hshort'
      · rw [(h hsticky).1 ht k List.mem_cons_self] at hshort'
        cases hshort'
  | continued t o k ks conn out hoffer hbytes hconn hsent hio hcomplete hrest ih =>
    obtain ⟨calls,hcalls,hnil,hiff⟩ := ih (hconn.trans hready)
    refine ⟨_::calls,by rw [hcalls]; exact List.append_assoc _ [_] calls,nofun,?_⟩
    rw [halts_cons, hiff]
    constructor
    · rintro ⟨hx,h⟩ hsticky
      obtain ⟨hall,hsteady⟩ := h hsticky
      refine ⟨fun ht j hj => ?_,List.pairwise_cons.mpr ⟨fun j hj _ => hall hcomplete j hj,
        hsteady⟩⟩
      rcases List.mem_cons.mp hj with rfl | hj
      · by_contra hshort
        rw [Bool.not_eq_false] at hshort
        obtain ⟨hcalls',hstopped,hresult⟩ := hx hshort
        rcases hnil hcalls' with hgone | hgone
        · rw [hstopped] at hgone
          cases hgone
        · exact hresult hgone
      · exact hall hcomplete j hj
    · intro h
      rcases (called_complete f t conn o k.io hbytes).mp hcomplete with hwhole | ⟨hsticky,ht⟩
      · refine ⟨fun hshort => ?_,fun hsticky => ?_⟩
        · have hshort' : k.io.short = true := hshort
          rw [hwhole] at hshort'
          cases hshort'
        · obtain ⟨hlater,hsteady⟩ := List.pairwise_cons.mp (h hsticky).2
          exact ⟨fun _ j hj => hlater j hj hwhole,hsteady⟩
      obtain ⟨hall,hsteady⟩ := h hsticky
      refine ⟨fun hshort => ?_,fun _ => ⟨fun _ j hj => hall ht j (List.mem_cons_of_mem k hj),
        (List.pairwise_cons.mp hsteady).2⟩⟩
      have hshort' : k.io.short = true := hshort
      rw [hall ht k List.mem_cons_self] at hshort'
      cases hshort'

end Nginx.KernelSendLaw
