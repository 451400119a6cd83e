import Mathlib.Algebra.Order.Ring.Nat
import Nginx.LinkedRing

/-!
# The search for a query that a name server could not read

The nodes whose queries are to be sent again are on a ring whose head is a part of the
resolver. The loop takes the address of a ring element as the place of a node, also when it
is the head: `query` then gives what is read through the bytes around it.
-/

set_option autoImplicit false

namespace Nginx.FormErrScan
open LinkedRing

variable {α : Type} [DecidableEq α]

def qident (query : α → ℕ → UInt8) (q : α) : ℕ := (query q 0).toNat*2^8+(query q 1).toNat

/-- The elements that the loop has taken for nodes, and the one it has logged. -/
structure Answer (α : Type) where
  visited : List α
  reported : Option α
  deriving DecidableEq, Repr

/-- The loop of `ngx_resolver_process_response` for a response with the code 1. -/
def formErrLoop (m : Links α) (queue : α) (query : α → ℕ → UInt8) (ident : ℕ) :
    ℕ → α → ℕ → Option (Answer α)
  | 0, _, _ => none
  | fuel+1, q, times =>
    if q ≠ queue ∨ times < 100 then
      let times := if q ≠ queue then times else times+1
      if qident query q = ident then some ⟨[q],some q⟩
      else (formErrLoop m queue query ident fuel (m.next q) times).map
        (fun a => { a with visited := q::a.visited })
    else some ⟨[],none⟩

def formErrScan (m : Links α) (queue : α) (query : α → ℕ → UInt8) (ident fuel : ℕ) :
    Option (Answer α) :=
  formErrLoop m queue query ident fuel (m.next queue) 0

/-- The loop ends, has looked at nodes only, and reports a node with the ident of the
response exactly when one is queued. -/
structure Meets (l : List α) (query : α → ℕ → UInt8) (ident : ℕ) (a : Answer α) : Prop where
  visited : ∀ q ∈ a.visited, q ∈ l
  reported : ∀ q, a.reported = some q → q ∈ l ∧ qident query q = ident
  found : a.reported.isSome ↔ ∃ q ∈ l, qident query q = ident

section Loop
variable (m : Links α) (queue : α) (query : α → ℕ → UInt8) (ident : ℕ)

theorem loop_node (fuel times : ℕ) (q : α) (hq : q ≠ queue) :
    formErrLoop m queue query ident (fuel+1) q times =
      if qident query q = ident then some ⟨[q],some q⟩
      else (formErrLoop m queue query ident fuel (m.next q) times).map
        (fun a => { a with visited := q::a.visited }) := by
  rw [formErrLoop, if_pos (Or.inl hq)]
  simp only [if_pos hq]

theorem loop_head (fuel times : ℕ) :
    formErrLoop m queue query ident (fuel+1) queue times =
      if times < 100 then
        if qident query queue = ident then some ⟨[queue],some queue⟩
        else (formErrLoop m queue query ident fuel (m.next queue) (times+1)).map
          (fun a => { a with visited := queue::a.visited })
      else some ⟨[],none⟩ := by
  rw [formErrLoop]
  simp only [ne_eq, not_true_eq_false, false_or, if_false]

/-- The place of a cursor on the ring, with what is before it and from it on. -/
structure At (l passed rest : List α) (q : α) : Prop where
  ring : Looped m queue l
  split : l = passed++rest
  cursor : (rest++[queue]).head? = some q

omit [DecidableEq α] in
theorem at_start (l : List α) (hring : Looped m queue l) : At m queue l [] l (m.next queue) := by
  refine ⟨hring,rfl,?_⟩
  cases l with
  | nil => rw [(ring_empty m queue hring).1]; rfl
  | cons x l => rw [(ring_first m queue x l hring).1]; rfl

omit [DecidableEq α] in
theorem at_head (l passed : List α) (q : α) (h : At m queue l passed [] q) : q = queue := by
  have hq := h.cursor
  rw [List.nil_append, List.head?_cons, Option.some.injEq] at hq
  exact hq.symm

omit [DecidableEq α] in
theorem at_node (l passed rest : List α) (x q : α) (h : At m queue l passed (x::rest) q) :
    q = x ∧ q ≠ queue ∧ At m queue l (passed++[x]) rest (m.next q) := by
  have hq := h.cursor
  rw [List.cons_append, List.head?_cons, Option.some.injEq] at hq
  subst hq
  refine ⟨rfl,?_,h.ring,by rw [h.split]; simp,?_⟩
  · rintro rfl
    have hnot := (List.nodup_cons.mp h.ring.nodup).1
    rw [h.split] at hnot
    exact hnot (by simp)
  · obtain ⟨next,hnext⟩ : ∃ next, (rest++[queue]).head? = some next :=
      Option.ne_none_iff_exists'.mp (by simp)
    obtain ⟨tail,htail⟩ := List.head?_eq_some_iff.mp hnext
    have hlink := ring_link m queue x next l (queue::passed) tail h.ring (by
      rw [h.split, ← htail]
      simp)
    rw [hlink.1, hnext]

theorem loop_ends (l passed rest : List α) (q : α) (fuel times : ℕ)
    (h : At m queue l passed rest q)
    (hfuel : rest.length+(100-times)*(l.length+1) < fuel) :
    ∃ a, formErrLoop m queue query ident fuel q times = some a := by
  induction fuel generalizing passed rest q times with
  | zero => omega
  | succ fuel ih =>
    cases rest with
    | nil =>
      rw [at_head m queue l passed q h, loop_head]
      split_ifs with htimes hident
      · exact ⟨_,rfl⟩
      · have hlap : (100-times)*(l.length+1) = (100-(times+1))*(l.length+1)+(l.length+1) := by
          rw [← Nat.succ_mul]
          congr 1
          omega
        rw [List.length_nil] at hfuel
        obtain ⟨a,ha⟩ := ih [] l (m.next queue) (times+1) (at_start m queue l h.ring) (by omega)
        exact ⟨_,congrArg (Option.map _) ha⟩
      · exact ⟨_,rfl⟩
    | cons x rest =>
      obtain ⟨-,hne,hnext⟩ := at_node m queue l passed rest x q h
      rw [loop_node m queue query ident fuel times q hne]
      split_ifs with hident
      · exact ⟨_,rfl⟩
      · rw [List.length_cons] at hfuel
        obtain ⟨a,ha⟩ := ih (passed++[x]) rest (m.next q) times hnext (by omega)
        exact ⟨_,congrArg (Option.map _) ha⟩

theorem loop_finds (l passed rest : List α) (q : α) (fuel times : ℕ) (a : Answer α)
    (h : At m queue l passed rest q) (hsome : ∃ x ∈ rest, qident query x = ident)
    (ha : formErrLoop m queue query ident fuel q times = some a) :
    (∀ x ∈ a.visited, x ∈ rest) ∧ ∃ x ∈ rest, a.reported = some x ∧ qident query x = ident := by
  induction fuel generalizing passed rest q a with
  | zero => cases ha
  | succ fuel ih =>
    cases rest with
    | nil =>
      obtain ⟨x,hx,-⟩ := hsome
      cases hx
    | cons x rest =>
      obtain ⟨rfl,hne,hnext⟩ := at_node m queue l passed rest x q h
      rw [loop_node m queue query ident fuel times q hne] at ha
      split_ifs at ha with hident
      · cases ha
        refine ⟨fun y hy => ?_,q,List.mem_cons_self,rfl,hident⟩
        rw [List.mem_singleton.mp hy]
        exact List.mem_cons_self
      · have hrest : ∃ y ∈ rest, qident query y = ident := by
          obtain ⟨y,hy,hyident⟩ := hsome
          rcases List.mem_cons.mp hy with rfl | hy
          · exact absurd hyident hident
          · exact ⟨y,hy,hyident⟩
        obtain ⟨b,hb,rfl⟩ := Option.map_eq_some_iff.mp ha
        obtain ⟨hvisited,y,hy,hreported⟩ := ih (passed++[q]) rest (m.next q) b hnext hrest hb
        refine ⟨fun z hz => ?_,y,List.mem_cons_of_mem q hy,hreported⟩
        rcases List.mem_cons.mp hz with rfl | hz
        · exact List.mem_cons_self
        · exact List.mem_cons_of_mem q (hvisited z hz)

theorem loop_reads_head (l passed rest : List α) (q : α) (fuel : ℕ) (a : Answer α)
    (h : At m queue l passed rest q) (hnone : ∀ x ∈ rest, qident query x ≠ ident)
    (ha : formErrLoop m queue query ident fuel q 0 = some a) : queue ∈ a.visited := by
  induction fuel generalizing passed rest q a with
  | zero => cases ha
  | succ fuel ih =>
    cases rest with
    | nil =>
      rw [at_head m queue l passed q h, loop_head, if_pos (by decide)] at ha
      split_ifs at ha
      · cases ha
        exact List.mem_cons_self
      · obtain ⟨b,-,rfl⟩ := Option.map_eq_some_iff.mp ha
        exact List.mem_cons_self
    | cons x rest =>
      obtain ⟨rfl,hne,hnext⟩ := at_node m queue l passed rest x q h
      rw [loop_node m queue query ident fuel 0 q hne, if_neg (hnone q List.mem_cons_self)] at ha
      obtain ⟨b,hb,rfl⟩ := Option.map_eq_some_iff.mp ha
      exact List.mem_cons_of_mem q (ih (passed++[q]) rest (m.next q) b hnext
        (fun y hy => hnone y (List.mem_cons_of_mem q hy)) hb)

/-- The search always ends. It looks at nodes only, and answers what is queued, if and only
if a node with the ident of the response is queued. -/
theorem form_err_scan (l : List α) (fuel : ℕ) (hring : Looped m queue l)
    (hfuel : 101*(l.length+1) < fuel) :
    ∃ a, formErrScan m queue query ident fuel = some a ∧
      (Meets l query ident a ↔ ∃ q ∈ l, qident query q = ident) := by
  have hstart := at_start m queue l hring
  obtain ⟨a,ha⟩ := loop_ends m queue query ident l [] l (m.next queue) fuel 0 hstart (by omega)
  refine ⟨a,ha,fun hmeets => ?_,fun hsome => ?_⟩
  · by_contra hnone
    have hread := loop_reads_head m queue query ident l [] l (m.next queue) fuel a hstart
      (fun x hx hident => hnone ⟨x,hx,hident⟩) ha
    exact (List.nodup_cons.mp hring.nodup).1 (hmeets.visited queue hread)
  · obtain ⟨hvisited,x,hx,hreported,hident⟩ :=
      loop_finds m queue query ident l [] l (m.next queue) fuel 0 a hstart hsome ha
    refine ⟨hvisited,fun q hq => ?_,iff_of_true (by rw [hreported]; rfl) hsome⟩
    rw [hreported] at hq
    rw [← Option.some.inj hq]
    exact ⟨hx,hident⟩

end Loop

def three : Links ℕ where
  next := fun q => (q+1) % 4
  prev := fun q => (q+3) % 4

/-- The idents are 257 to 259, and what is in front of the head of the queue is 1799. -/
def threeQueries (q i : ℕ) : UInt8 := if q = 0 then 7 else if i = 0 then 1 else q.toUInt8

theorem three_looped : Looped three 0 [1,2,3] := by
  refine ⟨by decide,?_⟩
  simp [Link, three]

theorem form_err_scan_second : ∃ a, formErrScan three 0 threeQueries 258 500 = some a ∧
    (Meets [1,2,3] threeQueries 258 a ↔ ∃ q ∈ [1,2,3], qident threeQueries q = 258) :=
  form_err_scan three 0 threeQueries 258 [1,2,3] 500 three_looped (by decide)

/-- A response for nothing that is queued; the head is reported as the node it is for. -/
theorem head_reported : ¬ ∀ (m : Links ℕ) (queue : ℕ) (query : ℕ → ℕ → UInt8) (ident : ℕ)
    (l : List ℕ) (fuel : ℕ), Looped m queue l → 101*(l.length+1) < fuel →
      ∃ a, formErrScan m queue query ident fuel = some a ∧ Meets l query ident a := by
  intro hall
  obtain ⟨a,ha,hmeets⟩ := hall three 0 threeQueries 1799 [1,2,3] 500 three_looped (by decide)
  have hscan : formErrScan three 0 threeQueries 1799 500 = some ⟨[1,2,3,0],some 0⟩ := by decide
  rw [hscan] at ha
  cases ha
  exact absurd (hmeets.visited 0 (by decide)) (by decide)

end Nginx.FormErrScan
