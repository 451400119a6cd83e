import Nginx.OffT
import Nginx.UriBytes

/-!
# The host of a request

One scan of the `Host` value finds where the port starts and whether a dot is its last character.
What it leaves is the name by which the server for the request is found. The pool may have no
memory for the copy in lower case.
-/

set_option autoImplicit false

namespace Nginx.HttpHost
open Nginx.OffT Nginx.UriBytes

def ngxTolower (ch : UInt8) : UInt8 := if 65 ≤ ch ∧ ch ≤ 90 then ch ||| 0x20 else ch

def ngxStrlow (src : List UInt8) : List UInt8 := src.map ngxTolower

structure HostScan where
  last : ℕ
  dot : Bool
  alloc : Bool
  deriving DecidableEq, Repr

/-- The loop from the character with the number `i` on, nothing where it returns 0 -/
@[grind =] def hostLoop : ℕ → HostScan → List UInt8 → Option HostScan
  | _, c, [] => some c
  | i, c, ch::h =>
    if ch = dot then if c.dot then none else hostLoop (i+1) { c with dot := true } h
    else
      let c := { c with dot := false }
      if ch = colon then hostLoop (i+1) { c with last := i } h
      else if ch = slash ∨ ch = nul then none
      else hostLoop (i+1) { c with alloc := c.alloc || 65 ≤ ch || ch < 90 } h

/-- The value returned, a signed one, and the host: the value itself or its copy -/
def ngxHttpValidateHost (pnalloc : ℕ → Bool) (h : List UInt8) (alloc : Bool) :
    ℤ×List UInt8 :=
  match hostLoop 0 ⟨h.length,false,alloc⟩ h with
  | none => (0,h)
  | some c =>
    let last := if c.dot then unsigned ((c.last : ℤ)-1) else c.last
    if c.alloc then
      if pnalloc last then (offT last,ngxStrlow (h.take last)) else (-1,h)
    else (offT last,h)

/-- The fields of `headers_in` that the header has to do with -/
structure HeadersIn where
  host : Option (List UInt8)
  server : List UInt8
  deriving DecidableEq, Repr

inductive HostOutcome where
  | ok
  | badRequest
  | internalServerError
  deriving DecidableEq, Repr

def ngxHttpProcessHost (pnalloc : ℕ → Bool) (r : HeadersIn) (value : List UInt8) :
    HeadersIn×HostOutcome :=
  let r := { r with host := some (r.host.getD value) }
  let (len,host) := ngxHttpValidateHost pnalloc value false
  if len = 0 then (r,.badRequest)
  else if len < 0 then (r,.internalServerError)
  else if r.server ≠ [] then (r,.ok)
  else ({ r with server := host.take len.toNat },.ok)

def ngxHashKey (data : List UInt8) : ℕ := data.foldl (fun key ch => (key*31+ch.toNat)%2^64) 0

inductive RegexResult where
  | ok
  | declined
  | error
  deriving DecidableEq, Repr

/-- The names of the servers on an address: the combined hash and the expressions in their order -/
structure VirtualNames (σ : Type) where
  names : ℕ → List UInt8 → Option σ
  regex : List ((List UInt8 → RegexResult)×σ)

inductive Selected (σ : Type) where
  | declined
  | found (server : σ)
  | unchanged
  | error
  deriving DecidableEq, Repr

def matchRegex {σ : Type} (name : List UInt8) : List ((List UInt8 → RegexResult)×σ) → Selected σ
  | [] => .unchanged
  | (exec,server)::regex =>
    match exec name with
    | .ok => .found server
    | .declined => matchRegex name regex
    | .error => .error

def ngxHttpFindVirtualServer {σ : Type} (virtualNames : Option (VirtualNames σ))
    (host : List UInt8) : Selected σ :=
  match virtualNames with
  | none => .declined
  | some v =>
    match v.names (ngxHashKey host) host with
    | some server => .found server
    | none => if host ≠ [] then matchRegex host v.regex else .unchanged

/-! The scan -/

section Scan

variable {i : ℕ} {c c' : HostScan} {xs ys : List UInt8}

theorem loop_append : hostLoop i c (xs++ys) =
    (hostLoop i c xs).bind fun c' => hostLoop (i+xs.length) c' ys := by
  induction xs generalizing i c with
  | nil => rfl
  | cons ch xs ih =>
    rw [List.cons_append, hostLoop, hostLoop, List.length_cons, ← Nat.add_assoc,
      Nat.add_right_comm]
    simp only [ih]
    split_ifs <;> rfl

theorem loop_last (h : hostLoop i c xs = some c') (hxs : colon ∉ xs) : c'.last = c.last := by
  induction xs generalizing i c with
  | nil => rw [Option.some.inj h]
  | cons ch xs ih =>
    have hch : ch ≠ colon := fun heq => hxs (heq ▸ List.mem_cons_self)
    have hrest : colon ∉ xs := fun hin => hxs (List.mem_cons_of_mem ch hin)
    rw [hostLoop] at h
    simp only [hch, if_false] at h
    split_ifs at h
    · rw [ih h hrest]
    · rw [ih h hrest]

/-- Whether the last character is a dot, or what `d` says where there is none -/
def endsInDot (d : Bool) (xs : List UInt8) : Bool := xs.foldl (fun _ ch => decide (ch = dot)) d

theorem loop_dot (h : hostLoop i c xs = some c') : c'.dot = endsInDot c.dot xs := by
  induction xs generalizing i c with
  | nil =>
    rw [Option.some.inj h]
    rfl
  | cons ch xs ih =>
    rw [hostLoop] at h
    by_cases hch : ch = dot
    · simp only [hch, if_true] at h
      split_ifs at h
      rw [ih h, hch]
      rfl
    have hcons (d : Bool) : endsInDot d (ch::xs) = endsInDot false xs := by
      rw [endsInDot, List.foldl_cons, decide_eq_false hch]
      rfl
    simp only [hch, if_false] at h
    rw [hcons]
    split_ifs at h
    · rw [ih h]
    · rw [ih h]

theorem loop_alloc (h : hostLoop i c xs = some c') (hno : c'.alloc = false) :
    c.alloc = false ∧ ∀ ch ∈ xs, ch = dot ∨ ch = colon := by
  have hany (ch : UInt8) : (65 ≤ ch || ch < 90) = true := by
    rw [Bool.or_eq_true, decide_eq_true_iff, decide_eq_true_iff]
    change 65 ≤ ch.toNat ∨ ch.toNat < 90
    omega
  induction xs generalizing i c with
  | nil =>
    rw [Option.some.inj h]
    exact ⟨hno,fun ch hch => absurd hch List.not_mem_nil⟩
  | cons ch xs ih =>
    rw [hostLoop] at h
    by_cases hdot : ch = dot
    · simp only [hdot, if_true] at h
      split_ifs at h
      obtain ⟨halloc,hrest⟩ := ih h
      exact ⟨halloc,List.forall_mem_cons.mpr ⟨Or.inl hdot,hrest⟩⟩
    simp only [hdot, if_false] at h
    by_cases hcolon : ch = colon
    · rw [if_pos hcolon] at h
      obtain ⟨halloc,hrest⟩ := ih h
      exact ⟨halloc,List.forall_mem_cons.mpr ⟨Or.inr hcolon,hrest⟩⟩
    rw [if_neg hcolon] at h
    split_ifs at h
    obtain ⟨halloc,-⟩ := ih h
    simp only [Bool.or_assoc, hany ch, Bool.or_true] at halloc
    cases halloc

end Scan

/-! Hosts -/

/-- A name, the dot behind it and a port. An object of the memory has less than 2^63 bytes. -/
structure HostForm where
  name : List UInt8
  dot : Bool
  port : Option (List UInt8)
  nameFree : colon ∉ name
  nameEnd : endsInDot false name = false
  portFree : ∀ p, port = some p → colon ∉ p
  small : name.length+(port.elim 0 (·.length+1))+1 < 2^63

namespace HostForm

def front (f : HostForm) : List UInt8 := f.name++if f.dot then [UriBytes.dot] else []

def text (f : HostForm) : List UInt8 := f.front++f.port.elim [] (colon::·)

end HostForm

section Hosts

variable {f g : HostForm} {alloc : Bool} {c : HostScan} {pnalloc : ℕ → Bool}

theorem front_length : f.front.length = f.name.length+f.dot.toNat := by
  rw [HostForm.front]
  cases f.dot <;> simp

theorem front_free : colon ∉ f.front := by
  rw [HostForm.front, List.mem_append]
  rintro (h|h)
  · exact f.nameFree h
  · cases f.dot <;> simp at h

theorem text_take : f.text.take f.name.length = f.name := by
  rw [HostForm.text, HostForm.front, List.append_assoc, List.take_left]

theorem host_last (h : hostLoop 0 ⟨f.text.length,false,alloc⟩ f.text = some c) :
    c.last = f.name.length+f.dot.toNat := by
  rw [← front_length]
  cases hport : f.port with
  | none =>
    have htext : f.text = f.front := by
      rw [HostForm.text, hport, Option.elim_none, List.append_nil]
    rw [htext] at h
    exact loop_last h front_free
  | some p =>
    have htext : f.text = f.front++colon::p := by rw [HostForm.text, hport, Option.elim_some]
    rw [htext, loop_append] at h
    obtain ⟨c1,hfront,h⟩ := Option.bind_eq_some_iff.mp h
    have hcolon : colon ≠ dot := by decide
    rw [hostLoop, if_neg hcolon] at h
    simp only [if_true] at h
    rw [loop_last h (f.portFree p hport), Nat.zero_add]

theorem strlow_fixed {xs : List UInt8} (h : ∀ ch ∈ xs, ch = dot ∨ ch = colon) :
    ngxStrlow xs = xs := by
  rw [ngxStrlow, List.map_congr_left (g := id) fun ch hch => ?_, List.map_id]
  rcases h ch hch with rfl|rfl <;> rfl

def Normal (f : HostForm) (len : ℤ) (host : List UInt8) : Prop :=
  len = f.name.length ∧ host.take len.toNat = ngxStrlow f.name

theorem cut_length {n k : ℕ} {dot : Bool} (hn : n < 2^63)
    (hk : k = if dot then unsigned ((n : ℤ)-1) else n) (hpos : 0 < offT k) :
    offT k = k ∧ k+dot.toNat = n := by
  cases dot with
  | false =>
    rw [hk]
    exact ⟨off_eq (by omega) (by exact_mod_cast hn),rfl⟩
  | true =>
    rw [if_pos rfl] at hk
    by_cases hzero : n = 0
    · rw [hk, hzero] at hpos
      exact absurd hpos (by decide)
    have hcut : (k : ℤ) = n-1 := by
      rw [hk]
      exact unsigned_eq (by omega) (by omega)
    exact ⟨off_eq (by omega) (by omega),by rw [Bool.toNat_true]; omega⟩

theorem validate_accepted {len : ℤ} {host : List UInt8}
    (h : ngxHttpValidateHost pnalloc f.text alloc = (len,host)) (hpos : 0 < len) :
    len+(endsInDot false f.text).toNat = f.name.length+f.dot.toNat ∧
      host.take len.toNat = ngxStrlow (f.text.take len.toNat) := by
  rw [ngxHttpValidateHost] at h
  cases hloop : hostLoop 0 ⟨f.text.length,false,alloc⟩ f.text with
  | none =>
    rw [hloop] at h
    obtain ⟨rfl,-⟩ := Prod.mk.inj h
    exact absurd hpos (lt_irrefl 0)
  | some c =>
    have hlast := host_last hloop
    have hdot : c.dot = endsInDot false f.text := loop_dot hloop
    have hsmall := f.small
    have hdotle := f.dot.toNat_le
    rw [hloop] at h
    simp only [hlast, hdot] at h
    generalize hk : (if endsInDot false f.text = true then
      unsigned (((f.name.length+f.dot.toNat : ℕ) : ℤ)-1) else f.name.length+f.dot.toNat) = k at h
    have hcut := cut_length (k := k) (show f.name.length+f.dot.toNat < 2^63 by omega) hk.symm
    by_cases halloc : c.alloc = true
    · rw [if_pos halloc] at h
      by_cases hmem : pnalloc k = true
      · rw [if_pos hmem] at h
        obtain ⟨rfl,rfl⟩ := Prod.mk.inj h
        obtain ⟨hoff,hlen⟩ := hcut hpos
        rw [hoff, Int.toNat_natCast]
        refine ⟨by omega,?_⟩
        exact List.take_of_length_le (by simp [ngxStrlow])
      rw [if_neg hmem] at h
      obtain ⟨rfl,-⟩ := Prod.mk.inj h
      exact absurd hpos (by decide)
    rw [if_neg halloc] at h
    obtain ⟨rfl,rfl⟩ := Prod.mk.inj h
    obtain ⟨hoff,hlen⟩ := hcut hpos
    obtain ⟨-,hfixed⟩ := loop_alloc hloop (Bool.eq_false_of_not_eq_true halloc)
    rw [hoff, Int.toNat_natCast]
    refine ⟨by omega,(strlow_fixed fun ch hch => hfixed ch ?_).symm⟩
    exact List.mem_of_mem_take hch

theorem validate_normal {len : ℤ} {host : List UInt8}
    (h : ngxHttpValidateHost pnalloc f.text alloc = (len,host)) (hpos : 0 < len) :
    Normal f len host ↔ endsInDot false f.text = f.dot := by
  obtain ⟨hlen,hhost⟩ := validate_accepted h hpos
  constructor
  · rintro ⟨hname,-⟩
    have hnat : (endsInDot false f.text).toNat = f.dot.toNat := by omega
    cases hend : endsInDot false f.text <;> cases hdot : f.dot <;> simp [hend, hdot] at hnat ⊢
  · intro heq
    rw [heq] at hlen
    have hname : len.toNat = f.name.length := by omega
    refine ⟨by omega,?_⟩
    rw [hhost, hname, text_take]

theorem process_server {r r' : HeadersIn} (hr : r.server = [])
    (hf : endsInDot false f.text = f.dot)
    (h : ngxHttpProcessHost pnalloc r f.text = (r',.ok)) : r'.server = ngxStrlow f.name := by
  cases hv : ngxHttpValidateHost pnalloc f.text false with
  | mk len host =>
    simp only [ngxHttpProcessHost, hv] at h
    by_cases hzero : len = 0
    · rw [if_pos hzero] at h
      cases (Prod.mk.inj h).2
    by_cases hneg : len < 0
    · rw [if_neg hzero, if_pos hneg] at h
      cases (Prod.mk.inj h).2
    rw [if_neg hzero, if_neg hneg] at h
    simp only [hr, ne_eq, not_true_eq_false, if_false] at h
    obtain ⟨rfl,-⟩ := Prod.mk.inj h
    exact ((validate_normal hv (by omega)).mpr hf).2

/-- The name comes out of an accepted value just when the value ends in a dot exactly if the name is
followed by one; then case, that dot and the port make no difference to the server. -/
theorem validate_host_normal {len : ℤ} {host : List UInt8}
    (h : ngxHttpValidateHost pnalloc f.text alloc = (len,host)) (hpos : 0 < len) :
    (Normal f len host ↔ endsInDot false f.text = f.dot) ∧
      ∀ (σ : Type) (virtualNames : Option (VirtualNames σ)) (g : HostForm) (r r' s s' : HeadersIn),
        endsInDot false f.text = f.dot → endsInDot false g.text = g.dot →
        ngxStrlow f.name = ngxStrlow g.name → r.server = [] → s.server = [] →
        ngxHttpProcessHost pnalloc r f.text = (r',.ok) →
        ngxHttpProcessHost pnalloc s g.text = (s',.ok) →
        ngxHttpFindVirtualServer virtualNames r'.server =
          ngxHttpFindVirtualServer virtualNames s'.server := by
  refine ⟨validate_normal h hpos,?_⟩
  intro σ virtualNames g r r' s s' hf hg hname hr hs hprocess hprocess'
  rw [process_server hr hf hprocess, process_server hs hg hprocess', hname]

end Hosts

/-- `Ab:80` -/
def upperPort : HostForm := ⟨[65,98],false,some [56,48],by decide,by decide,by decide,by decide⟩

/-- `ab.:80` -/
def dotPort : HostForm := ⟨[97,98],true,some [56,48],by decide,by decide,by decide,by decide⟩

theorem validate_host_normal_port : Normal upperPort 2 [97,98] :=
  (@validate_host_normal upperPort false (fun _ => true) 2 [97,98] (by decide)
    (by decide)).1.mpr (by decide)

/-- A server for `ab` alone -/
def oneName : VirtualNames ℕ := ⟨fun _ name => if name = [97,98] then some 1 else none,[]⟩

theorem dot_port_kept :
    ngxHttpValidateHost (fun _ => true) dotPort.text false = (3,[97,98,46]) ∧
      ¬Normal dotPort 3 [97,98,46] ∧
      ngxHttpFindVirtualServer (some oneName) [97,98] = .found 1 ∧
      ngxHttpFindVirtualServer (some oneName) [97,98,46] = .unchanged := by
  refine ⟨by decide,fun h => absurd h.1 (by decide),by decide,by decide⟩

end Nginx.HttpHost
