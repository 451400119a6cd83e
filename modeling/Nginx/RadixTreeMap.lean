import Nginx.RadixTree

/-!
# The radix tree as a map of prefixes

The places of a tree assign an address to every prefix that has a node. The
representation says that the pointers of the heap follow the places, that no
node has two places, and that recycled and fresh nodes have none. Attaching,
detaching and filling a node are the only changes the operations make.
-/

set_option autoImplicit false

namespace Nginx.RadixTreeMap
open Nginx.PrefixMap Nginx.RadixTree

@[grind =] def keyPath (key : Key) : ℕ → List Bool
  | 0 => []
  | n+1 => key.getMsbD n :: keyPath key n

/-- The contiguous mask of `n` leading ones. -/
def maskOf (n : ℕ) : Key := BitVec.allOnes 32 <<< (32-n)

@[simp] theorem key_path_length (key : Key) (n : ℕ) : (keyPath key n).length = n := by
  induction n with
  | zero => rfl
  | succ n ih => rw [keyPath, List.length_cons, ih]

theorem bit_mask : ∀ (i : Fin 33) (n : Fin 33),
    (firstBit >>> i.val &&& maskOf n.val = 0 ↔ n.val ≤ i.val) := by
  decide +kernel

theorem bit_mask_iff (i n : ℕ) (hi : i ≤ 32) (hn : n ≤ 32) :
    firstBit >>> i &&& maskOf n = 0 ↔ n ≤ i :=
  bit_mask ⟨i,by omega⟩ ⟨n,by omega⟩

theorem first_bit_two_pow : ∀ i : Fin 32, firstBit >>> i.val = BitVec.twoPow 32 (31-i.val) := by
  decide

theorem key_bit (key : Key) (i : ℕ) : decide (key &&& firstBit >>> i ≠ 0) = key.getMsbD i := by
  by_cases hi : i < 32
  · rw [first_bit_two_pow ⟨i,hi⟩, BitVec.and_twoPow, BitVec.getMsbD]
    have hne : BitVec.twoPow 32 (31-i) ≠ 0 := by
      intro h0
      have hb := congrArg (fun x : Key => x.getLsbD (31-i)) h0
      simp at hb
      omega
    simp only [hi, decide_true, Bool.true_and]
    cases key.getLsbD (32-1-i) <;> simp_all
  have h0 : firstBit >>> i = 0#32 := by
    apply BitVec.eq_of_toNat_eq
    rw [BitVec.toNat_ushiftRight, Nat.shiftRight_eq_div_pow]
    have hp : (2:ℕ)^32 ≤ 2^i := Nat.pow_le_pow_right (by decide) (by omega)
    exact Nat.div_eq_of_lt (lt_of_lt_of_le firstBit.isLt hp)
  rw [h0, BitVec.getMsbD]
  simp [hi]

theorem next_bit (i : ℕ) : (firstBit >>> i) >>> 1 = firstBit >>> (i+1) := by
  rw [BitVec.shiftRight_add]

abbrev Places := List Bool → ℕ

def Chain (nodes : ℕ → Node) : ℕ → List ℕ → Prop
  | p, [] => p = 0
  | p, a :: rest => p = a ∧ Chain nodes (nodes a).right rest

structure Rep (t : Tree) (places : Places) (recycled : List ℕ) : Prop where
  root : places [] = t.root
  root_set : t.root ≠ 0
  root_parent : (t.nodes t.root).parent = 0
  child : ∀ path b, places path ≠ 0 → (t.nodes (places path)).next b = places (b :: path)
  closed : ∀ path b, places (b :: path) ≠ 0 → places path ≠ 0
  parent : ∀ path b, places (b :: path) ≠ 0 → (t.nodes (places (b :: path))).parent = places path
  inj : ∀ p q, places p ≠ 0 → places p = places q → p = q
  depth : ∀ path, places path ≠ 0 → path.length ≤ 32
  used : ∀ path, places path < t.start
  chain : Chain t.nodes t.free recycled
  recycled_nodup : recycled.Nodup
  recycled_used : ∀ a ∈ recycled, 0 < a ∧ a < t.start
  apart : ∀ path, places path ∉ recycled
  room : t.start+t.size ≤ t.pool

theorem chain_congr (nodes nodes' : ℕ → Node) (p : ℕ) (recycled : List ℕ)
    (h : Chain nodes p recycled) (hsame : ∀ a ∈ recycled, nodes' a = nodes a) :
    Chain nodes' p recycled := by
  induction recycled generalizing p with
  | nil => exact h
  | cons a rest ih =>
    refine ⟨h.1,?_⟩
    rw [hsame a (by simp)]
    exact ih _ h.2 (fun x hx => hsame x (by simp [hx]))

variable (t : Tree) (p : ℕ)

theorem node_ok (h : p ≠ 0) : t.node p = .ok (t.nodes p) := if_neg h

@[simp] theorem next_set_next (n : Node) (b c : Bool) (p : ℕ) :
    (n.setNext b p).next c = if c = b then p else n.next c := by
  cases b <;> cases c <;> rfl

@[simp] theorem parent_set_next (n : Node) (b : Bool) (p : ℕ) :
    (n.setNext b p).parent = n.parent := by
  cases b <;> rfl

@[simp] theorem value_set_next (n : Node) (b : Bool) (p : ℕ) :
    (n.setNext b p).value = n.value := by
  cases b <;> rfl

def stored (t : Tree) (places : Places) : Entries Bool UInt64 := fun path =>
  if places path = 0 ∨ (t.nodes (places path)).value = noValue then none
  else some (t.nodes (places path)).value

variable (places : Places) (recycled : List ℕ)

theorem alloc_spec (h : Rep t places recycled) :
    ∃ rest, Rep (ngxRadixAlloc t).1 places rest ∧
      (ngxRadixAlloc t).2 ≠ 0 ∧ (∀ path, places path ≠ (ngxRadixAlloc t).2) ∧
      (ngxRadixAlloc t).2 ∉ rest ∧ (ngxRadixAlloc t).2 < (ngxRadixAlloc t).1.start ∧
      (ngxRadixAlloc t).1.nodes = t.nodes ∧ (ngxRadixAlloc t).1.root = t.root := by
  by_cases hf : t.free = 0
  · have hnil : recycled = [] := by
      cases recycled with
      | nil => rfl
      | cons a rest =>
        have ha := h.chain.1
        have := (h.recycled_used a (by simp)).1
        omega
    have hroom := h.room
    have hroot := h.used []
    have halloc : ∃ start size pool, t.start ≤ start ∧ start+size ≤ pool ∧ nodeSize ≤ size ∧
        ngxRadixAlloc t = ({ t with start := start+nodeSize, size := size-nodeSize,
                                    pool := pool }, start) := by
      by_cases hs : t.size < nodeSize
      · refine ⟨t.pool,pagesize,t.pool+pagesize,by omega,le_rfl,by decide,?_⟩
        simp [ngxRadixAlloc, hf, hs]
      · refine ⟨t.start,t.size,t.pool,le_rfl,hroom,by omega,?_⟩
        simp [ngxRadixAlloc, hf, hs]
    obtain ⟨start,size,pool,hle,hpool,hsize,halloc⟩ := halloc
    rw [halloc]
    refine ⟨recycled,{ h with used := ?_, recycled_used := ?_, room := ?_ },?_,?_,?_,?_,rfl,rfl⟩
    · intro path
      have := h.used path
      simp only
      omega
    · simp [hnil]
    · simp only
      omega
    · simp only
      omega
    · intro path
      have := h.used path
      simp only
      omega
    · simp [hnil]
    · simp only [nodeSize]
      omega
  have halloc : ngxRadixAlloc t = ({ t with free := (t.nodes t.free).right }, t.free) := by
    simp [ngxRadixAlloc, hf]
  rw [halloc]
  cases recycled with
  | nil => exact absurd h.chain hf
  | cons a rest =>
    obtain ⟨ha,hrest⟩ := h.chain
    have hnd := List.nodup_cons.mp h.recycled_nodup
    refine ⟨rest,{ h with chain := ?_, recycled_nodup := hnd.2, recycled_used := ?_,
                           apart := ?_ },hf,?_,?_,?_,rfl,rfl⟩
    · simpa [ha] using hrest
    · intro x hx
      exact h.recycled_used x (by simp [hx])
    · intro path hx
      exact h.apart path (by simp [hx])
    · intro path hp
      exact h.apart path (by simp [hp, ha])
    · simpa [ha] using hnd.1
    · simpa [ha] using (h.recycled_used a (by simp)).2

theorem fill_spec (path : List Bool) (value : UInt64) (h : Rep t places recycled)
    (hp : places path ≠ 0) :
    Rep (t.setNode (places path) { t.nodes (places path) with value := value }) places recycled ∧
      stored (t.setNode (places path) { t.nodes (places path) with value := value }) places =
        put (stored t places) path (if value = noValue then none else some value) := by
  have hnode : ∀ a, ((t.setNode (places path)
      { t.nodes (places path) with value := value }).nodes a) =
      if a = places path then { t.nodes (places path) with value := value } else t.nodes a := by
    intro a
    by_cases ha : a = places path
    · subst ha
      simp [Tree.setNode]
    · simp [Tree.setNode, ha]
  have hnext : ∀ a b, ((t.setNode (places path)
      { t.nodes (places path) with value := value }).nodes a).next b = (t.nodes a).next b := by
    intro a b
    rw [hnode]
    split_ifs with ha
    · rw [ha]
      rfl
    · rfl
  have hparent : ∀ a, ((t.setNode (places path)
      { t.nodes (places path) with value := value }).nodes a).parent = (t.nodes a).parent := by
    intro a
    rw [hnode]
    split_ifs with ha
    · rw [ha]
    · rfl
  refine ⟨{ h with root := h.root, root_set := h.root_set, root_parent := ?_, child := ?_,
                   parent := ?_, chain := ?_, used := h.used, recycled_used := h.recycled_used,
                   room := h.room },?_⟩
  · rw [hparent]
    exact h.root_parent
  · intro q b hq
    rw [hnext]
    exact h.child q b hq
  · intro q b hq
    rw [hparent]
    exact h.parent q b hq
  · refine chain_congr _ _ _ _ h.chain ?_
    intro a ha
    rw [hnode, if_neg]
    rintro rfl
    exact h.apart path ha
  · funext q
    simp only [stored, put, Function.update_apply, hnode]
    by_cases hq : q = path
    · subst hq
      simp [hp]
    have hne : places q ≠ 0 → places q ≠ places path := fun h0 he => hq (h.inj q path h0 he)
    by_cases h0 : places q = 0
    · simp [hq, h0]
    · simp [hq, h0, hne h0]

def attach (t : Tree) (above p : ℕ) (b : Bool) : Tree :=
  (t.setNode p { right := 0, left := 0, parent := above, value := noValue }).setNode above
    ((t.nodes above).setNext b p)

theorem attach_node (above p a : ℕ) (b : Bool) :
    (attach t above p b).nodes a = if a = above then (t.nodes above).setNext b p
      else if a = p then { right := 0, left := 0, parent := above, value := noValue }
      else t.nodes a := by
  simp only [attach, Tree.setNode, Function.update_apply]

theorem attach_spec (path : List Bool) (b : Bool) (p : ℕ) (h : Rep t places recycled)
    (habove : places path ≠ 0) (hnone : places (b :: path) = 0) (hdepth : path.length < 32)
    (hp : p ≠ 0) (hfresh : ∀ q, places q ≠ p) (hrec : p ∉ recycled) (hused : p < t.start) :
    Rep (attach t (places path) p b) (Function.update places (b :: path) p) recycled ∧
      stored (attach t (places path) p b) (Function.update places (b :: path) p) =
        stored t places := by
  have hpath : path ≠ b :: path := fun he => by
    have := congrArg List.length he
    simp at this
  have hold : ∀ q, q ≠ b :: path → Function.update places (b :: path) p q = places q :=
    fun q hq => Function.update_of_ne hq p places
  have hnew : Function.update places (b :: path) p (b :: path) = p := Function.update_self _ _ _
  have hbelow : ∀ q c, q ≠ [] → c :: q = b :: path → q = path := fun q c _ he => by
    simp only [List.cons.injEq] at he
    exact he.2
  have hleaf : ∀ c, places (c :: b :: path) = 0 := fun c => by
    by_contra hc
    exact h.closed _ c hc hnone
  have hne : ∀ q, places q ≠ 0 → q ≠ path → places q ≠ places path :=
    fun q h0 hq he => hq (h.inj q path h0 he)
  have hlen : ∀ (q : List Bool) (c : Bool), q = b :: path → c :: q ≠ b :: path := by
    rintro q c rfl he
    have := congrArg List.length he
    simp at this
  refine ⟨⟨?_,h.root_set,?_,?_,?_,?_,?_,?_,?_,?_,h.recycled_nodup,h.recycled_used,?_,
    h.room⟩,?_⟩
  · rw [hold [] (by simp)]
    exact h.root
  · rw [attach_node]
    have hroot := h.root_parent
    have hrp : (attach t (places path) p b).root ≠ p := by
      rw [show (attach t (places path) p b).root = t.root from rfl, ← h.root]
      exact hfresh []
    rw [if_neg hrp]
    split_ifs with ha
    · rw [parent_set_next, ← ha]
      exact hroot
    · exact hroot
  · intro q c hq
    rw [attach_node]
    by_cases hqb : q = b :: path
    · subst hqb
      rw [hnew] at hq ⊢
      rw [if_neg (Ne.symm (hfresh path)), if_pos rfl, hold _ (hlen _ c rfl), hleaf c]
      cases c <;> rfl
    rw [hold q hqb] at hq ⊢
    by_cases hqp : q = path
    · subst hqp
      rw [if_pos rfl, next_set_next]
      by_cases hc : c = b
      · rw [if_pos hc, hc, hnew]
      · rw [if_neg hc, hold _ (by simpa using hc)]
        exact h.child q c hq
    rw [if_neg (hne q hq hqp), if_neg (hfresh q), hold _ (by
      intro he
      simp only [List.cons.injEq] at he
      exact hqp he.2)]
    exact h.child q c hq
  · intro q c hq
    by_cases hqb : q = b :: path
    · rw [hqb, hnew]
      exact hp
    rw [hold q hqb]
    by_cases hcq : c :: q = b :: path
    · simp only [List.cons.injEq] at hcq
      rw [hcq.2]
      exact habove
    · rw [hold _ hcq] at hq
      exact h.closed q c hq
  · intro q c hq
    by_cases hcq : c :: q = b :: path
    · have hqp : q = path := by
        simp only [List.cons.injEq] at hcq
        exact hcq.2
      rw [hcq, hnew, attach_node, if_neg (Ne.symm (hfresh path)), if_pos rfl, hqp, hold path hpath]
    rw [hold _ hcq] at hq ⊢
    have hqb : q ≠ b :: path := by
      rintro rfl
      exact hq (hleaf c)
    rw [hold q hqb, attach_node]
    by_cases hqp : c :: q = path
    · rw [hqp, if_pos rfl, parent_set_next, ← hqp]
      exact h.parent q c hq
    · rw [if_neg (hne _ hq hqp), if_neg (hfresh _)]
      exact h.parent q c hq
  · intro q r hq he
    by_cases hqb : q = b :: path
    · by_cases hrb : r = b :: path
      · rw [hqb, hrb]
      · rw [hqb, hnew, hold r hrb] at he
        exact absurd he.symm (hfresh r)
    by_cases hrb : r = b :: path
    · rw [hrb, hnew, hold q hqb] at he
      exact absurd he (hfresh q)
    rw [hold q hqb] at hq he
    rw [hold r hrb] at he
    exact h.inj q r hq he
  · intro q hq
    by_cases hqb : q = b :: path
    · rw [hqb, List.length_cons]
      omega
    · rw [hold q hqb] at hq
      exact h.depth q hq
  · intro q
    by_cases hqb : q = b :: path
    · rw [hqb, hnew]
      exact hused
    · rw [hold q hqb]
      exact h.used q
  · refine chain_congr _ _ _ _ h.chain ?_
    intro a ha
    rw [attach_node, if_neg (by rintro rfl; exact h.apart path ha),
      if_neg (by rintro rfl; exact hrec ha)]
  · intro q
    by_cases hqb : q = b :: path
    · rw [hqb, hnew]
      exact hrec
    · rw [hold q hqb]
      exact h.apart q
  · funext q
    simp only [stored]
    by_cases hqb : q = b :: path
    · subst hqb
      rw [hnew, attach_node, if_neg (Ne.symm (hfresh path)), if_pos rfl, hnone]
      simp
    rw [hold q hqb, attach_node]
    by_cases h0 : places q = 0
    · simp [h0]
    by_cases hqp : q = path
    · subst hqp
      rw [if_pos rfl, value_set_next]
    · rw [if_neg (hne q h0 hqp), if_neg (hfresh q)]

def detach (t : Tree) (above p : ℕ) (b : Bool) : Tree :=
  { (t.setNode above ((t.nodes above).setNext b 0)).setNode p
      { t.nodes p with right := t.free } with free := p }

theorem detach_node (above p a : ℕ) (b : Bool) :
    (detach t above p b).nodes a = if a = p then { t.nodes p with right := t.free }
      else if a = above then (t.nodes above).setNext b 0 else t.nodes a := by
  simp only [detach, Tree.setNode, Function.update_apply]

theorem detach_spec (path : List Bool) (b : Bool) (h : Rep t places recycled)
    (hp : places (b :: path) ≠ 0) (hleaf : ∀ c, places (c :: b :: path) = 0) :
    Rep (detach t (places path) (places (b :: path)) b) (Function.update places (b :: path) 0)
        (places (b :: path) :: recycled) ∧
      stored (detach t (places path) (places (b :: path)) b)
        (Function.update places (b :: path) 0) = put (stored t places) (b :: path) none := by
  have hpath : path ≠ b :: path := fun he => by
    have := congrArg List.length he
    simp at this
  have habove := h.closed path b hp
  have hold : ∀ q, q ≠ b :: path → Function.update places (b :: path) 0 q = places q :=
    fun q hq => Function.update_of_ne hq 0 places
  have hnew : Function.update places (b :: path) 0 (b :: path) = 0 := Function.update_self _ _ _
  have hne : ∀ q r, places q ≠ 0 → q ≠ r → places q ≠ places r :=
    fun q r h0 hq he => hq (h.inj q r h0 he)
  refine ⟨⟨?_,h.root_set,?_,?_,?_,?_,?_,?_,?_,?_,?_,?_,?_,h.room⟩,?_⟩
  · rw [hold [] (by simp)]
    exact h.root
  · have hrp : t.root ≠ places (b :: path) := by
      rw [← h.root]
      exact hne [] _ (by rw [h.root]; exact h.root_set) (by simp)
    rw [show (detach t (places path) (places (b :: path)) b).root = t.root from rfl, detach_node,
      if_neg hrp]
    split_ifs with ha
    · rw [parent_set_next, ← ha]
      exact h.root_parent
    · exact h.root_parent
  · intro q c hq
    have hqb : q ≠ b :: path := by
      rintro rfl
      exact hq hnew
    rw [hold q hqb] at hq ⊢
    rw [detach_node, if_neg (hne q _ hq hqb)]
    by_cases hqp : q = path
    · subst hqp
      rw [if_pos rfl, next_set_next]
      by_cases hc : c = b
      · rw [if_pos hc, hc, hnew]
      · rw [if_neg hc, hold _ (by simpa using hc)]
        exact h.child q c hq
    rw [if_neg (hne q _ hq hqp), hold _ (by
      intro he
      simp only [List.cons.injEq] at he
      exact hqp he.2)]
    exact h.child q c hq
  · intro q c hq
    have hcq : c :: q ≠ b :: path := fun he => hq (by rw [he, hnew])
    rw [hold _ hcq] at hq
    have hqb : q ≠ b :: path := by
      rintro rfl
      exact hq (hleaf c)
    rw [hold q hqb]
    exact h.closed q c hq
  · intro q c hq
    have hcq : c :: q ≠ b :: path := fun he => hq (by rw [he, hnew])
    rw [hold _ hcq] at hq ⊢
    have hqb : q ≠ b :: path := by
      rintro rfl
      exact hq (hleaf c)
    rw [hold q hqb, detach_node, if_neg (hne _ _ hq hcq)]
    split_ifs with ha
    · rw [parent_set_next, ← ha]
      exact h.parent q c hq
    · exact h.parent q c hq
  · intro q r hq he
    have hqb : q ≠ b :: path := by
      rintro rfl
      exact hq hnew
    rw [hold q hqb] at hq he
    by_cases hrb : r = b :: path
    · rw [hrb, hnew] at he
      exact absurd he hq
    · rw [hold r hrb] at he
      exact h.inj q r hq he
  · intro q hq
    have hqb : q ≠ b :: path := by
      rintro rfl
      exact hq hnew
    rw [hold q hqb] at hq
    exact h.depth q hq
  · intro q
    have hpos := h.used q
    by_cases hqb : q = b :: path
    · rw [hqb, hnew]
      exact lt_of_le_of_lt (Nat.zero_le _) hpos
    · rw [hold q hqb]
      exact hpos
  · refine ⟨rfl,?_⟩
    rw [detach_node, if_pos rfl]
    refine chain_congr _ _ _ _ h.chain ?_
    intro a ha
    rw [detach_node, if_neg (by rintro rfl; exact h.apart _ ha),
      if_neg (by rintro rfl; exact h.apart _ ha)]
  · exact List.nodup_cons.mpr ⟨h.apart _,h.recycled_nodup⟩
  · intro a ha
    rcases List.mem_cons.mp ha with rfl | ha
    · exact ⟨Nat.pos_of_ne_zero hp,h.used _⟩
    · exact h.recycled_used a ha
  · intro q
    by_cases hqb : q = b :: path
    · rw [hqb, hnew]
      intro hm
      rcases List.mem_cons.mp hm with hm | hm
      · exact hp hm.symm
      · have := (h.recycled_used 0 hm).1
        omega
    rw [hold q hqb]
    intro hm
    rcases List.mem_cons.mp hm with hm | hm
    · exact hqb (h.inj _ _ hp hm.symm).symm
    · exact h.apart q hm
  · funext q
    simp only [stored, put, Function.update_apply]
    by_cases hqb : q = b :: path
    · simp [hqb]
    rw [if_neg hqb, if_neg hqb, detach_node]
    by_cases h0 : places q = 0
    · simp [h0]
    rw [if_neg (hne q _ h0 hqb)]
    by_cases hqp : q = path
    · subst hqp
      rw [if_pos rfl, value_set_next]
    · rw [if_neg (hne q _ h0 hqp)]

end Nginx.RadixTreeMap
