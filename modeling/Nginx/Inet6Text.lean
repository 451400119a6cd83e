import Nginx.InetAddr
import Nginx.Sprintf

/-!
# IPv6 addresses written and read again

`ngx_inet6_ntop` leaves out the first of the longest runs of zero groups and writes the last
four bytes of some addresses as an IPv4 address. `ngx_inet6_addr` reads its texts; the IPv4
part goes through `ngx_inet_addr`, where one address is the mark of an error.
-/

set_option autoImplicit false

namespace Nginx.Inet6Text
open InetAddr Sprintf

/-! The code -/

/-- `none` is -1; `n` is the length of the run of zero groups that ends here. -/
structure Runs where
  zero : Option ℕ
  last : Option ℕ
  max : ℕ
  n : ℕ
  deriving DecidableEq, Repr

def Runs.longest (r : Runs) : Runs :=
  if r.max < r.n then { r with zero := r.last, max := r.n } else r

def runTurn (p : List UInt8) (r : Runs) (i : ℕ) : Runs :=
  if p.getD i 0 ≠ 0 ∨ p.getD (i+1) 0 ≠ 0 then { r.longest with n := 0 }
  else { r with last := if r.n = 0 then some i else r.last, n := r.n+1 }

/-- The first loop; `i` goes by two. -/
def runsFrom (p : List UInt8) (turns : ℕ) : Runs :=
  (List.range turns).foldl (fun r k => runTurn p r (2*k)) ⟨none,none,1,0⟩

def runs (p : List UInt8) : Runs := (runsFrom p 8).longest

def group (p : List UInt8) (i : ℕ) : ℕ := (p.getD i 0).toNat*256+(p.getD (i+1) 0).toNat

def ntopLoop (p : List UInt8) (zero : Option ℕ) (max n i : ℕ) : List UInt8 :=
  if i < n then
    if zero = some i then 58::ntopLoop p zero max n (i+(max-1)*2+2)
    else temp 1 (group p i)++(if i < 14 then [58] else [])++ntopLoop p zero max n (i+2)
  else []
termination_by n-i

def embeds (p : List UInt8) (r : Runs) : Bool :=
  r.zero = some 0 ∧ ((r.max = 5 ∧ p.getD 10 0 = 0xff ∧ p.getD 11 0 = 0xff) ∨ r.max = 6 ∨
    (r.max = 7 ∧ p.getD 14 0 ≠ 0 ∧ p.getD 15 0 ≠ 1))

/-- `"%ud.%ud.%ud.%ud"` -/
def quadText (a b c d : UInt8) : List UInt8 :=
  temp 0 a.toNat++46::(temp 0 b.toNat++46::(temp 0 c.toNat++46::temp 0 d.toNat))

/-- `ngx_inet6_ntop`; the 45 is `NGX_INET6_ADDRSTRLEN`. -/
def ngxInet6Ntop (p : List UInt8) (len : ℕ) : List UInt8 :=
  if len < 45 then []
  else
    let r := runs p
    let n := if embeds p r then 12 else 16
    (if r.zero = some 0 then [58] else [])++ntopLoop p r.zero r.max n 0++
      (if n = 12 then quadText (p.getD 12 0) (p.getD 13 0) (p.getD 14 0) (p.getD 15 0) else [])

/-! Digits -/

theorem hex_nibble : ∀ d < 16, nibble (hexChar d) = some d ∧ hexChar d ≠ 58 ∧ hexChar d ≠ 46 := by
  decide

theorem decimal_hex : ∀ d < 10, decimalChar d = hexChar d := by
  decide

theorem loop_digit (st : Scan) (d : ℕ) (p : List UInt8) (hd : d < 16) (hn : st.nibbles < 4) :
    inet6Loop st (hexChar d::p) =
      inet6Loop { st with nibbles := st.nibbles+1, word := st.word*16+d } p := by
  obtain ⟨hnibble,hcolon,hdot⟩ := hex_nibble d hd
  rw [inet6Loop, if_neg hcolon, if_neg (fun h => hdot h.1), if_neg (by omega), hnibble]
  rfl

theorem loop_number (base : ℕ) (hbase : 1 < base) (hle : base ≤ 16) (digit : ℕ → UInt8)
    (hdigit : ∀ d < base, digit d = hexChar d) (out : List UInt8) (zero : Option ℕ)
    (dg : Option (List UInt8)) (n k w : ℕ) (p : List UInt8) (hk : k < 4) (hw : w < base^(k+1)) :
    ∃ j v, 0 < j ∧ j ≤ k+1 ∧ (base = 16 → v = w) ∧
      inet6Loop ⟨out,zero,dg,n,0,0⟩ (tempLoop base hbase digit w p) =
        inet6Loop ⟨out,zero,dg,n,j,v⟩ p := by
  induction k generalizing w p with
  | zero =>
    rw [Nat.zero_add, pow_one] at hw
    refine ⟨1,w,Nat.one_pos,le_rfl,fun _ => rfl,?_⟩
    rw [tempLoop, if_pos (Nat.div_eq_of_lt hw), Nat.mod_eq_of_lt hw, hdigit w hw,
      loop_digit _ w p (by omega) (Nat.zero_lt_succ 3)]
    simp only [Nat.zero_add, Nat.zero_mul]
  | succ k ih =>
    rw [tempLoop]
    have hmod : w % base < base := Nat.mod_lt w (by omega)
    split_ifs with hsmall
    · have hw' : w < base := by
        rcases Nat.div_eq_zero_iff.mp hsmall with h | h
        · omega
        · exact h
      refine ⟨1,w,Nat.one_pos,by omega,fun _ => rfl,?_⟩
      rw [Nat.mod_eq_of_lt hw', hdigit w hw', loop_digit _ w p (by omega) (Nat.zero_lt_succ 3)]
      simp only [Nat.zero_add, Nat.zero_mul]
    · have hdiv : w / base < base^(k+1) :=
        Nat.div_lt_of_lt_mul (by rwa [pow_succ, mul_comm] at hw)
      obtain ⟨j,v,hj,hjk,hv,hrun⟩ := ih (w/base) (digit (w%base)::p) (by omega) hdiv
      refine ⟨j+1,v*16+w%base,Nat.succ_pos j,by omega,fun h => ?_,?_⟩
      · rw [hv h, h]
        omega
      · rw [hrun, hdigit _ hmod, loop_digit _ _ p (by omega) (by show j < 4; omega)]

theorem temp_loop_append (base : ℕ) (hbase : 1 < base) (digit : ℕ → UInt8) (w : ℕ)
    (p q : List UInt8) :
    tempLoop base hbase digit w (p++q) = tempLoop base hbase digit w p++q := by
  induction w using Nat.strong_induction_on generalizing p with
  | h w ih =>
    rw [tempLoop, tempLoop.eq_1 base hbase digit w p]
    split_ifs with hsmall
    · rfl
    · have hlt : w/base < w :=
        Nat.div_lt_self (Nat.pos_of_ne_zero fun h0 => hsmall (by rw [h0, Nat.zero_div])) hbase
      exact ih (w/base) hlt (digit (w%base)::p)

variable (w : ℕ) (p : List UInt8)

theorem temp_hex : temp 1 w++p = tempLoop 16 (by decide) hexChar w p := by
  rw [temp, if_neg (by decide), if_pos rfl, ← temp_loop_append, List.nil_append]

theorem temp_decimal : temp 0 w++p = tempLoop 10 (by decide) decimalChar w p := by
  rw [temp, if_pos rfl, ← temp_loop_append, List.nil_append]

theorem temp_loop_head (base : ℕ) (hbase : 1 < base) (digit : ℕ → UInt8) (w : ℕ)
    (p : List UInt8) : ∃ d < base, (tempLoop base hbase digit w p).head? = some (digit d) := by
  induction w using Nat.strong_induction_on generalizing p with
  | h w ih =>
    rw [tempLoop]
    split_ifs with hsmall
    · exact ⟨w%base,Nat.mod_lt w (by omega),rfl⟩
    · have hlt : w/base < w :=
        Nat.div_lt_self (Nat.pos_of_ne_zero fun h0 => hsmall (by rw [h0, Nat.zero_div])) hbase
      exact ih (w/base) hlt (digit (w%base)::p)

variable (out : List UInt8) (zero : Option ℕ) (dg : Option (List UInt8)) (n : ℕ)

theorem hex_number (w : ℕ) (p : List UInt8) (hw : w < 2^16) :
    ∃ j, 0 < j ∧ inet6Loop ⟨out,zero,dg,n,0,0⟩ (temp 1 w++p) = inet6Loop ⟨out,zero,dg,n,j,w⟩ p := by
  obtain ⟨j,v,hj,-,hv,hrun⟩ := loop_number 16 (by decide) le_rfl hexChar (fun _ _ => rfl) out
    zero dg n 3 w p (by decide) (by omega)
  rw [temp_hex, hrun, hv rfl]
  exact ⟨j,hj,rfl⟩

theorem decimal_number (w : UInt8) (p : List UInt8) :
    ∃ j v, 0 < j ∧
      inet6Loop ⟨out,zero,dg,n,0,0⟩ (temp 0 w.toNat++p) =
        inet6Loop ⟨out,zero,dg,n,j,v⟩ p := by
  have hw := w.toNat_lt
  obtain ⟨j,v,hj,-,-,hrun⟩ := loop_number 10 (by decide) (by decide) decimalChar decimal_hex
    out zero dg n 2 w.toNat p (by decide) (by omega)
  rw [temp_decimal, hrun]
  exact ⟨j,v,hj,rfl⟩

/-! The IPv4 part -/

theorem decimal_digit : ∀ d < 10, (48 ≤ decimalChar d ∧ decimalChar d ≤ 57) ∧
    (decimalChar d).toUInt64-48 = UInt64.ofNat d := by
  decide

theorem inet_number (addr : UInt32) (n k w : ℕ) (p : List UInt8) (hk : k < 3)
    (hw : w < 10^(k+1)) :
    inetLoop addr 0 n (tempLoop 10 (by decide) decimalChar w p) =
      inetLoop addr (UInt64.ofNat w) n p := by
  induction k generalizing w p with
  | zero =>
    rw [Nat.zero_add, pow_one] at hw
    obtain ⟨hin,hval⟩ := decimal_digit w hw
    rw [tempLoop, if_pos (Nat.div_eq_of_lt hw), Nat.mod_eq_of_lt hw, inetLoop, if_pos hin, hval]
    simp
  | succ k ih =>
    rw [tempLoop]
    have hmod : w % 10 < 10 := Nat.mod_lt w (by omega)
    obtain ⟨hin,hval⟩ := decimal_digit (w%10) hmod
    split_ifs with hsmall
    · have hmod' : w % 10 = w := Nat.mod_eq_of_lt (by omega)
      rw [inetLoop, if_pos hin, hval, hmod']
      simp
    · have hdiv : w / 10 < 10^(k+1) :=
        Nat.div_lt_of_lt_mul (by rwa [pow_succ, mul_comm] at hw)
      rw [ih (w/10) _ (by omega) hdiv, inetLoop, if_pos hin, hval]
      congr 1
      rw [← UInt64.toNat_inj]
      have hpow : 10^(k+1+1) ≤ 10^3 := Nat.pow_le_pow_right (by decide) (by omega)
      simp only [UInt64.toNat_add, UInt64.toNat_mul, UInt64.toNat_ofNat', UInt64.reduceToNat]
      omega

theorem shift_octet (addr : UInt32) (w : UInt8) :
    ((addr <<< 8)+(UInt64.ofNat w.toNat).toUInt32).toNat = (addr.toNat*256+w.toNat) % 2^32 := by
  have hw := w.toNat_lt
  simp only [UInt32.toNat_add, UInt32.toNat_shiftLeft, UInt64.toNat_toUInt32, UInt64.toNat_ofNat',
    UInt32.reduceToNat, Nat.shiftLeft_eq, Nat.reduceMod, Nat.reducePow]
  omega

theorem octet_small (w : UInt8) : UInt64.ofNat w.toNat < 256 := by
  have hw := w.toNat_lt
  rw [UInt64.lt_iff_toNat_lt, UInt64.toNat_ofNat']
  show w.toNat % 2^64 < 256
  omega

theorem inet_octet (addr : UInt32) (n : ℕ) (w : UInt8) (p : List UInt8) :
    inetLoop addr 0 n (temp 0 w.toNat++46::p) =
      inetLoop ((addr <<< 8)+(UInt64.ofNat w.toNat).toUInt32) 0 (n+1) p := by
  have hw := w.toNat_lt
  rw [temp_decimal, inet_number addr n 2 w.toNat _ (by decide) (by omega), inetLoop,
    if_neg (by decide), if_pos ⟨rfl,octet_small w⟩]

theorem inet_quad (a b c d : UInt8) : (ngxInetAddr (quadText a b c d)).toNat =
    a.toNat*2^24+b.toNat*2^16+c.toNat*2^8+d.toNat := by
  have ha := a.toNat_lt
  have hb := b.toNat_lt
  have hc := c.toNat_lt
  have hd := d.toNat_lt
  have hlast := temp_decimal d.toNat []
  rw [List.append_nil] at hlast
  rw [ngxInetAddr, quadText, inet_octet, inet_octet, inet_octet, hlast,
    inet_number _ _ 2 d.toNat [] (by decide) (by omega), inetLoop, if_neg (by decide),
    if_pos (octet_small d), shift_octet, shift_octet, shift_octet, shift_octet]
  rw [UInt32.toNat_zero]
  omega

theorem high_low (x y : UInt8) (v : ℕ) (h : v % 2^16 = x.toNat*256+y.toNat) :
    high v = x ∧ low v = y := by
  have hx := x.toNat_lt
  have hy := y.toNat_lt
  constructor
  · rw [high, ← UInt8.toNat_inj, UInt8.toNat_ofNat']
    omega
  · rw [low, ← UInt8.toNat_inj, UInt8.toNat_ofNat']
    omega

section Bytes
variable (i : ℕ)

theorem group_bytes : high (group p i) = p.getD i 0 ∧ low (group p i) = p.getD (i+1) 0 := by
  refine high_low _ _ _ ?_
  have hx := (p.getD i 0).toNat_lt
  have hy := (p.getD (i+1) 0).toNat_lt
  rw [group]
  omega

theorem group_lt : group p i < 2^16 := by
  have hx := (p.getD i 0).toNat_lt
  have hy := (p.getD (i+1) 0).toNat_lt
  rw [group]
  omega

end Bytes

theorem read_quad (a b c d : UInt8) (hn : 3 ≤ n) :
    (inet6Loop ⟨out,some 0,some (quadText a b c d),n,0,0⟩ (quadText a b c d)).bind inet6End =
      if a = 255 ∧ b = 255 ∧ c = 255 ∧ d = 255 then none
      else some (List.replicate ((n-2)*2) 0++(out++[a, b, c, d])) := by
  obtain ⟨j,v,hj,hrun⟩ := decimal_number out (some 0) (some (quadText a b c d)) n a
    (46::(temp 0 b.toNat++46::(temp 0 c.toNat++46::temp 0 d.toNat)))
  have hquad := inet_quad a b c d
  have ha := a.toNat_lt
  have hb := b.toNat_lt
  have hc := c.toNat_lt
  have hd := d.toNat_lt
  have hnone : ngxInetAddr (quadText a b c d) = inaddrNone ↔
      a = 255 ∧ b = 255 ∧ c = 255 ∧ d = 255 := by
    rw [← UInt32.toNat_inj, hquad, ← UInt8.toNat_inj, ← UInt8.toNat_inj, ← UInt8.toNat_inj,
      ← UInt8.toNat_inj]
    show _ = 4294967295 ↔ a.toNat = 255 ∧ b.toNat = 255 ∧ c.toNat = 255 ∧ d.toNat = 255
    omega
  have hfirst := high_low a b ((ngxInetAddr (quadText a b c d)).toNat / 0x10000) (by omega)
  have hlast := high_low c d (ngxInetAddr (quadText a b c d)).toNat (by omega)
  have hstart : inet6Loop ⟨out,some 0,some (quadText a b c d),n,0,0⟩ (quadText a b c d) =
      _ := hrun
  rw [hstart, inet6Loop, if_neg (by decide), if_pos ⟨rfl,Nat.ne_of_gt hj⟩,
    if_neg (by show ¬ n < 2; omega), Option.bind_some]
  simp only [hnone]
  split_ifs with hall
  · rfl
  · rw [Option.bind_some, inet6End, if_neg (fun h => Nat.ne_of_gt hj h.1)]
    simp only [hfirst, hlast]
    rw [if_pos (by omega), List.take_zero, List.drop_zero, List.nil_append, Nat.sub_sub]
    simp

/-! Groups -/

theorem drop_group (hlen : p.length = 16) (k : ℕ) (hk : k < 8) :
    p.drop (2*k) = p.getD (2*k) 0::p.getD (2*k+1) 0::p.drop (2*(k+1)) := by
  rw [List.drop_eq_getElem_cons (by omega), List.drop_eq_getElem_cons (by omega),
    List.getD_eq_getElem p 0 (by omega), List.getD_eq_getElem p 0 (by omega)]
  rfl

theorem slice_group (hlen : p.length = 16) (k j : ℕ) (hk : k < 8) :
    (p.drop (2*k)).take (2*(j+1)) =
      [p.getD (2*k) 0, p.getD (2*k+1) 0]++(p.drop (2*(k+1))).take (2*j) := by
  rw [drop_group p hlen k hk]
  rfl

section Groups
variable (p : List UInt8) (zero : Option ℕ) (max n i : ℕ)

theorem ntop_group (hi : i < n) (hzero : zero ≠ some i) :
    ntopLoop p zero max n i =
    temp 1 (group p i)++(if i < 14 then [58] else [])++ntopLoop p zero max n (i+2) := by
  rw [ntopLoop, if_pos hi, if_neg hzero]

variable (z : ℕ)

theorem ntop_zero (hz : 2*z < n) (hmax : 1 ≤ max) :
    ntopLoop p (some (2*z)) max n (2*z) = 58::ntopLoop p (some (2*z)) max n (2*(z+max)) := by
  rw [ntopLoop, if_pos hz, if_pos rfl]
  congr 2
  omega

theorem ntop_end (hi : n ≤ i) : ntopLoop p zero max n i = [] := by
  rw [ntopLoop, if_neg (by omega)]

variable (out t : List UInt8)

theorem group_step (z : Option ℕ) (dg : Option (List UInt8)) (m i : ℕ) (hi : i < n) (hlast : i < 14)
    (hzero : zero ≠ some i) (hm : 2 ≤ m) :
    inet6Loop ⟨out,z,dg,m,0,0⟩ (ntopLoop p zero max n i++t) =
      inet6Loop ⟨out++[p.getD i 0, p.getD (i+1) 0],z,some (ntopLoop p zero max n (i+2)++t),m-1,
        0,0⟩ (ntopLoop p zero max n (i+2)++t) := by
  rw [ntop_group p zero max n i hi hzero, if_pos hlast, List.append_assoc, List.append_assoc]
  obtain ⟨j,hj,hrun⟩ := hex_number out z dg m (group p i)
    ([58]++(ntopLoop p zero max n (i+2)++t)) (group_lt p i)
  rw [hrun, List.singleton_append, inet6Loop, if_pos rfl, if_pos (Nat.ne_of_gt hj),
    if_pos (by show m-1 ≠ 0; omega), (group_bytes p i).1, (group_bytes p i).2]

theorem groups_run (z : Option ℕ) (dg : Option (List UInt8)) (m k j : ℕ) (hn : 2*(k+j) ≤ n)
    (hlast : k+j ≤ 7) (hzero : ∀ i, k ≤ i → i < k+j → zero ≠ some (2*i)) (hm : j < m)
    (hlen : p.length = 16) :
    ∃ dg', inet6Loop ⟨out,z,dg,m,0,0⟩ (ntopLoop p zero max n (2*k)++t) =
      inet6Loop ⟨out++(p.drop (2*k)).take (2*j),z,dg',m-j,0,0⟩
        (ntopLoop p zero max n (2*(k+j))++t) := by
  induction j generalizing out dg m k with
  | zero => exact ⟨dg,by simp⟩
  | succ j ih =>
    obtain ⟨dg',hrun⟩ := ih (out++[p.getD (2*k) 0, p.getD (2*k+1) 0])
      (some (ntopLoop p zero max n (2*k+2)++t)) (m-1) (k+1) (by omega) (by omega)
      (fun i hi hi' => hzero i (by omega) (by omega)) (by omega)
    refine ⟨dg',?_⟩
    rw [group_step p zero max n out t z dg m (2*k) (by omega) (by omega)
      (hzero k le_rfl (by omega)) (by omega)]
    refine hrun.trans ?_
    rw [slice_group p hlen k j (by omega), List.append_assoc, Nat.sub_sub, Nat.add_comm 1 j,
      Nat.add_right_comm k 1 j]
    rfl

end Groups

/-! Runs of zero groups -/

/-- The groups `k` to `l` are zero. -/
def Zeros (p : List UInt8) (k l : ℕ) : Prop := ∀ i, 2*k ≤ i → i < 2*l → p.getD i 0 = 0

/-- The run that is left out of the text, among the first `turns` groups. -/
def Chosen (p : List UInt8) (turns : ℕ) (r : Runs) : Prop :=
  (r.zero = none ∧ r.max = 1) ∨
    ∃ z, r.zero = some (2*z) ∧ 2 ≤ r.max ∧ z+r.max ≤ turns ∧ Zeros p z (z+r.max)

/-- The run that ends at the group `turns`. -/
def Running (p : List UInt8) (turns : ℕ) (r : Runs) : Prop :=
  r.n = 0 ∨ ∃ l, r.last = some (2*l) ∧ l+r.n = turns ∧ Zeros p l turns

variable (turns : ℕ) (r : Runs)

theorem chosen_longest (hchosen : Chosen p turns r) (hrunning : Running p turns r) :
    Chosen p turns r.longest := by
  have hmax : 1 ≤ r.max := by
    rcases hchosen with ⟨-,h⟩ | ⟨-,-,h,-⟩ <;> omega
  rw [Runs.longest]
  split_ifs with hlt
  · rcases hrunning with hn | ⟨l,hlast,hend,hzeros⟩
    · omega
    refine Or.inr ⟨l,hlast,by show 2 ≤ r.n; omega,hend.le,?_⟩
    show Zeros p l (l+r.n)
    rwa [hend]
  · exact hchosen

theorem chosen_weaken (r' : Runs) (h : Chosen p turns r) (hzero : r'.zero = r.zero)
    (hmax : r'.max = r.max) : Chosen p (turns+1) r' := by
  rw [Chosen, hzero, hmax]
  rcases h with h | ⟨z,hz,h2,hle,hzeros⟩
  · exact Or.inl h
  · exact Or.inr ⟨z,hz,h2,by omega,hzeros⟩

theorem turn_kept (hchosen : Chosen p turns r) (hrunning : Running p turns r) :
    Chosen p (turns+1) (runTurn p r (2*turns)) ∧ Running p (turns+1) (runTurn p r (2*turns)) := by
  rw [runTurn]
  by_cases hgroup : p.getD (2*turns) 0 ≠ 0 ∨ p.getD (2*turns+1) 0 ≠ 0
  · rw [if_pos hgroup]
    exact ⟨chosen_weaken p turns _ _ (chosen_longest p turns r hchosen hrunning) rfl rfl,
      Or.inl rfl⟩
  rw [if_neg hgroup]
  rw [not_or, not_not, not_not] at hgroup
  refine ⟨chosen_weaken p turns r _ hchosen rfl rfl,Or.inr ?_⟩
  have hhere : ∀ i, 2*turns ≤ i → i < 2*(turns+1) → p.getD i 0 = 0 := by
    intro i hi hi'
    rcases (show i = 2*turns ∨ i = 2*turns+1 by omega) with rfl | rfl
    · exact hgroup.1
    · exact hgroup.2
  by_cases hn : r.n = 0
  · exact ⟨turns,if_pos hn,by show turns+(r.n+1) = turns+1; omega,hhere⟩
  obtain ⟨l,hlast,hend,hzeros⟩ := hrunning.resolve_left hn
  refine ⟨l,(if_neg hn).trans hlast,by show l+(r.n+1) = turns+1; omega,fun i hi hi' => ?_⟩
  by_cases hlt : i < 2*turns
  · exact hzeros i hi hlt
  · exact hhere i (by omega) hi'

theorem runs_kept : Chosen p turns (runsFrom p turns) ∧ Running p turns (runsFrom p turns) := by
  induction turns with
  | zero => exact ⟨Or.inl ⟨rfl,rfl⟩,Or.inl rfl⟩
  | succ turns ih =>
    have hstep : runsFrom p (turns+1) = runTurn p (runsFrom p turns) (2*turns) := by
      rw [runsFrom, List.range_succ, List.foldl_append, List.foldl_cons, List.foldl_nil, runsFrom]
    rw [hstep]
    exact turn_kept p turns _ ih.1 ih.2

theorem runs_chosen : Chosen p 8 (runs p) :=
  chosen_longest p 8 _ (runs_kept p 8).1 (runs_kept p 8).2

theorem zeros_slice (hlen : p.length = 16) (z max : ℕ) (hle : z+max ≤ 8) (h : Zeros p z (z+max)) :
    (p.drop (2*z)).take (2*max) = List.replicate (2*max) 0 := by
  refine List.eq_replicate_iff.mpr ⟨by simp; omega,fun b hb => ?_⟩
  obtain ⟨i,hi,rfl⟩ := List.mem_iff_getElem.mp hb
  rw [List.length_take, List.length_drop] at hi
  rw [List.getElem_take, List.getElem_drop, ← List.getD_eq_getElem p 0 (by omega)]
  exact h (2*z+i) (by omega) (by omega)

/-! Texts without an IPv4 part -/

theorem read_last (z : Option ℕ) (max m : ℕ) (dg : Option (List UInt8)) (hzero : zero ≠ some 14) :
    ∃ j w, 0 < j ∧ high w = p.getD 14 0 ∧ low w = p.getD 15 0 ∧
      inet6Loop ⟨out,z,dg,m,0,0⟩ (ntopLoop p zero max 16 14) =
        some ⟨out,z,dg,m,j,w⟩ := by
  rw [ntop_group p zero max 16 14 (by decide) hzero, if_neg (by decide),
    ntop_end p zero max 16 16 le_rfl, List.append_nil]
  obtain ⟨j,hj,hrun⟩ := hex_number out z dg m (group p 14) [] (group_lt p 14)
  refine ⟨j,group p 14,hj,(group_bytes p 14).1,(group_bytes p 14).2,?_⟩
  rw [hrun, inet6Loop]

theorem read_plain (hlen : p.length = 16) :
    (inet6Loop ⟨[],none,none,8,0,0⟩ (ntopLoop p none 1 16 0)).bind inet6End = some p := by
  obtain ⟨dg,hrun⟩ := groups_run p none 1 16 [] [] none none 8 0 7 (by decide) (by decide)
    (fun _ _ _ => by simp) (by decide) hlen
  obtain ⟨j,w,hj,hhigh,hlow,hlast⟩ :=
    read_last p ((p.drop 0).take 14) none none 1 1 dg (by simp)
  rw [List.append_nil, List.append_nil, List.nil_append] at hrun
  have hall : (p.drop 0).take 14++[p.getD 14 0, p.getD 15 0] = p := by
    have hend := drop_group p hlen 7 (by decide)
    rw [List.drop_of_length_le (show p.length ≤ 2*(7+1) by omega)] at hend
    rw [List.drop_zero, ← hend, List.take_append_drop]
  rw [hrun, hlast, Option.bind_some, inet6End, if_neg (fun h => Nat.ne_of_gt hj h.1)]
  simp only [hhigh, hlow]
  rw [if_neg (by decide), hall]

theorem read_tail (hlen : p.length = 16) (z max : ℕ) (hmax : 2 ≤ max) (hle : z+max ≤ 8)
    (hzeros : Zeros p z (z+max)) (dg : Option (List UInt8)) (hout : out = p.take (2*z)) :
    (inet6Loop ⟨out,some (2*z),dg,8-z,0,0⟩
      (ntopLoop p (some (2*z)) max 16 (2*(z+max)))).bind inet6End = some p := by
  have hslice := zeros_slice p hlen z max hle hzeros
  have hparts : out++(List.replicate (2*max) 0++p.drop (2*(z+max))) = p := by
    rw [← hslice, hout, Nat.mul_add, ← List.drop_drop, List.take_append_drop,
      List.take_append_drop]
  have houtlen : out.length = 2*z := by
    rw [hout, List.length_take]
    omega
  have hnot : ∀ i, z+max ≤ i → i < 8 → (some (2*z) : Option ℕ) ≠ some (2*i) := by
    intro i hi _ he
    have := Option.some.inj he
    omega
  rcases Nat.lt_or_eq_of_le hle with hlt | heq
  · obtain ⟨dg',hrun⟩ := groups_run p (some (2*z)) max 16 out [] (some (2*z)) dg (8-z) (z+max)
      (7-(z+max)) (by omega) (by omega) (fun i hi hi' => hnot i hi (by omega)) (by omega) hlen
    obtain ⟨j,w,hj,hhigh,hlow,hlast⟩ := read_last p
      (out++(p.drop (2*(z+max))).take (2*(7-(z+max)))) (some (2*z)) (some (2*z)) max
      (8-z-(7-(z+max))) dg' (hnot 7 (by omega) (by decide))
    have hindex : 2*(z+max+(7-(z+max))) = 14 := by omega
    rw [List.append_nil, List.append_nil, hindex] at hrun
    have htail : (p.drop (2*(z+max))).take (2*(7-(z+max)))++[p.getD 14 0, p.getD 15 0] =
        p.drop (2*(z+max)) := by
      have hend := drop_group p hlen 7 (by decide)
      rw [List.drop_of_length_le (show p.length ≤ 2*(7+1) by omega)] at hend
      have hsplit : p.drop (2*7) = (p.drop (2*(z+max))).drop (2*(7-(z+max))) := by
        rw [List.drop_drop]
        congr 1
        omega
      rw [← hend, hsplit, List.take_append_drop]
    rw [hrun, hlast, Option.bind_some, inet6End, if_neg (fun h => Nat.ne_of_gt hj h.1)]
    simp only [hhigh, hlow]
    rw [if_pos (by omega), List.append_assoc out, htail, List.take_left' houtlen,
      List.drop_left' houtlen, List.append_assoc]
    have hcount : (8-z-(7-(z+max))-1)*2 = 2*max := by omega
    rw [hcount, hparts]
  rw [ntop_end p _ max 16 _ (by omega), inet6Loop, Option.bind_some, inet6End,
    if_neg (fun h => by cases h.2)]
  have hzero : high 0 = 0 ∧ low 0 = 0 := by decide
  simp only [hzero]
  rw [if_pos (by omega), List.take_left' houtlen, List.drop_left' houtlen]
  rw [List.drop_of_length_le (show p.length ≤ 2*(z+max) by omega), List.append_nil] at hparts
  have hcount : List.replicate ((8-z-1)*2) (0 : UInt8)++[0,0] = List.replicate (2*max) 0 := by
    have htwo : ([0,0] : List UInt8) = List.replicate 2 0 := rfl
    rw [htwo, List.replicate_append_replicate]
    congr 1
    omega
  rw [List.append_assoc, hcount, hparts]

theorem read_run (hlen : p.length = 16) (z max : ℕ) (hmax : 2 ≤ max) (hle : z+max ≤ 8)
    (hzeros : Zeros p z (z+max)) :
    (inet6Loop ⟨[],none,none,8,0,0⟩ (ntopLoop p (some (2*z)) max 16 0)).bind inet6End = some p := by
  obtain ⟨dg,hrun⟩ := groups_run p (some (2*z)) max 16 [] [] none none 8 0 z (by omega) (by omega)
    (fun i _ hi he => by have := Option.some.inj he; omega) (by omega) hlen
  rw [List.append_nil, List.append_nil, List.nil_append, Nat.zero_add, List.drop_zero,
    ntop_zero p max 16 z (by omega) (by omega)] at hrun
  have hout : (p.take (2*z)).length = 2*z := by
    rw [List.length_take]
    omega
  rw [hrun, inet6Loop, if_pos rfl, if_neg (fun h => h rfl), if_pos rfl]
  simp only [hout]
  exact read_tail p _ hlen z max hmax hle hzeros _ rfl

/-! Texts with an IPv4 part -/

def AllOnes (p : List UInt8) : Prop :=
  p.getD 12 0 = 255 ∧ p.getD 13 0 = 255 ∧ p.getD 14 0 = 255 ∧ p.getD 15 0 = 255

instance (p : List UInt8) : Decidable (AllOnes p) := inferInstanceAs (Decidable (_ ∧ _ ∧ _ ∧ _))

/-- The addresses whose IPv4 part is `255.255.255.255`. -/
def Lost (p : List UInt8) : Prop :=
  p.take 10 = List.replicate 10 0 ∧
    ((p.getD 10 0 = 0 ∧ p.getD 11 0 = 0) ∨ (p.getD 10 0 = 255 ∧ p.getD 11 0 = 255)) ∧ AllOnes p

def Embedded (p : List UInt8) (max : ℕ) : Prop :=
  Zeros p 0 max ∧ ((max = 5 ∧ p.getD 10 0 = 255 ∧ p.getD 11 0 = 255) ∨ max = 6 ∨ max = 7)

theorem embeds_embedded (hchosen : Chosen p 8 r) (h : embeds p r = true) :
    r.zero = some 0 ∧ Embedded p r.max := by
  obtain ⟨hzero,hshape⟩ := of_decide_eq_true h
  refine ⟨hzero,?_,?_⟩
  · rcases hchosen with ⟨hnone,-⟩ | ⟨z,hz,-,-,hzeros⟩
    · rw [hnone] at hzero
      cases hzero
    rw [hz] at hzero
    have hz0 : z = 0 := by
      have := Option.some.inj hzero
      omega
    rwa [hz0, Nat.zero_add] at hzeros
  · rcases hshape with h5 | h6 | h7
    · exact Or.inl h5
    · exact Or.inr (Or.inl h6)
    · exact Or.inr (Or.inr h7.1)

theorem last_bytes (hlen : p.length = 16) :
    p.drop 10 = [p.getD 10 0, p.getD 11 0, p.getD 12 0, p.getD 13 0, p.getD 14 0, p.getD 15 0] := by
  have h5 := drop_group p hlen 5 (by decide)
  have h6 := drop_group p hlen 6 (by decide)
  have h7 := drop_group p hlen 7 (by decide)
  rw [List.drop_of_length_le (show p.length ≤ 2*(7+1) by omega)] at h7
  rw [h7] at h6
  rw [h6] at h5
  exact h5

theorem read_embedded (hlen : p.length = 16) (max : ℕ) (h : Embedded p max) :
    (inet6Loop ⟨[],none,none,8,0,0⟩ (ntopLoop p (some 0) max 12 0++
      quadText (p.getD 12 0) (p.getD 13 0) (p.getD 14 0) (p.getD 15 0))).bind inet6End =
        if AllOnes p then none else some p := by
  obtain ⟨hzeros,hshape⟩ := h
  have hmax : 5 ≤ max ∧ max ≤ 7 := by omega
  have hstart := ntop_zero p max 12 0 (by decide) (by omega)
  rw [Nat.mul_zero, Nat.zero_add] at hstart
  rw [hstart, List.cons_append, inet6Loop, if_pos rfl, if_neg (fun h => h rfl), if_pos rfl]
  have hten : p.take 10 = List.replicate 10 0 :=
    zeros_slice p hlen 0 5 (by decide) (fun i hi hi' => hzeros i hi (by omega))
  have hbytes : List.replicate 10 0++[p.getD 10 0, p.getD 11 0, p.getD 12 0, p.getD 13 0,
      p.getD 14 0, p.getD 15 0] = p := by
    rw [← last_bytes p hlen, ← hten, List.take_append_drop]
  by_cases hfive : max = 5
  · rw [hfive]
    have hstep := group_step p (some 0) 5 12 [] (quadText (p.getD 12 0) (p.getD 13 0)
      (p.getD 14 0) (p.getD 15 0)) (some 0) (some (ntopLoop p (some 0) 5 12 (2*5)++
        quadText (p.getD 12 0) (p.getD 13 0) (p.getD 14 0) (p.getD 15 0))) 8 10 (by decide)
      (by decide) (by decide) (by decide)
    refine (congrArg (·.bind inet6End) hstep).trans ?_
    rw [ntop_end p _ 5 12 _ (by decide), List.nil_append]
    exact (read_quad _ 7 _ _ _ _ (by decide)).trans (if_congr Iff.rfl rfl (congrArg some hbytes))
  have hsix : p.getD 10 0 = 0 ∧ p.getD 11 0 = 0 :=
    ⟨hzeros 10 (by decide) (by omega),hzeros 11 (by decide) (by omega)⟩
  rw [ntop_end p _ max 12 _ (by omega), List.nil_append]
  refine (read_quad _ 8 _ _ _ _ (by decide)).trans (if_congr Iff.rfl rfl (congrArg some ?_))
  rw [hsix.1, hsix.2] at hbytes
  exact hbytes

theorem lost_embedded (hlen : p.length = 16) (h : Lost p) : embeds p (runs p) = true := by
  obtain ⟨hten,hpair,h12,h13,h14,h15⟩ := h
  have hp : p = List.replicate 10 0++[p.getD 10 0, p.getD 11 0,255,255,255,255] := by
    rw [← hten, ← h12]
    conv_rhs => rw [h12]
    have hlast := last_bytes p hlen
    rw [h12, h13, h14, h15] at hlast
    rw [← hlast, List.take_append_drop]
  rcases hpair with ⟨h10,h11⟩ | ⟨h10,h11⟩
  · rw [h10, h11] at hp
    rw [hp]
    decide
  rw [h10, h11] at hp
  rw [hp]
  decide

theorem embedded_lost (hlen : p.length = 16) (max : ℕ) (h : Embedded p max) (hones : AllOnes p) :
    Lost p := by
  obtain ⟨hzeros,hshape⟩ := h
  refine ⟨zeros_slice p hlen 0 5 (by decide) (fun i hi hi' => hzeros i hi (by omega)),?_,hones⟩
  rcases hshape with ⟨-,hpair⟩ | h6 | h7
  · exact Or.inr hpair
  · exact Or.inl ⟨hzeros 10 (by decide) (by omega),hzeros 11 (by decide) (by omega)⟩
  have hzero := hzeros 12 (by decide) (by omega)
  rw [hones.1] at hzero
  exact absurd hzero (by decide)

variable (max : ℕ)

theorem text_head (n : ℕ) (hn : 0 < n) (hzero : zero ≠ some 0) :
    ∃ c t, ntopLoop p zero max n 0 = c::t ∧ c ≠ 58 := by
  rw [ntop_group p zero max n 0 hn hzero, List.append_assoc, temp_hex]
  obtain ⟨d,hd,hhead⟩ := temp_loop_head 16 (by decide) hexChar (group p 0)
    ((if 0 < 14 then [58] else [])++ntopLoop p zero max n (0+2))
  obtain ⟨t,ht⟩ := List.head?_eq_some_iff.mp hhead
  exact ⟨hexChar d,t,ht,(hex_nibble d hd).2.1⟩

variable (t : List UInt8)

theorem addr_colon : ngxInet6Addr (58::t) = (inet6Loop ⟨[],none,none,8,0,0⟩ t).bind inet6End := by
  rw [ngxInet6Addr, if_neg (List.cons_ne_nil 58 t)]
  rfl

theorem addr_other (c : UInt8) (t : List UInt8) (hc : c ≠ 58) :
    ngxInet6Addr (c::t) = (inet6Loop ⟨[],none,none,8,0,0⟩ (c::t)).bind inet6End := by
  rw [ngxInet6Addr, if_neg (List.cons_ne_nil c t)]
  simp only [List.head?_cons, Option.some.injEq, if_neg hc]

theorem plain_round_trip (hlen : p.length = 16) (hchosen : Chosen p 8 r) :
    ngxInet6Addr ((if r.zero = some 0 then [58] else [])++ntopLoop p r.zero r.max 16 0) =
      some p := by
  rcases hchosen with ⟨hzero,hmax⟩ | ⟨z,hzero,hmax,hle,hzeros⟩
  · rw [hzero, hmax, if_neg (fun h => by cases h), List.nil_append]
    obtain ⟨c,t,ht,hc⟩ := text_head p none 1 16 (by decide) (fun h => by cases h)
    have hread := read_plain p hlen
    rw [ht] at hread ⊢
    rw [addr_other c t hc, hread]
  have hread := read_run p hlen z r.max hmax hle hzeros
  rw [hzero]
  by_cases hz : z = 0
  · rw [hz, Nat.mul_zero] at hread ⊢
    rw [if_pos rfl, List.singleton_append, addr_colon, hread]
  have hne : (some (2*z) : Option ℕ) ≠ some 0 := by
    intro h
    have := Option.some.inj h
    omega
  rw [if_neg hne, List.nil_append]
  obtain ⟨c,t,ht,hc⟩ := text_head p (some (2*z)) r.max 16 (by decide) hne
  rw [ht] at hread ⊢
  rw [addr_other c t hc, hread]

theorem embedded_round_trip (len : ℕ) (hlen : p.length = 16) (hroom : 45 ≤ len)
    (hembeds : embeds p (runs p) = true) :
    ngxInet6Addr (ngxInet6Ntop p len) = if AllOnes p then none else some p := by
  obtain ⟨hzero,hembedded⟩ := embeds_embedded p (runs p) (runs_chosen p) hembeds
  rw [ngxInet6Ntop, if_neg (by omega)]
  dsimp only
  rw [if_pos hembeds, if_pos rfl, hzero, if_pos rfl, List.singleton_append, List.cons_append,
    addr_colon, read_embedded p hlen _ hembedded]

/-- An address comes back if and only if it is not written with the IPv4 part
`255.255.255.255`. -/
theorem inet6_round_trip (p : List UInt8) (len : ℕ) (hlen : p.length = 16) (hroom : 45 ≤ len) :
    ngxInet6Addr (ngxInet6Ntop p len) = some p ↔ ¬ Lost p := by
  by_cases hembeds : embeds p (runs p) = true
  · obtain ⟨-,hembedded⟩ := embeds_embedded p (runs p) (runs_chosen p) hembeds
    rw [embedded_round_trip p len hlen hroom hembeds]
    split_ifs with hones
    · exact iff_of_false (fun h => by cases h)
        (fun h => h (embedded_lost p hlen _ hembedded hones))
    · exact iff_of_true rfl (fun h => hones h.2.2)
  refine iff_of_true ?_ (fun h => hembeds (lost_embedded p hlen h))
  rw [ngxInet6Ntop, if_neg (by omega)]
  dsimp only
  rw [if_neg hembeds, if_neg (show ¬ 16 = 12 by decide), List.append_nil]
  exact plain_round_trip p (runs p) hlen (runs_chosen p)

/-- The address `::1`. -/
theorem loopback_round_trip :
    ngxInet6Addr (ngxInet6Ntop (List.replicate 15 0++[1]) 45) = some (List.replicate 15 0++[1]) ↔
      ¬ Lost (List.replicate 15 0++[1]) :=
  inet6_round_trip (List.replicate 15 0++[1]) 45 (by decide) (by decide)

/-- The text of `::ffff:255.255.255.255` cannot be read. -/
theorem broadcast_lost : ¬ ∀ (p : List UInt8) (len : ℕ), p.length = 16 → 45 ≤ len →
    ngxInet6Addr (ngxInet6Ntop p len) = some p := by
  intro hall
  have hread := hall (List.replicate 10 0++[255,255,255,255,255,255]) 45 (by decide)
    (by decide)
  rw [embedded_round_trip _ 45 (by decide) (by decide) (by decide), if_pos (by decide)] at hread
  cases hread

end Nginx.Inet6Text
