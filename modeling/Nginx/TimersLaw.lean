import Nginx.Timers
import Nginx.RbtreeLaw
import Nginx.Runs

/-!
# Timers fire in time

Behind the words there are times that never overflow. As long as the current time and the times
of the timers lie in a span of half a word, the tree is sorted by the times themselves, and a
pass fires the events that are due, the earliest first.
-/

set_option autoImplicit false

namespace Nginx.TimersLaw
open RedBlackTree NgxRbtree RbtreeShape RbtreeLinks RbtreeInsert RbtreeAddition RbtreeRemoval
open RbtreeKept RbtreeLaw Timers

/-! Times without words -/

/-- `due` are the times of the timers, and `asked` those that the last calls asked for. -/
structure Plan where
  clock : ℕ
  due : ℕ → Option ℕ
  asked : ℕ → Option ℕ

def Plan.keys (p : Plan) : Set ℕ := {k | ∃ ev, p.due ev = some k}

def Plan.drop (p : Plan) (ev : ℕ) : Plan :=
  { p with due := Function.update p.due ev none, asked := Function.update p.asked ev none }

def lazyTime (old : Option ℕ) (t : ℕ) : ℕ :=
  match old with
  | none => t
  | some k => if |(t : ℤ)-k| < ngxTimerLazyDelay then k else t

def Plan.call (p : Plan) : Call → Plan
  | .add ev timer =>
    { p with
      due := Function.update p.due ev (some (lazyTime (p.due ev) (p.clock+timer)))
      asked := Function.update p.asked ev (some (p.clock+timer)) }
  | .del ev => p.drop ev

def asks (p : Plan) : Call → Set ℕ
  | .add _ timer => {p.clock+timer}
  | .del _ => ∅

def Near (v a b : ℕ) : Prop := |(a : ℤ)-b| < 2^v

def NearClock (v clock : ℕ) (keys : Set ℕ) : Prop := ∀ k ∈ keys, Near v k clock

def OneSpan (v clock : ℕ) (keys : Set ℕ) : Prop :=
  ∀ k ∈ insert clock keys, ∀ k' ∈ insert clock keys, Near v k k'

/-- A call names an event, deletes only a timer that is set, and keeps to the times allowed. -/
structure Proper (window : ℕ → Set ℕ → Prop) (sentinel : ℕ) (p : Plan) (c : Call) : Prop where
  event : c.event ≠ sentinel
  set : ∀ ev, c = .del ev → (p.due ev).isSome = true
  window : window p.clock (p.keys ∪ asks p c)

/-- The timers and the plan that calls, turns of a pass and the advance of the time lead to -/
inductive Reached (v : ℕ) (window : ℕ → Set ℕ → Prop) : Timers → Plan → Prop where
  | init (nodes : ℕ → Node) (sentinel clock : ℕ) : Reached v window
      (ngxEventTimerInit nodes sentinel (clock % 2^(v+1))) ⟨clock,fun _ => none,fun _ => none⟩
  | call (s s' : Timers) (p : Plan) (c : Call) (h : Reached v window s p)
      (hc : Proper window s.tree.sentinel p c) (hd : Does v s c s') :
      Reached v window s' (p.call c)
  | advance (s : Timers) (p : Plan) (d : ℕ) (h : Reached v window s p)
      (hw : window (p.clock+d) p.keys) : Reached v window
        { s with currentMsec := (s.currentMsec+d) % 2^(v+1) } { p with clock := p.clock+d }
  | turn (s s' : Timers) (p : Plan) (ev : ℕ) (h : Reached v window s p) (hr : Fires v s ev s') :
      Reached v window s' (p.drop ev)

structure Sorted (v : ℕ) (t : Rbtree) (due : ℕ → Option ℕ) : Prop where
  tree : ∃ T, Kept t (fun x => (due x).getD 0) T ∧ ∀ x, x ∈ T.ids ↔ (due x).isSome = true
  key : ∀ x k, due x = some k → t.key x = k % 2^(v+1)

structure Inv (v : ℕ) (s : Timers) (p : Plan) : Prop where
  tree : Sorted v s.tree p.due
  set : ∀ x, s.timerSet x = (p.due x).isSome
  clock : s.currentMsec = p.clock % 2^(v+1)
  asked : ∀ x k, p.due x = some k → ∃ t, p.asked x = some t ∧ |(t : ℤ)-k| < ngxTimerLazyDelay
  span : OneSpan v p.clock p.keys

/-! Differences of words -/

theorem signedDiff_near {v a b : ℕ} (h : Near v a b) :
    signedDiff v (a % 2^(v+1)) (b % 2^(v+1)) = (a : ℤ)-b := by
  obtain ⟨hl,hr⟩ := abs_lt.mp h
  have hp : ((2^(v+1) : ℕ) : ℤ) = 2*2^v := by
    push_cast
    rw [pow_succ, mul_comm]
  have hw : (((a % 2^(v+1) : ℕ) : ℤ)-((b % 2^(v+1) : ℕ) : ℤ)).bmod (2^(v+1)) =
      ((a : ℤ)-b).bmod (2^(v+1)) := by
    rw [Int.natCast_emod, Int.natCast_emod, Int.emod_sub_bmod, Int.sub_emod_bmod]
  rw [signedDiff, hw]
  exact Int.bmod_eq_of_le (by omega) (by omega)

theorem ngxAbs_near {v : ℕ} {d : ℤ} (h : |d| < 2^v) : ngxAbs v d = |d| := by
  obtain ⟨hl,hr⟩ := abs_lt.mp h
  have hp : ((2^(v+1) : ℕ) : ℤ) = 2*2^v := by
    push_cast
    rw [pow_succ, mul_comm]
  rw [ngxAbs]
  split
  · rename_i hd
    rw [abs_of_nonneg hd]
  · rename_i hd
    rw [abs_of_neg (by omega)]
    exact Int.bmod_eq_of_le (by omega) (by omega)

/-! The tree -/

section Tree

variable {v : ℕ} {t : Rbtree} {due : ℕ → Option ℕ}

theorem sorted_init (v : ℕ) (nodes : ℕ → Node) (sentinel : ℕ) :
    Sorted v (ngxRbtreeInit nodes sentinel) fun _ => none :=
  ⟨⟨.leaf,kept_init nodes sentinel _,fun _ => iff_of_false List.not_mem_nil (by rintro ⟨⟩)⟩,
    by rintro _ _ ⟨⟩⟩

theorem sorted_root (h : Sorted v t due) : t.root = t.sentinel ↔ ∀ x, due x = none := by
  obtain ⟨⟨T,hT,hids⟩,_⟩ := h
  obtain ⟨above,hat⟩ := hT.holds
  have hroot : t.root = ptr t.sentinel T := hat.path_at
  constructor
  · intro hr x
    have hx : x ∉ T.ids := by
      cases T with
      | leaf => exact List.not_mem_nil
      | node red l y r => exact absurd (hroot.symm.trans hr) hat.tree_at.1
    rw [hids] at hx
    exact Option.not_isSome_iff_eq_none.mp hx
  · intro hnone
    by_contra hr
    have hm := ptr_mem t.sentinel T (hroot ▸ hr)
    rw [hids, hnone] at hm
    cases hm

theorem sorted_min (h : Sorted v t due) (hr : t.root ≠ t.sentinel) :
    (∃ fuel y, ngxRbtreeMin t fuel t.root = some y) ∧
    ∀ fuel y, ngxRbtreeMin t fuel t.root = some y →
      ∃ k, due y = some k ∧ ∀ x k', due x = some k' → k ≤ k' := by
  obtain ⟨⟨T,hT,hids⟩,_⟩ := h
  obtain ⟨above,hat⟩ := hT.holds
  have hroot : t.root = ptr t.sentinel T := hat.path_at
  have hne : T ≠ .leaf := by
    rintro rfl
    exact hr hroot
  obtain ⟨path,c,y,k,hfill,hbefore,hmin⟩ :=
    rbtree_min t (top above []) T T.ids.length hat.tree_at hne le_rfl
  rw [← hroot] at hmin
  refine ⟨⟨_,y,hmin⟩,fun fuel y' hmin' => ?_⟩
  obtain rfl : y = y' := runs_agree (fun n => ngxRbtreeMin t n t.root)
    (fun n x hx => rbtree_min_more t _ n x hx) _ _ _ _ hmin hmin'
  have hfirst : T.ids = y::(k.ids++behind path) := by
    rw [hfill, fill_ids, hbefore]
    rfl
  obtain ⟨ky,hky⟩ := Option.isSome_iff_exists.mp ((hids y).mp (by rw [hfirst]; simp))
  refine ⟨ky,hky,fun x k' hx => ?_⟩
  have hm := (hids x).mpr (by rw [hx]; rfl)
  have hs := hT.sorted
  rw [hfirst] at hm hs
  rcases List.mem_cons.mp hm with rfl | hm
  · rw [hky] at hx
    exact le_of_eq (Option.some.inj hx)
  · have := (List.pairwise_cons.mp hs).1 x hm
    rwa [hky, hx] at this

variable {ev : ℕ}

theorem sorted_delete (h : Sorted v t due) (hev : (due ev).isSome = true) :
    (∃ t', Deletes t ev t') ∧ ∀ t', Deletes t ev t' → t'.sentinel = t.sentinel ∧
      Sorted v t' (Function.update due ev none) := by
  obtain ⟨⟨T,hT,hids⟩,hkey⟩ := h
  obtain ⟨hex,hall⟩ := delete_kept t _ T ev hT ((hids ev).mpr hev)
  refine ⟨hex,fun t' ht' => ?_⟩
  obtain ⟨hs,hkeys,T',hT',hids'⟩ := hall t' ht'
  have hmem : ∀ x, x ∈ T'.ids ↔ x ≠ ev ∧ x ∈ T.ids := fun x => by
    rw [hids', (kept_nodup t _ T hT).mem_erase_iff]
  refine ⟨hs,⟨T',kept_congr t' _ _ T' hT' fun x hx => ?_,fun x => ?_⟩,fun x k hx => ?_⟩
  · rw [Function.update_of_ne ((hmem x).mp hx).1]
  · rw [hmem, hids]
    by_cases he : x = ev
    · rw [he, Function.update_self]
      exact iff_of_false (fun h => h.1 rfl) (by rintro ⟨⟩)
    · rw [Function.update_of_ne he]
      exact and_iff_right he
  · have he : x ≠ ev := by
      rintro rfl
      rw [Function.update_self] at hx
      cases hx
    rw [Function.update_of_ne he] at hx
    rw [hkeys x he, hkey x k hx]

theorem sorted_insert {ev K : ℕ} (h : Sorted v t due) (hs : ev ≠ t.sentinel)
    (hev : due ev = none) (hnear : ∀ x k, due x = some k → Near v K k) :
    (∃ t', Inserts (timerLess v) (t.setKey ev (K % 2^(v+1))) ev t') ∧
    ∀ t', Inserts (timerLess v) (t.setKey ev (K % 2^(v+1))) ev t' →
      t'.sentinel = t.sentinel ∧ Sorted v t' (Function.update due ev (some K)) := by
  obtain ⟨⟨T,hT,hids⟩,hkey⟩ := h
  have hout : ev ∉ T.ids := by
    rw [hids, hev]
    rintro ⟨⟩
  set u := t.setKey ev (K % 2^(v+1)) with hu
  have hukey : ∀ x, x ≠ ev → u.key x = t.key x := fun x hx => by
    simp [hu, Rbtree.setKey, Rbtree.set, Rbtree.key, hx]
  have huev : u.key ev = K % 2^(v+1) := by
    simp [hu, Rbtree.setKey, Rbtree.set, Rbtree.key]
  -- outside the tree the times are chosen so that they agree with the comparison
  let time : ℕ → ℕ := fun x => if x ∈ T.ids then (due x).getD 0
    else if x = ev then K else if timerLess v u ev x = true then K+1 else K
  have htime : time ev = K := by
    simp only [time, if_neg hout, if_true]
  have hless : ∀ x, timerLess v u ev x = true ↔ time ev < time x := by
    intro x
    rw [htime]
    by_cases hx : x ∈ T.ids
    · obtain ⟨k,hk⟩ := Option.isSome_iff_exists.mp ((hids x).mp hx)
      have hxe : x ≠ ev := fun he => hout (he ▸ hx)
      simp only [time, if_pos hx, hk, Option.getD_some]
      rw [timerLess, decide_eq_true_eq, huev, hukey x hxe, hkey x k hk,
        signedDiff_near (hnear x k hk)]
      omega
    simp only [time, if_neg hx]
    by_cases hxe : x = ev
    · rw [if_pos hxe, hxe, timerLess, decide_eq_true_eq, signedDiff, sub_self, Int.zero_bmod]
      exact iff_of_false (lt_irrefl _) (lt_irrefl _)
    rw [if_neg hxe]
    split
    · rename_i hl
      exact iff_of_true hl (Nat.lt_succ_self K)
    · rename_i hl
      exact iff_of_false hl (lt_irrefl K)
  have hkept : Kept u time T := by
    refine kept_congr u _ _ T (kept_write t _ T ev _ hT hout hs) fun x hx => ?_
    simp only [time, if_pos hx]
  obtain ⟨hex,hall⟩ := insert_kept (timerLess v) u time T ev hkept hout hs hless
  refine ⟨hex,fun t' ht' => ?_⟩
  obtain ⟨hkeys,T',xs,ys,hT',⟨hsplit,_⟩,hids'⟩ := hall t' ht'
  have hmem : ∀ x, x ∈ T'.ids ↔ x = ev ∨ x ∈ T.ids := fun x => by
    rw [hids', hsplit, List.mem_append, List.mem_cons, List.mem_append]
    exact or_left_comm
  refine ⟨hkeys.1,⟨T',kept_congr t' _ _ T' hT' fun x hx => ?_,fun x => ?_⟩,fun x k hx => ?_⟩
  · rcases (hmem x).mp hx with rfl | hx
    · rw [htime, Function.update_self]
      rfl
    · rw [Function.update_of_ne fun he : x = ev => hout (he ▸ hx)]
      simp only [time, if_pos hx]
  · rw [hmem, hids]
    by_cases he : x = ev
    · rw [he, Function.update_self]
      exact iff_of_true (Or.inl rfl) rfl
    · rw [Function.update_of_ne he]
      exact or_iff_right he
  · rw [hkeys.2]
    by_cases he : x = ev
    · rw [he, Function.update_self] at hx
      rw [he, huev, Option.some.inj hx]
    · rw [Function.update_of_ne he] at hx
      rw [hukey x he, hkey x k hx]

end Tree

/-! Steps -/

section Steps

variable {v : ℕ} {s s' : Timers} {p : Plan}

theorem span_mono {clock : ℕ} {keys keys' : Set ℕ} (h : OneSpan v clock keys)
    (hk : keys' ⊆ keys) : OneSpan v clock keys' :=
  fun k hm k' hm' => h k (hm.imp_right fun h => hk h) k' (hm'.imp_right fun h => hk h)

theorem drop_keys (p : Plan) (ev : ℕ) : (p.drop ev).keys ⊆ p.keys := by
  rintro k ⟨x,hx⟩
  have hx : Function.update p.due ev none x = some k := hx
  by_cases he : x = ev
  · rw [he, Function.update_self] at hx
    cases hx
  · rw [Function.update_of_ne he] at hx
    exact ⟨x,hx⟩

theorem call_keys (p : Plan) (c : Call) : (p.call c).keys ⊆ p.keys ∪ asks p c := by
  cases c with
  | del ev => exact fun k hk => Or.inl (drop_keys p ev hk)
  | add ev timer =>
    rintro k ⟨x,hx⟩
    have hx : Function.update p.due ev
      (some (lazyTime (p.due ev) (p.clock+timer))) x = some k := hx
    by_cases he : x = ev
    · rw [he, Function.update_self] at hx
      obtain rfl := Option.some.inj hx
      cases hk : p.due ev with
      | none => exact Or.inr rfl
      | some k =>
        simp only [lazyTime]
        split
        · exact Or.inl ⟨ev,hk⟩
        · exact Or.inr rfl
    · rw [Function.update_of_ne he] at hx
      exact Or.inl ⟨x,hx⟩

variable {ev : ℕ}

theorem drop_asked
    (h : ∀ x k, p.due x = some k → ∃ t, p.asked x = some t ∧ |(t : ℤ)-k| < ngxTimerLazyDelay) :
    ∀ x k, (p.drop ev).due x = some k →
      ∃ t, (p.drop ev).asked x = some t ∧ |(t : ℤ)-k| < ngxTimerLazyDelay := by
  intro x k hx
  simp only [Plan.drop] at hx ⊢
  by_cases he : x = ev
  · rw [he, Function.update_self] at hx
    cases hx
  · rw [Function.update_of_ne he] at hx ⊢
    exact h x k hx

theorem update_isSome {β : Type} (f : ℕ → Option β) (ev x : ℕ) (o : Option β) :
    Function.update (fun y => (f y).isSome) ev o.isSome x = (Function.update f ev o x).isSome := by
  by_cases he : x = ev
  · rw [he, Function.update_self, Function.update_self]
  · rw [Function.update_of_ne he, Function.update_of_ne he]

theorem del_spec (h : Inv v s p) (hev : (p.due ev).isSome = true) :
    (∃ fuel s', ngxEventDelTimer fuel s ev = some s') ∧
    ∀ fuel s', ngxEventDelTimer fuel s ev = some s' → Inv v s' (p.drop ev) ∧
      s'.tree.sentinel = s.tree.sentinel := by
  obtain ⟨⟨t',fuel,hrun⟩,hall⟩ := sorted_delete h.tree hev
  constructor
  · exact ⟨fuel,_,Option.map_eq_some_iff.mpr ⟨t',hrun,rfl⟩⟩
  · intro fuel s' hs'
    obtain ⟨t',hrun,rfl⟩ := Option.map_eq_some_iff.mp hs'
    obtain ⟨hsentinel,hsorted⟩ := hall t' ⟨fuel,hrun⟩
    refine ⟨⟨hsorted,fun x => ?_,h.clock,drop_asked h.asked,span_mono h.span (drop_keys p ev)⟩,
      hsentinel⟩
    rw [funext h.set]
    exact update_isSome p.due ev x none

theorem insert_spec (h : Inv v s p) {ev K : ℕ} (hs : ev ≠ s.tree.sentinel)
    (hev : p.due ev = none) (hspan : OneSpan v p.clock (p.keys ∪ {K})) :
    (∃ fuel s', insertTimer v fuel s ev (K % 2^(v+1)) = some s') ∧
    ∀ fuel s', insertTimer v fuel s ev (K % 2^(v+1)) = some s' →
      Sorted v s'.tree (Function.update p.due ev (some K)) ∧
      (∀ x, s'.timerSet x = (Function.update p.due ev (some K) x).isSome) ∧
      s'.currentMsec = s.currentMsec := by
  have hnear : ∀ x k, p.due x = some k → Near v K k := fun x k hx =>
    hspan K (Or.inr (Or.inr rfl)) k (Or.inr (Or.inl ⟨x,hx⟩))
  obtain ⟨⟨t',fuel,hrun⟩,hall⟩ := sorted_insert h.tree hs hev hnear
  constructor
  · exact ⟨fuel,_,Option.map_eq_some_iff.mpr ⟨t',hrun,rfl⟩⟩
  · intro fuel s' hs'
    obtain ⟨t',hrun,rfl⟩ := Option.map_eq_some_iff.mp hs'
    refine ⟨(hall t' ⟨fuel,hrun⟩).2,fun x => ?_,rfl⟩
    rw [funext h.set]
    exact update_isSome p.due ev x (some K)

theorem del_more {fuel ev : ℕ} (k : ℕ) (h : ngxEventDelTimer fuel s ev = some s') :
    ngxEventDelTimer (fuel+k) s ev = some s' := by
  obtain ⟨t',hrun,rfl⟩ := Option.map_eq_some_iff.mp h
  exact Option.map_eq_some_iff.mpr ⟨t',runs_more (fun n => ngxRbtreeDelete n s.tree ev)
    (fun n u hu => rbtree_delete_more s.tree ev n u hu) _ _ _ hrun,rfl⟩

theorem insert_more {fuel ev key : ℕ} (k : ℕ) (h : insertTimer v fuel s ev key = some s') :
    insertTimer v (fuel+k) s ev key = some s' := by
  obtain ⟨t',hrun,rfl⟩ := Option.map_eq_some_iff.mp h
  exact Option.map_eq_some_iff.mpr ⟨t',runs_more
    (fun n => ngxRbtreeInsert (timerLess v) n (s.tree.setKey ev key) ev)
    (fun n u hu => rbtree_insert_more _ _ ev n u hu) _ _ _ hrun,rfl⟩

theorem add_asked (h : Inv v s p) {ev t k : ℕ} (hk : |(t : ℤ)-k| < ngxTimerLazyDelay) :
    ∀ x k', Function.update p.due ev (some k) x = some k' →
      ∃ t', Function.update p.asked ev (some t) x = some t' ∧
        |(t' : ℤ)-k'| < ngxTimerLazyDelay := by
  intro x k' hx
  by_cases he : x = ev
  · rw [he, Function.update_self] at hx ⊢
    obtain rfl := Option.some.inj hx
    exact ⟨t,rfl,hk⟩
  · rw [Function.update_of_ne he] at hx ⊢
    exact h.asked x k' hx

theorem asked_self (t : ℕ) : |(t : ℤ)-t| < ngxTimerLazyDelay := by
  rw [sub_self, abs_zero]
  decide

theorem add_spec (h : Inv v s p) {ev timer : ℕ} (hs : ev ≠ s.tree.sentinel)
    (hspan : OneSpan v p.clock (p.keys ∪ {p.clock+timer})) :
    (∃ fuel s', ngxEventAddTimer v fuel s ev timer = some s') ∧
    ∀ fuel s', ngxEventAddTimer v fuel s ev timer = some s' →
      Inv v s' (p.call (.add ev timer)) := by
  have hw : (s.currentMsec+timer) % 2^(v+1) = (p.clock+timer) % 2^(v+1) := by
    rw [h.clock, Nat.mod_add_mod]
  have hcall : OneSpan v p.clock (p.call (.add ev timer)).keys := span_mono hspan (call_keys p _)
  cases hdue : p.due ev with
  | none =>
    have hadd : ∀ fuel, ngxEventAddTimer v fuel s ev timer =
        insertTimer v fuel s ev ((p.clock+timer) % 2^(v+1)) := by
      intro fuel
      rw [ngxEventAddTimer, hw, h.set, hdue]
      rfl
    have hlazy : lazyTime (p.due ev) (p.clock+timer) = p.clock+timer := by rw [hdue, lazyTime]
    obtain ⟨⟨fuel,s',hrun⟩,hall⟩ := insert_spec h hs hdue hspan
    refine ⟨⟨fuel,s',(hadd fuel).trans hrun⟩,fun fuel s' hs' => ?_⟩
    obtain ⟨htree,hset,hclock⟩ := hall fuel s' ((hadd fuel).symm.trans hs')
    rw [Plan.call, hlazy] at hcall ⊢
    exact ⟨htree,hset,hclock.trans h.clock,add_asked h (asked_self _),hcall⟩
  | some k =>
    have hnear : Near v (p.clock+timer) k :=
      hspan _ (Or.inr (Or.inr rfl)) k (Or.inr (Or.inl ⟨ev,hdue⟩))
    have hadd : ∀ fuel, ngxEventAddTimer v fuel s ev timer =
        if |((p.clock+timer : ℕ) : ℤ)-k| < ngxTimerLazyDelay then some s
        else (ngxEventDelTimer fuel s ev).bind fun s =>
          insertTimer v fuel s ev ((p.clock+timer) % 2^(v+1)) := by
      intro fuel
      rw [ngxEventAddTimer, hw, h.set, hdue, h.tree.key ev k hdue, signedDiff_near hnear,
        ngxAbs_near hnear]
      rfl
    by_cases hk : |((p.clock+timer : ℕ) : ℤ)-k| < ngxTimerLazyDelay
    · have hlazy : lazyTime (p.due ev) (p.clock+timer) = k := by rw [hdue, lazyTime, if_pos hk]
      have hsame : Function.update p.due ev (some k) = p.due := by
        rw [← hdue, Function.update_eq_self]
      refine ⟨⟨0,s,(hadd 0).trans (if_pos hk)⟩,fun fuel s' hs' => ?_⟩
      rw [hadd, if_pos hk] at hs'
      obtain rfl := Option.some.inj hs'
      rw [Plan.call, hlazy] at hcall ⊢
      refine ⟨?_,fun x => ?_,h.clock,add_asked h hk,hcall⟩
      · rw [hsame]
        exact h.tree
      · rw [hsame]
        exact h.set x
    have hlazy : lazyTime (p.due ev) (p.clock+timer) = p.clock+timer := by
      rw [hdue, lazyTime, if_neg hk]
    have hisSome : (p.due ev).isSome = true := by rw [hdue]; rfl
    obtain ⟨⟨fuel₁,s₁,hdel⟩,hdall⟩ := del_spec h hisSome
    have hspan' : OneSpan v (p.drop ev).clock ((p.drop ev).keys ∪ {p.clock+timer}) :=
      span_mono hspan (Set.union_subset_union_left _ (drop_keys p ev))
    have hnone : (p.drop ev).due ev = none := Function.update_self ..
    have hback : Function.update (p.drop ev).due ev (some (p.clock+timer)) =
        Function.update p.due ev (some (p.clock+timer)) := Function.update_idem ..
    constructor
    · obtain ⟨h₁,hs₁⟩ := hdall fuel₁ s₁ hdel
      obtain ⟨⟨fuel₂,s₂,hins⟩,_⟩ := insert_spec h₁ (hs₁.symm ▸ hs) hnone hspan'
      refine ⟨fuel₁+fuel₂,s₂,?_⟩
      rw [hadd, if_neg hk, del_more fuel₂ hdel, Option.bind_some, Nat.add_comm]
      exact insert_more fuel₁ hins
    · intro fuel s' hs'
      rw [hadd, if_neg hk] at hs'
      obtain ⟨s₁,hdel,hins⟩ := Option.bind_eq_some_iff.mp hs'
      obtain ⟨h₁,hs₁⟩ := hdall fuel s₁ hdel
      obtain ⟨htree,hset,hclock⟩ := (insert_spec h₁ (hs₁.symm ▸ hs) hnone hspan').2 fuel s' hins
      rw [hback] at htree hset
      rw [Plan.call, hlazy] at hcall ⊢
      exact ⟨htree,hset,hclock.trans h₁.clock,add_asked h (asked_self _),hcall⟩

/-- The turn of a pass takes the event with the least time when this is not after the current
one, and ends the pass otherwise. -/
theorem turn_spec (h : Inv v s p) :
    (∃ fuel r, expireTurn v fuel s = some r) ∧
    (Ends v s → ∀ ev k, p.due ev = some k → p.clock < k) ∧
    ∀ ev s', Fires v s ev s' → Inv v s' (p.drop ev) ∧
      ∃ k, p.due ev = some k ∧ k ≤ p.clock ∧ ∀ x k', p.due x = some k' → k ≤ k' := by
  by_cases hr : s.tree.root = s.tree.sentinel
  · have hnone := (sorted_root h.tree).mp hr
    refine ⟨⟨0,_,if_pos hr⟩,fun _ ev k hev => ?_,fun ev s' hf => ?_⟩
    · rw [hnone] at hev
      cases hev
    · obtain ⟨fuel,hf⟩ := hf
      rw [expireTurn, if_pos hr] at hf
      cases hf
  obtain ⟨⟨fuel,y,hmin⟩,hleast⟩ := sorted_min h.tree hr
  have hcmp : ∀ {y k}, p.due y = some k →
      (signedDiff v (s.tree.key y) s.currentMsec ≤ 0 ↔ k ≤ p.clock) := by
    intro y k hy
    have hnear : Near v k p.clock := h.span k (Or.inr ⟨y,hy⟩) _ (Or.inl rfl)
    rw [h.tree.key y k hy, h.clock, signedDiff_near hnear]
    omega
  refine ⟨?_,fun he => ?_,fun ev s' hf => ?_⟩
  · obtain ⟨k,hy,_⟩ := hleast fuel y hmin
    by_cases hk : k ≤ p.clock
    · have hset : (p.due y).isSome = true := by rw [hy]; rfl
      obtain ⟨⟨t',fuel',hdel⟩,_⟩ := sorted_delete h.tree hset
      have hmin' := runs_more (fun n => ngxRbtreeMin s.tree n s.tree.root)
        (fun n x hx => rbtree_min_more s.tree _ n x hx) _ fuel' _ hmin
      have hdel' := runs_more (fun n => ngxRbtreeDelete n s.tree y)
        (fun n x hx => rbtree_delete_more s.tree y n x hx) _ fuel _ hdel
      rw [Nat.add_comm] at hdel'
      refine ⟨fuel+fuel',Option.isSome_iff_exists.mp ?_⟩
      rw [expireTurn, if_neg hr, hmin', Option.bind_some, if_pos ((hcmp hy).mpr hk), hdel']
      rfl
    · refine ⟨fuel,none,?_⟩
      rw [expireTurn, if_neg hr, hmin, Option.bind_some, if_neg ((hcmp hy).not.mpr hk)]
  · obtain ⟨fuel,he⟩ := he
    rw [expireTurn, if_neg hr] at he
    obtain ⟨y,hmin,he⟩ := Option.bind_eq_some_iff.mp he
    obtain ⟨k,hy,hle⟩ := hleast fuel y hmin
    intro ev k' hev
    refine lt_of_lt_of_le (not_le.mp fun hk => ?_) (hle ev k' hev)
    rw [if_pos ((hcmp hy).mpr hk)] at he
    obtain ⟨_,_,he⟩ := Option.map_eq_some_iff.mp he
    cases he
  · obtain ⟨fuel,hf⟩ := hf
    rw [expireTurn, if_neg hr] at hf
    obtain ⟨y,hmin,hf⟩ := Option.bind_eq_some_iff.mp hf
    obtain ⟨k,hy,hle⟩ := hleast fuel y hmin
    by_cases hk : k ≤ p.clock
    · rw [if_pos ((hcmp hy).mpr hk)] at hf
      obtain ⟨t',hdel,hf⟩ := Option.map_eq_some_iff.mp hf
      obtain ⟨rfl,rfl⟩ := Prod.mk.inj (Option.some.inj hf)
      have hset : (p.due y).isSome = true := by rw [hy]; rfl
      have hsorted := ((sorted_delete h.tree hset).2 t' ⟨fuel,hdel⟩).2
      refine ⟨⟨hsorted,fun x => ?_,h.clock,drop_asked h.asked,
        span_mono h.span (drop_keys p y)⟩,k,hy,hk,hle⟩
      rw [funext h.set]
      exact update_isSome p.due y x none
    · rw [if_neg ((hcmp hy).not.mpr hk)] at hf
      cases hf

theorem call_spec (h : Inv v s p) {c : Call} (hc : Proper (OneSpan v) s.tree.sentinel p c) :
    (∃ s', Does v s c s') ∧ ∀ s', Does v s c s' → Inv v s' (p.call c) := by
  cases c with
  | add ev timer =>
    obtain ⟨⟨fuel,s',hrun⟩,hall⟩ := add_spec h hc.event hc.window
    exact ⟨⟨s',fuel,hrun⟩,by rintro s' ⟨fuel,hrun⟩; exact hall fuel s' hrun⟩
  | del ev =>
    obtain ⟨⟨fuel,s',hrun⟩,hall⟩ := del_spec h (hc.set ev rfl)
    exact ⟨⟨s',fuel,hrun⟩,by rintro s' ⟨fuel,hrun⟩; exact (hall fuel s' hrun).1⟩

theorem find_spec (h : Inv v s p) : (∃ fuel r, ngxEventFindTimer v fuel s = some r) ∧
    ∀ fuel r, ngxEventFindTimer v fuel s = some r →
      ((∀ x, p.due x = none) → r = ngxTimerInfinite v) ∧
      ∀ ev k, p.due ev = some k → (∀ x k', p.due x = some k' → k ≤ k') → r = k-p.clock := by
  by_cases hr : s.tree.root = s.tree.sentinel
  · have hnone := (sorted_root h.tree).mp hr
    refine ⟨⟨0,_,if_pos hr⟩,fun fuel r hf => ⟨fun _ => ?_,fun ev k hev => ?_⟩⟩
    · rw [ngxEventFindTimer, if_pos hr] at hf
      exact (Option.some.inj hf).symm
    · rw [hnone] at hev
      cases hev
  obtain ⟨⟨fuel,y,hmin⟩,hleast⟩ := sorted_min h.tree hr
  refine ⟨⟨fuel,_,(if_neg hr).trans (Option.map_eq_some_iff.mpr ⟨y,hmin,rfl⟩)⟩,
    fun fuel r hf => ⟨fun hnone => absurd ((sorted_root h.tree).mpr hnone) hr,
      fun ev k hev hk => ?_⟩⟩
  rw [ngxEventFindTimer, if_neg hr] at hf
  obtain ⟨y,hmin,rfl⟩ := Option.map_eq_some_iff.mp hf
  obtain ⟨ky,hy,hle⟩ := hleast fuel y hmin
  obtain rfl : k = ky := le_antisymm (hk y ky hy) (hle ev k hev)
  have hnear : Near v k p.clock := h.span k (Or.inr ⟨y,hy⟩) _ (Or.inl rfl)
  rw [h.tree.key y k hy, h.clock, signedDiff_near hnear]
  dsimp only
  split
  · omega
  · omega

theorem reached_inv (h : Reached v (OneSpan v) s p) : Inv v s p := by
  induction h with
  | init nodes sentinel clock =>
    refine ⟨sorted_init v nodes sentinel,fun _ => rfl,rfl,by rintro _ _ ⟨⟩,?_⟩
    rintro k (rfl | ⟨_,⟨⟩⟩) k' (rfl | ⟨_,⟨⟩⟩)
    rw [Near, sub_self, abs_zero]
    exact pow_pos (by decide) v
  | call s s' p c _ hc hd ih => exact (call_spec ih hc).2 s' hd
  | advance s p d _ hw ih =>
    refine ⟨ih.tree,ih.set,?_,ih.asked,hw⟩
    rw [ih.clock, Nat.mod_add_mod]
  | turn s s' p ev _ hr ih => exact ((turn_spec ih).2.2 ev s' hr).1

end Steps

/-! Passes -/

/-- A turn of a pass: the event, its time and the calls of its handler -/
structure Turn where
  event : ℕ
  due : Option ℕ
  calls : List Call

inductive Calls (v : ℕ) (window : ℕ → Set ℕ → Prop) :
    Timers → Plan → List Call → Timers → Plan → Prop where
  | nil (s : Timers) (p : Plan) : Calls v window s p [] s p
  | cons (s s₁ s' : Timers) (p p' : Plan) (c : Call) (calls : List Call)
      (hc : Proper window s.tree.sentinel p c) (hd : Does v s c s₁)
      (h : Calls v window s₁ (p.call c) calls s' p') : Calls v window s p (c::calls) s' p'

/-- What handlers do: from their memory, the timers and the event, the calls and the memory left -/
abbrev Handlers (σ : Type) : Type := σ → Timers → ℕ → List Call × σ

/-- `ngx_event_expire_timers`, from the first turn to the end of the loop -/
inductive Pass {σ : Type} (v : ℕ) (window : ℕ → Set ℕ → Prop) (handlers : Handlers σ) :
    σ → Timers → Plan → List Turn → Timers → Plan → Prop where
  | done (m : σ) (s : Timers) (p : Plan) (he : Ends v s) : Pass v window handlers m s p [] s p
  | turn (m : σ) (s s₁ s₂ s' : Timers) (p p₂ p' : Plan) (ev : ℕ) (turns : List Turn)
      (hr : Fires v s ev s₁)
      (hc : Calls v window s₁ (p.drop ev) (handlers m s₁ ev).1 s₂ p₂)
      (h : Pass v window handlers (handlers m s₁ ev).2 s₂ p₂ turns s' p') :
      Pass v window handlers m s p (⟨ev,p.due ev,(handlers m s₁ ev).1⟩::turns) s' p'

def Plan.isDue (p : Plan) (ev : ℕ) : Bool :=
  match p.due ev with
  | none => false
  | some k => k ≤ p.clock

def fired (turns : List Turn) (ev : ℕ) : ℕ := turns.countP fun turn => turn.event = ev

def adds (ev : ℕ) : Call → Bool
  | .add x _ => x = ev
  | .del _ => false

def added (turns : List Turn) (ev : ℕ) : ℕ := (turns.flatMap Turn.calls).countP (adds ev)

/-- What a pass does: it fires the events that are due, by their times, and leaves none that is
due. Apart from what handlers set and delete these are the events that were due at first, each
once; and an event fires again only when a handler has set it again. -/
structure PassLaw (p : Plan) (turns : List Turn) (p' : Plan) : Prop where
  clock : p'.clock = p.clock
  due : ∀ turn ∈ turns, ∃ k, turn.due = some k ∧ k ≤ p.clock
  sorted : turns.Pairwise fun a b => ∀ k k', a.due = some k → b.due = some k' → k ≤ k'
  finished : ∀ ev, p'.isDue ev = false
  exact : ∀ ev, (∀ turn ∈ turns, ∀ c ∈ turn.calls, c.event ≠ ev) →
    fired turns ev = (if p.isDue ev then 1 else 0) ∧
      p'.due ev = if p.isDue ev then none else p.due ev
  once : ∀ ev, fired turns ev ≤ (if (p.due ev).isSome then 1 else 0)+added turns ev

section Passes

variable {v : ℕ} {s s' : Timers} {p p' : Plan}

variable {ev : ℕ}

theorem isDue_iff : p.isDue ev = true ↔ ∃ k, p.due ev = some k ∧ k ≤ p.clock := by
  rw [Plan.isDue]
  cases p.due ev with
  | none => simp
  | some k => simp

theorem isDue_congr (hc : p'.clock = p.clock) (hd : p'.due ev = p.due ev) :
    p'.isDue ev = p.isDue ev := by
  rw [Plan.isDue, Plan.isDue, hc, hd]

theorem call_clock (p : Plan) (c : Call) : (p.call c).clock = p.clock := by
  cases c <;> rfl

theorem call_other {c : Call} (h : c.event ≠ ev) : (p.call c).due ev = p.due ev := by
  cases c with
  | add x timer => exact Function.update_of_ne (Ne.symm h) ..
  | del x => exact Function.update_of_ne (Ne.symm h) ..

theorem call_isSome {c : Call} (h : ((p.call c).due ev).isSome = true) :
    (p.due ev).isSome = true ∨ adds ev c = true := by
  by_cases he : c.event = ev
  · cases c with
    | add x timer => exact Or.inr (decide_eq_true he)
    | del x =>
      obtain rfl : x = ev := he
      have hn : (p.call (.del x)).due x = none := Function.update_self ..
      rw [hn] at h
      cases h
  · rw [call_other he] at h
    exact Or.inl h

structure CallsLaw (p : Plan) (calls : List Call) (p' : Plan) : Prop where
  clock : p'.clock = p.clock
  keys : ∀ k ∈ p'.keys, k ∈ p.keys ∨ p.clock ≤ k
  other : ∀ ev, (∀ c ∈ calls, c.event ≠ ev) → p'.due ev = p.due ev
  isSome : ∀ ev, (p'.due ev).isSome = true →
    (p.due ev).isSome = true ∨ 0 < calls.countP (adds ev)

variable {window : ℕ → Set ℕ → Prop}

theorem calls_law {calls : List Call} (h : Calls v window s p calls s' p') :
    CallsLaw p calls p' := by
  induction h with
  | nil s p => exact ⟨rfl,fun k hk => Or.inl hk,fun _ _ => rfl,fun _ hs => Or.inl hs⟩
  | cons s s₁ s' p p' c calls _ _ _ ih =>
    have hc := call_clock p c
    refine ⟨ih.clock.trans hc,fun k hk => ?_,fun ev hev => ?_,fun ev hev => ?_⟩
    · rcases ih.keys k hk with hk | hk
      · rcases call_keys p c hk with hk | hk
        · exact Or.inl hk
        cases c with
        | add x timer =>
          obtain rfl : k = p.clock+timer := hk
          exact Or.inr (Nat.le_add_right _ _)
        | del x => exact absurd hk (Set.notMem_empty k)
      · exact Or.inr (hc ▸ hk)
    · obtain ⟨hh,ht⟩ := List.forall_mem_cons.mp hev
      rw [ih.other ev ht, call_other hh]
    · rcases ih.isSome ev hev with hs | hs
      · rcases call_isSome hs with hs | hs
        · exact Or.inl hs
        refine Or.inr ?_
        rw [List.countP_cons_of_pos hs]
        exact Nat.succ_pos _
      refine Or.inr (lt_of_lt_of_le hs ?_)
      rw [List.countP_cons]
      exact Nat.le_add_right _ _

theorem calls_reached {calls : List Call} (h : Calls v window s p calls s' p')
    (hr : Reached v window s p) : Reached v window s' p' := by
  induction h with
  | nil s p => exact hr
  | cons s s₁ s' p p' c calls hc hd _ ih => exact ih (.call s s₁ p c hr hc hd)

variable {σ : Type}

theorem pass_keys {handlers : Handlers σ} {m : σ} {turns : List Turn}
    (h : Pass v window handlers m s p turns s' p') :
    ∀ turn ∈ turns, ∀ k, turn.due = some k → k ∈ p.keys ∨ p.clock ≤ k := by
  induction h with
  | done m s p _ => exact fun _ hm => absurd hm List.not_mem_nil
  | turn m s s₁ s₂ s' p p₂ p' ev turns _ hc _ ih =>
    have hcalls := calls_law hc
    rw [List.forall_mem_cons]
    refine ⟨fun k hk => Or.inl ⟨ev,hk⟩,fun turn hm k hk => ?_⟩
    rcases ih turn hm k hk with hk | hk
    · rcases hcalls.keys k hk with hk | hk
      · exact Or.inl (drop_keys p ev hk)
      · exact Or.inr hk
    · exact Or.inr (hcalls.clock ▸ hk)

theorem pass_law {handlers : Handlers σ} {m : σ} {turns : List Turn}
    (h : Pass v (OneSpan v) handlers m s p turns s' p') (hr : Reached v (OneSpan v) s p) :
    PassLaw p turns p' := by
  induction h with
  | done m s p he =>
    have hend : ∀ ev, p.isDue ev = false := by
      intro ev
      rw [← Bool.not_eq_true, isDue_iff]
      rintro ⟨k,hk,hle⟩
      exact absurd ((turn_spec (reached_inv hr)).2.1 he ev k hk) (not_lt.mpr hle)
    refine ⟨rfl,fun _ hm => absurd hm List.not_mem_nil,List.Pairwise.nil,hend,fun ev _ => ?_,
      fun ev => Nat.zero_le _⟩
    rw [hend]
    exact ⟨rfl,rfl⟩
  | turn m s s₁ s₂ s' p p₂ p' ev turns hf hc hp ih =>
    obtain ⟨_,k,hk,hkc,hleast⟩ := (turn_spec (reached_inv hr)).2.2 ev s₁ hf
    have hcalls := calls_law hc
    have ih := ih (calls_reached hc (.turn s s₁ p ev hr hf))
    have hclock : p₂.clock = p.clock := hcalls.clock
    have hself : (p.drop ev).due ev = none := Function.update_self ..
    have hother : ∀ x, x ≠ ev → (p.drop ev).due x = p.due x := fun x hx =>
      Function.update_of_ne hx ..
    have hdue : p.isDue ev = true := isDue_iff.mpr ⟨k,hk,hkc⟩
    refine ⟨ih.clock.trans hclock,?_,?_,ih.finished,fun x hx => ?_,fun x => ?_⟩
    · rw [List.forall_mem_cons]
      exact ⟨⟨k,hk,hkc⟩,fun turn hm => hclock ▸ ih.due turn hm⟩
    · refine List.pairwise_cons.mpr ⟨fun turn hm k₀ k' hk₀ hk' => ?_,ih.sorted⟩
      rw [hk] at hk₀
      obtain rfl := Option.some.inj hk₀
      rcases pass_keys hp turn hm k' hk' with hm' | hm'
      · rcases hcalls.keys k' hm' with ⟨x,hx⟩ | hle
        · by_cases he : x = ev
          · rw [he, hself] at hx
            cases hx
          · rw [hother x he] at hx
            exact hleast x k' hx
        · exact le_trans hkc hle
      · exact le_trans hkc (hclock ▸ hm')
    · obtain ⟨hh,ht⟩ := List.forall_mem_cons.mp hx
      obtain ⟨hfired,hlast⟩ := ih.exact x ht
      have hx₂ := hcalls.other x hh
      by_cases he : x = ev
      · rw [he, hself] at hx₂
        have hnot : p₂.isDue ev = false := by rw [Plan.isDue, hx₂]
        rw [he, hnot] at hfired hlast
        rw [he, hdue, fired, List.countP_cons_of_pos (by simp)]
        exact ⟨congrArg (·+1) hfired,hlast.trans hx₂⟩
      rw [hother x he] at hx₂
      have hsame : p₂.isDue x = p.isDue x := isDue_congr hclock hx₂
      rw [hsame] at hfired hlast
      rw [hx₂] at hlast
      rw [fired, List.countP_cons_of_neg (by simpa using Ne.symm he)]
      exact ⟨hfired,hlast⟩
    · have hone := ih.once x
      have hadded : added (⟨ev,p.due ev,(handlers m s₁ ev).1⟩::turns) x =
          (handlers m s₁ ev).1.countP (adds x)+added turns x := by
        rw [added, List.flatMap_cons, List.countP_append]
        rfl
      have hsome : (if (p₂.due x).isSome then 1 else 0) ≤
          (if ((p.drop ev).due x).isSome then 1 else 0)+(handlers m s₁ ev).1.countP (adds x) := by
        split
        · rename_i hs
          rcases hcalls.isSome x hs with hs | hs
          · rw [if_pos hs]
            omega
          · omega
        · exact Nat.zero_le _
      rw [hadded]
      by_cases he : x = ev
      · rw [he, hself] at hsome
        rw [he] at hone ⊢
        rw [fired, List.countP_cons_of_pos (by simp), hk]
        rw [fired] at hone
        simp only [Option.isSome_none, Bool.false_eq_true, if_false, Option.isSome_some,
          if_true] at hsome ⊢
        omega
      rw [hother x he] at hsome
      rw [fired, List.countP_cons_of_neg (by simpa using Ne.symm he)]
      rw [fired] at hone
      omega

theorem calls_due {calls : List Call} (h : Calls v window s p calls s' p')
    (hpos : ∀ ev timer, .add ev timer ∈ calls → 0 < timer) :
    ∀ ev, p'.isDue ev = true → p.isDue ev = true := by
  induction h with
  | nil s p => exact fun _ hd => hd
  | cons s s₁ s' p p' c calls _ _ _ ih =>
    intro ev hd
    have hd := ih (fun ev timer hm => hpos ev timer (List.mem_cons_of_mem _ hm)) ev hd
    by_cases he : c.event = ev
    · obtain ⟨k,hk,hle⟩ := isDue_iff.mp hd
      rw [call_clock] at hle
      cases c with
      | del x =>
        obtain rfl : x = ev := he
        have hn : (p.call (.del x)).due x = none := Function.update_self ..
        rw [hn] at hk
        cases hk
      | add x timer =>
        obtain rfl : x = ev := he
        have hadd : (p.call (.add x timer)).due x =
          some (lazyTime (p.due x) (p.clock+timer)) := Function.update_self ..
        rw [hadd] at hk
        have ht := hpos x timer List.mem_cons_self
        cases hdue : p.due x with
        | none =>
          rw [hdue] at hk
          have hk : p.clock+timer = k := Option.some.inj hk
          omega
        | some old =>
          rw [hdue] at hk
          have hk : lazyTime (some old) (p.clock+timer) = k := Option.some.inj hk
          simp only [lazyTime] at hk
          split at hk
          · exact isDue_iff.mpr ⟨old,hdue,hk ▸ hle⟩
          · omega
    · rwa [isDue_congr (call_clock p c) (call_other he)] at hd

/-- A pass ends when handlers call properly and set no timer of 0 ms: each turn takes one of the
events that are due. -/
theorem pass_within (handlers : Handlers σ)
    (hproper : ∀ m s p ev, Reached v (OneSpan v) s p → (∃ s' p', Calls v (OneSpan v) s p (handlers
      m s ev).1 s' p') ∧ ∀ x timer, .add x timer ∈ (handlers m s ev).1 → 0 < timer)
    (hr : Reached v (OneSpan v) s p) (m : σ) (evs : List ℕ)
    (hdue : ∀ ev, p.isDue ev = true → ev ∈ evs) :
    ∃ turns s' p', Pass v (OneSpan v) handlers m s p turns s' p' := by
  induction hn : evs.length generalizing evs s p m with
  | zero =>
    obtain ⟨⟨fuel,r,hrun⟩,_,hfires⟩ := turn_spec (reached_inv hr)
    cases r with
    | none => exact ⟨[],s,p,.done m s p ⟨fuel,hrun⟩⟩
    | some r =>
      obtain ⟨_,k,hk,hle,_⟩ := hfires r.1 r.2 ⟨fuel,hrun⟩
      have hm := hdue r.1 (isDue_iff.mpr ⟨k,hk,hle⟩)
      rw [List.length_eq_zero_iff.mp hn] at hm
      cases hm
  | succ n ih =>
    obtain ⟨⟨fuel,r,hrun⟩,_,hfires⟩ := turn_spec (reached_inv hr)
    cases r with
    | none => exact ⟨[],s,p,.done m s p ⟨fuel,hrun⟩⟩
    | some r =>
      obtain ⟨ev,s₁⟩ := r
      obtain ⟨_,k,hk,hle,_⟩ := hfires ev s₁ ⟨fuel,hrun⟩
      have hm := hdue ev (isDue_iff.mpr ⟨k,hk,hle⟩)
      have hr₁ := Reached.turn s s₁ p ev hr ⟨fuel,hrun⟩
      obtain ⟨⟨s₂,p₂,hc⟩,hpos⟩ := hproper m s₁ (p.drop ev) ev hr₁
      have hdue₂ : ∀ x, p₂.isDue x = true → x ∈ evs.erase ev := by
        intro x hx
        have hx := calls_due hc hpos x hx
        by_cases he : x = ev
        · have hself : (p.drop ev).due ev = none := Function.update_self ..
          rw [he, Plan.isDue, hself] at hx
          cases hx
        have hsame : (p.drop ev).isDue x = p.isDue x :=
          isDue_congr rfl (Function.update_of_ne he ..)
        rw [hsame] at hx
        exact (List.mem_erase_of_ne he).mpr (hdue x hx)
      obtain ⟨turns,s',p',hp⟩ := ih (calls_reached hc hr₁) (handlers m s₁ ev).2 (evs.erase ev)
        hdue₂ (by rw [List.length_erase_of_mem hm, hn]; rfl)
      exact ⟨_,s',p',.turn m s s₁ s₂ s' p p₂ p' ev turns ⟨fuel,hrun⟩ hc hp⟩

theorem pass_ends (handlers : Handlers σ)
    (hproper : ∀ m s p ev, Reached v (OneSpan v) s p → (∃ s' p', Calls v (OneSpan v) s p (handlers
      m s ev).1 s' p') ∧ ∀ x timer, .add x timer ∈ (handlers m s ev).1 → 0 < timer)
    (hr : Reached v (OneSpan v) s p) (m : σ) :
    ∃ turns s' p', Pass v (OneSpan v) handlers m s p turns s' p' := by
  obtain ⟨⟨T,_,hids⟩,_⟩ := (reached_inv hr).tree
  refine pass_within handlers hproper hr m T.ids fun ev hd => ?_
  obtain ⟨k,hk,_⟩ := isDue_iff.mp hd
  exact (hids ev).mpr (by rw [hk]; rfl)

end Passes

/-! The law of the timers -/

/-- The tree has the events that are set, each once; calls and turns of a pass end; the timer to
wait for is the time to the earliest; a timer is set for a time less than 300 ms from the one
that was asked for last; and passes fire the events that are due. -/
structure Law (v : ℕ) (s : Timers) (p : Plan) : Prop where
  tree : ∃ xs, InOrder s.tree s.tree.root xs ∧ xs.Nodup ∧ ∀ ev, ev ∈ xs ↔ s.timerSet ev = true
  set : ∀ ev, s.timerSet ev = (p.due ev).isSome
  key : ∀ ev k, p.due ev = some k → s.tree.key ev = k % 2^(v+1)
  asked : ∀ ev k, p.due ev = some k →
    ∃ t, p.asked ev = some t ∧ |(t : ℤ)-k| < ngxTimerLazyDelay
  calls : ∀ c, Proper (OneSpan v) s.tree.sentinel p c → ∃ s', Does v s c s'
  finds : ∃ fuel r, ngxEventFindTimer v fuel s = some r
  find : ∀ fuel r, ngxEventFindTimer v fuel s = some r →
    ((∀ ev, p.due ev = none) → r = ngxTimerInfinite v) ∧
    ∀ ev k, p.due ev = some k → (∀ x k', p.due x = some k' → k ≤ k') → r = k-p.clock
  pass : ∀ (σ : Type) (handlers : Handlers σ) m turns s' p',
    Pass v (OneSpan v) handlers m s p turns s' p' → PassLaw p turns p'
  ends : ∀ (σ : Type) (handlers : Handlers σ),
    (∀ m s p ev, Reached v (OneSpan v) s p →
      (∃ s' p', Calls v (OneSpan v) s p (handlers m s ev).1 s' p') ∧
        ∀ x timer, .add x timer ∈ (handlers m s ev).1 → 0 < timer) →
    ∀ m, ∃ turns s' p', Pass v (OneSpan v) handlers m s p turns s' p'

/-- The law holds in every state of every run whose times stay in a span of half a word. -/
theorem timers_law {v : ℕ} {s : Timers} {p : Plan} (h : Reached v (OneSpan v) s p) :
    Law v s p := by
  have hinv := reached_inv h
  obtain ⟨T,hT,hids⟩ := hinv.tree.tree
  obtain ⟨above,hat⟩ := hT.holds
  refine ⟨⟨T.ids,(holds_balanced _ above T hat hT.sound).inOrder,kept_nodup _ _ T hT,fun ev => ?_⟩,
    hinv.set,hinv.tree.key,hinv.asked,fun c hc => (call_spec hinv hc).1,(find_spec hinv).1,
    (find_spec hinv).2,fun σ handlers m turns s' p' hp => pass_law hp h,
    fun σ handlers hproper m => pass_ends handlers hproper h m⟩
  rw [hids, hinv.set]

theorem near_of {v a b : ℕ} (hl : b < a+2^v) (hr : a < b+2^v) : Near v a b := by
  have hl : (b : ℤ) < a+2^v := by exact_mod_cast hl
  have hr : (a : ℤ) < b+2^v := by exact_mod_cast hr
  exact abs_lt.mpr ⟨by omega,by omega⟩

inductive Step where
  | add (ev timer : ℕ)
  | advance (d : ℕ)
  | turn

/-- A step, with the times asked for so far. -/
def runStep : Timers × Plan × List ℕ → Step → Option (Timers × Plan × List ℕ)
  | (t, p, ks), .add ev timer => (ngxEventAddTimer 63 9 t ev timer).map fun t' =>
      (t', p.call (.add ev timer), (p.clock+timer)::ks)
  | (t, p, ks), .advance d => some ({ t with currentMsec := (t.currentMsec+d) % 2^64 },
      { p with clock := p.clock+d }, ks)
  | (t, p, ks), .turn => (expireTurn 63 9 t).join.map fun r => (r.2, p.drop r.1, ks)

def runCheck (near : ℕ → List ℕ → Bool) (s : Timers × Plan × List ℕ) : Step → Bool
  | .add ev timer =>
    decide (ev ≠ s.1.tree.sentinel) && near s.2.1.clock ((s.2.1.clock+timer)::s.2.2)
  | .advance d => near (s.2.1.clock+d) s.2.2
  | .turn => true

def noTimers : Timers × Plan × List ℕ :=
  (ngxEventTimerInit (fun _ => ⟨0,fun _ => 0,0,false⟩) 1 0, ⟨0,fun _ => none,fun _ => none⟩, [])

theorem run_reached (window : ℕ → Set ℕ → Prop) (near : ℕ → List ℕ → Bool)
    (hnear : ∀ clock ks (keys : Set ℕ), near clock ks = true → (∀ k ∈ keys, k ∈ ks) →
      window clock keys) (as : List Step) (last : Timers × Plan × List ℕ → Bool)
    (h : (Runs.run runStep (runCheck near) noTimers as).any last = true) :
    ∃ s, Reached 63 window s.1 s.2.1 ∧ last s = true := by
  refine (Runs.run_reaches runStep (runCheck near)
    (fun s => Reached 63 window s.1 s.2.1 ∧ ∀ k ∈ s.2.1.keys, k ∈ s.2.2)
    (fun ⟨t,p,ks⟩ a s' ⟨hr,hks⟩ ha h => ?_) as noTimers ⟨.init _ 1 0,by rintro k ⟨_,⟨⟩⟩⟩ last h).imp
    fun s hs => ⟨hs.1.1,hs.2⟩
  cases a with
  | add ev timer =>
    obtain ⟨t',hadd,rfl⟩ := Option.map_eq_some_iff.mp h
    obtain ⟨hev,hw⟩ := Bool.and_eq_true_iff.mp ha
    have hall : ∀ k ∈ p.keys ∪ asks p (.add ev timer), k ∈ (p.clock+timer)::ks := by
      rintro k (hk | rfl)
      · exact List.mem_cons_of_mem _ (hks k hk)
      · exact List.mem_cons_self
    exact ⟨hr.call t t' p (.add ev timer) ⟨of_decide_eq_true hev,nofun,hnear _ _ _ hw hall⟩
      ⟨9,hadd⟩,fun k hk => hall k (call_keys p _ hk)⟩
  | advance d =>
    cases h
    exact ⟨hr.advance t p d (hnear _ _ _ ha hks),hks⟩
  | turn =>
    obtain ⟨⟨ev,t'⟩,hturn,rfl⟩ := Option.map_eq_some_iff.mp h
    exact ⟨hr.turn t t' p ev ⟨9,Option.join_eq_some_iff.mp hturn⟩,
      fun k hk => hks k (drop_keys p ev hk)⟩

/-- Three timers are set, one of them again and lazily, and one fires. -/
theorem three_run : (Runs.run runStep
    (runCheck fun clock ks => (clock::ks).all fun k => decide (k < 2^63)) noTimers
    [.add 2 500, .add 3 400, .add 4 900, .add 2 600, .advance 450, .turn]).any (fun s => decide (
      s.1.timerSet 2 = true ∧ s.1.timerSet 3 = false ∧ s.2.1.due 2 = some 500 ∧
        s.2.1.asked 2 = some 600)) = true := by
  decide +kernel

theorem timers_law_three : ∃ s p, (s.timerSet 2 = true ∧ s.timerSet 3 = false ∧
    p.due 2 = some 500 ∧ p.asked 2 = some 600) ∧ Law 63 s p := by
  obtain ⟨⟨s,p,ks⟩,hs,hlast⟩ := run_reached (OneSpan 63) _ (fun clock ks keys hall hks => by
    have hlt : ∀ k ∈ insert clock keys, k < 2^63 := by
      have hall := List.all_eq_true.mp hall
      rintro k (rfl | hk)
      · exact of_decide_eq_true (hall k List.mem_cons_self)
      · exact of_decide_eq_true (hall k (List.mem_cons_of_mem _ (hks k hk)))
    exact fun k hk k' hk' => near_of (by have := hlt k' hk'; omega) (by have := hlt k hk; omega))
    _ _ three_run
  exact ⟨s,p,of_decide_eq_true hlast,timers_law hs⟩

theorem overdue_run : (Runs.run runStep
    (runCheck fun clock ks => ks.all fun k => decide (clock < k+2^63 ∧ k < clock+2^63)) noTimers
    [.add 2 1, .advance (2^63-1), .add 3 (2^63-1)]).any (fun s => decide (
      (expireTurn 63 9 s.1).map Option.isNone = some true ∧ s.1.timerSet 2 = true ∧ s.2.1.due 2 = some 1 ∧
        1 ≤ s.2.1.clock)) = true := by
  decide +kernel

/-- A timer that is overdue by nearly half a word, and another set for nearly half a word: the
second is taken for the earlier one, and a pass ends without firing the first. -/
theorem overdue_hidden : ∃ s p, Reached 63 (NearClock 63) s p ∧ Ends 63 s ∧
    ∃ ev k, s.timerSet ev = true ∧ p.due ev = some k ∧ k ≤ p.clock := by
  obtain ⟨⟨s,p,ks⟩,hs,hlast⟩ := run_reached (NearClock 63) _ (fun clock ks keys hall hks k hk => by
    obtain ⟨hl,hr⟩ := of_decide_eq_true (List.all_eq_true.mp hall k (hks k hk))
    exact near_of hl hr) _ _ overdue_run
  obtain ⟨hend,hset,hdue,hpast⟩ := of_decide_eq_true hlast
  obtain ⟨r,hr,hnone⟩ := Option.map_eq_some_iff.mp hend
  obtain rfl := Option.isNone_iff_eq_none.mp hnone
  exact ⟨s,p,hs,⟨9,hr⟩,2,1,hset,hdue,hpast⟩

end Nginx.TimersLaw
