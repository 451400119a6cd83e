import Nginx.KernelSendLaw

/-!
# What the kernel is offered

The vectors and the file ranges that a turn of the send loops builds are the front of the
chain, and the loop that moves the positions takes from it what the kernel has taken.
-/

set_option autoImplicit false

namespace Nginx.KernelSendOffers
open Nginx.KernelSend Nginx.KernelSendLaw

section Bytes
variable (mem : ℕ → ℕ) (files : ℕ → ℕ → ℕ) (iovMax page limit : ℕ)

def memoryBytes (b : Buf) : List ℕ :=
  if ngxBufSpecial b then [] else (List.range' b.pos (b.last-b.pos)).map mem

def sendfileBytes (b : Buf) : List ℕ :=
  if ngxBufSpecial b then []
  else if b.inFile then (List.range' b.filePos (b.fileLast-b.filePos)).map (files b.fd)
  else (List.range' b.pos (b.last-b.pos)).map mem

/-- A buffer that `ngx_writev_chain` may be given: not empty unless it is special. -/
def WritevProper (b : Buf) : Prop :=
  ngxBufSpecial b = true ∨ (ngxBufInMemory b = true ∧ b.pos < b.last)

/-- A buffer that `ngx_linux_sendfile_chain` may be given; one that is in memory and in a
file has the same bytes left in both. -/
def SendfileProper (b : Buf) : Prop :=
  ngxBufSpecial b = true ∨ (b.inFile = false ∧ ngxBufInMemory b = true ∧ b.pos < b.last) ∨
    (b.inFile = true ∧ b.filePos < b.fileLast ∧
      (ngxBufInMemory b = true → b.pos ≤ b.last ∧ b.last-b.pos = b.fileLast-b.filePos))

def Adjacent (prev : Option ℕ) (vec : List (ℕ × ℕ)) : Prop :=
  ∀ p, prev = some p → ∃ base len vec', vec = (base, len)::vec' ∧ base+len = p

/-- What the loop that creates the vectors has done with `bs`: the vectors have `bytes` more,
which are those of `pre`, or the first of them when the limit is reached. -/
structure Gathered (stop : Buf → Bool) (bs : List Buf) (vec : List (ℕ × ℕ)) (send : ℕ)
    (r : List (ℕ × ℕ) × ℕ × List Buf) (pre : List Buf) (bytes : List ℕ) : Prop where
  chain : bs = pre++r.2.2
  passed : ∀ b ∈ pre, ngxBufSpecial b = true ∨ stop b = false
  vectors : vecBytes mem r.1 = vecBytes mem vec++bytes
  front : bytes = (pre.flatMap (memoryBytes mem)).take bytes.length
  counted : r.2.1 = send+bytes.length
  within : r.2.1 ≤ limit
  whole : r.2.1 < limit → bytes = pre.flatMap (memoryBytes mem)
  nothing : bytes = [] → r.1 = vec
  stopped : r.2.1 < limit → r.1.length < iovMax → ∀ b ∈ r.2.2.head?,
    ngxBufSpecial b = false ∧ stop b = true

theorem vec_bytes_push (prev : Option ℕ) (vec : List (ℕ × ℕ)) (h : Adjacent prev vec) (pos size : ℕ) :
    vecBytes mem (if prev = some pos then grow size vec else (pos, size)::vec) =
      vecBytes mem vec++(List.range' pos size).map mem ∧
    Adjacent (some (pos+size)) (if prev = some pos then grow size vec else (pos, size)::vec) := by
  split_ifs with hprev
  · obtain ⟨base,len,vec',rfl,hadd⟩ := h pos hprev
    refine ⟨?_,fun p hp => ⟨base,len+size,vec',rfl,?_⟩⟩
    · simp only [grow, vecBytes, List.reverse_cons, List.flatMap_append, List.flatMap_singleton]
      rw [← List.range'_append_1, hadd, List.map_append, List.append_assoc]
    · cases hp
      omega
  · refine ⟨?_,fun p hp => ⟨pos,size,vec,rfl,by cases hp; rfl⟩⟩
    simp only [vecBytes, List.reverse_cons, List.flatMap_append, List.flatMap_singleton]

theorem take_behind (xs ys : List ℕ) (n k : ℕ) (h : xs.length = n) :
    (xs++ys).take (n+k) = xs++ys.take k := by
  rw [← h, List.take_length_add_append]

theorem gather_spec (stop : Buf → Bool) (bs : List Buf) (prev : Option ℕ) (vec : List (ℕ × ℕ))
    (send : ℕ) (h : ∀ b ∈ bs, ngxBufSpecial b = true ∨ stop b = true ∨ b.pos < b.last)
    (hprev : Adjacent prev vec) (hsend : send ≤ limit) :
    ∃ pre bytes, Gathered mem iovMax limit stop bs vec send
      (gather iovMax limit stop bs prev vec send) pre bytes := by
  induction bs generalizing prev vec send with
  | nil =>
    exact ⟨[],[],rfl,nofun,(List.append_nil _).symm,rfl,rfl,hsend,fun _ => rfl,
      fun _ => rfl,fun _ _ => nofun⟩
  | cons b bs ih =>
    have hrest := fun b' hb' => h b' (List.mem_cons_of_mem b hb')
    rw [gather]
    by_cases hroom : vec.length < iovMax ∧ send < limit
    · rw [if_pos hroom]
      by_cases hspecial : ngxBufSpecial b = true
      · rw [if_pos hspecial]
        obtain ⟨pre,bytes,hg⟩ := ih prev vec send hrest hprev hsend
        have hnil : memoryBytes mem b = [] := if_pos hspecial
        refine ⟨b::pre,bytes,?_,?_,hg.vectors,?_,hg.counted,hg.within,?_,hg.nothing,hg.stopped⟩
        · rw [List.cons_append, ← hg.chain]
        · intro b' hb'
          rcases List.mem_cons.mp hb' with rfl | hb'
          · exact Or.inl hspecial
          · exact hg.passed b' hb'
        · rw [List.flatMap_cons, hnil]
          exact hg.front
        · rw [List.flatMap_cons, hnil]
          exact hg.whole
      rw [if_neg hspecial]
      by_cases hstop : stop b = true
      · rw [if_pos hstop]
        exact ⟨[],[],rfl,nofun,(List.append_nil _).symm,rfl,rfl,hsend,fun _ => rfl,
          fun _ => rfl,fun _ _ b' hb' => by cases hb'; exact ⟨eq_false_of_ne_true hspecial,hstop⟩⟩
      rw [if_neg hstop]
      have hlast : b.pos < b.last := by
        rcases h b List.mem_cons_self with hb | hb | hb
        · exact absurd hb hspecial
        · exact absurd hb hstop
        · exact hb
      simp only
      generalize hsize : (if send+(b.last-b.pos) > limit then limit-send else b.last-b.pos) = size
      have hle : size ≤ b.last-b.pos ∧ 0 < size ∧ send+size ≤ limit ∧
          (size = b.last-b.pos ∨ send+size = limit) := by
        split_ifs at hsize <;> omega
      obtain ⟨hbytes,hadjacent⟩ := vec_bytes_push mem prev vec hprev b.pos size
      obtain ⟨pre,bytes,hg⟩ := ih _ _ (send+size) hrest hadjacent hle.2.2.1
      have hown : memoryBytes mem b = (List.range' b.pos (b.last-b.pos)).map mem :=
        if_neg hspecial
      have hlength : ((List.range' b.pos size).map mem++bytes).length = size+bytes.length := by
        simp
      have hsend' := hg.counted
      have hlimit := hg.within
      refine ⟨b::pre,(List.range' b.pos size).map mem++bytes,?_,?_,?_,?_,?_,hg.within,?_,
        ?_,hg.stopped⟩
      · rw [List.cons_append, ← hg.chain]
      · intro b' hb'
        rcases List.mem_cons.mp hb' with rfl | hb'
        · exact Or.inr (eq_false_of_ne_true hstop)
        · exact hg.passed b' hb'
      · rw [hg.vectors, hbytes, List.append_assoc]
      · rw [hlength, List.flatMap_cons, hown]
        rcases hle.2.2.2 with hall | hall
        · rw [take_behind _ _ size _ (by simp [hall]), ← hg.front, hall]
        have hnil : bytes = [] := List.eq_nil_of_length_eq_zero (by omega)
        rw [hnil, List.append_nil, List.length_nil, Nat.add_zero, List.take_append_of_le_length
          (by simp; omega), ← List.map_take, List.take_range'_of_length_ge (by omega)]
      · rw [hlength]
        omega
      · intro hless
        have hall : size = b.last-b.pos := by omega
        rw [List.flatMap_cons, hown, ← hg.whole hless, hall]
      · intro hnil
        have := congrArg List.length hnil
        rw [hlength, List.length_nil] at this
        omega
    rw [if_neg hroom]
    exact ⟨[],[],rfl,nofun,(List.append_nil _).symm,rfl,rfl,hsend,fun _ => rfl,
      fun _ => rfl,fun hless hvec => absurd ⟨hvec,hless⟩ hroom⟩

theorem aligned_bounds (hpage : 0 < page) (x : ℕ) :
    x ≤ (x+page-1)/page*page ∧ (x+page-1)/page*page ≤ x+page-1 := by
  have hdiv := Nat.div_add_mod (x+page-1) page
  have hmod := Nat.mod_lt (x+page-1) hpage
  rw [Nat.mul_comm] at hdiv
  omega

theorem sendfile_bytes_file (b : Buf) (hfile : b.inFile = true) :
    sendfileBytes mem files b =
      (List.range' b.filePos (b.fileLast-b.filePos)).map (files b.fd) := by
  have hspecial : ngxBufSpecial b = false := by
    rw [ngxBufSpecial, hfile]
    simp
  rw [sendfileBytes, hspecial, if_neg Bool.false_ne_true, if_pos hfile]

theorem proper_in_file (b : Buf) (h : SendfileProper b) (hfile : b.inFile = true) :
    b.filePos < b.fileLast := by
  rcases h with h | ⟨h,-⟩ | ⟨-,h,-⟩
  · rw [ngxBufSpecial, hfile] at h
    simp at h
  · rw [hfile] at h
    cases h
  · exact h

theorem range_front (g : ℕ → ℕ) (p n m : ℕ) (xs : List ℕ) (h : m ≤ n) :
    ((List.range' p n).map g++xs).take m = (List.range' p m).map g := by
  rw [List.take_append_of_le_length (by simpa using h), ← List.map_take,
    List.take_range'_of_length_ge h]

theorem file_size_bounds (hpage : 0 < page) (pos last send : ℕ) (hlast : pos < last)
    (hsend : send < limit) (size : ℕ)
    (hsize : (if send+(last-pos) > limit then
      (if (pos+(limit-send)+page-1)/page*page ≤ last then
        (pos+(limit-send)+page-1)/page*page-pos else limit-send) else last-pos) = size) :
    0 < size ∧ size ≤ last-pos ∧ send+size ≤ limit+page-1 ∧
      (send+size < limit → size = last-pos) := by
  obtain ⟨hlow,hhigh⟩ := aligned_bounds page hpage (pos+(limit-send))
  generalize (pos+(limit-send)+page-1)/page*page = aligned at *
  split_ifs at hsize <;> omega

theorem file_loop_spec (hpage : 0 < page) (b : Buf) (bs : List Buf)
    (h : ∀ b' ∈ b::bs, SendfileProper b') (hfile : b.inFile = true) (fileSize send : ℕ)
    (hsend : send < limit) :
    ∃ k, fileLoop page limit b.fd (b::bs) fileSize send = (fileSize+k, send+k) ∧ 0 < k ∧
      send+k ≤ limit+page-1 ∧ (List.range' b.filePos k).map (files b.fd) =
        ((b::bs).flatMap (sendfileBytes mem files)).take k := by
  induction bs generalizing b fileSize send with
  | nil =>
    have hb := proper_in_file b (h b List.mem_cons_self) hfile
    rw [fileLoop]
    generalize hsize : (if send+(b.fileLast-b.filePos) > limit then _ else _) = size
    obtain ⟨hpos,hle,hlimit,-⟩ :=
      file_size_bounds page limit hpage b.filePos b.fileLast send hb hsend size hsize
    refine ⟨size,rfl,hpos,hlimit,?_⟩
    rw [List.flatMap_cons, sendfile_bytes_file mem files b hfile, range_front _ _ _ _ _ hle]
  | cons c bs ih =>
    have hb := proper_in_file b (h b List.mem_cons_self) hfile
    rw [fileLoop]
    generalize hsize : (if send+(b.fileLast-b.filePos) > limit then _ else _) = size
    obtain ⟨hpos,hle,hlimit,hwhole⟩ :=
      file_size_bounds page limit hpage b.filePos b.fileLast send hb hsend size hsize
    by_cases hnext : c.inFile = true ∧ send+size < limit ∧ b.fd = c.fd ∧ b.filePos+size = c.filePos
    · obtain ⟨hcfile,hroom,hfd,hadjacent⟩ := hnext
      obtain ⟨k,hloop,hk,hklimit,hkbytes⟩ := ih c
        (fun b' hb' => h b' (List.mem_cons_of_mem b hb')) hcfile (fileSize+size) (send+size) hroom
      rw [if_pos ⟨hcfile,hroom,hfd,hadjacent⟩, hfd, hloop]
      refine ⟨size+k,by rw [Nat.add_assoc, Nat.add_assoc],by omega,by omega,?_⟩
      have hlength : ((List.range' b.filePos size).map (files c.fd)).length = size := by
        simp
      rw [List.flatMap_cons, sendfile_bytes_file mem files b hfile, ← hwhole hroom, hfd,
        take_behind _ _ size k hlength, ← hkbytes, ← List.range'_append_1, List.map_append, hadjacent]
    rw [if_neg hnext]
    refine ⟨size,rfl,hpos,hlimit,?_⟩
    rw [List.flatMap_cons, sendfile_bytes_file mem files b hfile, range_front _ _ _ _ _ hle]

end Bytes

section Advance
variable (files : Bool) (payload : Buf → List ℕ) (Proper : Buf → Prop) (size : Buf → ℕ)
  (all : Buf → Buf) (some' : ℕ → Buf → Buf)

structure Moves : Prop where
  empty : ∀ b, ngxBufSpecial b = true → payload b = []
  count : ∀ b, Proper b → ngxBufSpecial b = false → (payload b).length = size b ∧ 0 < size b
  wholly : ∀ b, Proper b → ngxBufSpecial b = false → Moved files b (all b) ∧ payload (all b) = []
  partly : ∀ n b, Proper b → ngxBufSpecial b = false → n < size b →
    Moved files b (some' n b) ∧ payload (some' n b) = (payload b).drop n ∧ Proper (some' n b)

theorem advance_spec (hm : Moves files payload Proper size all some') (n : ℕ) (chain : List Buf)
    (h : ∀ b ∈ chain, Proper b) (hn : n ≤ (chain.flatMap payload).length) :
    List.Forall₂ (Moved files) chain
      ((advance size all some' n chain).1++(advance size all some' n chain).2) ∧
    (advance size all some' n chain).1.flatMap payload = [] ∧
    (advance size all some' n chain).2.flatMap payload = (chain.flatMap payload).drop n ∧
    (∀ b ∈ (advance size all some' n chain).2, Proper b) ∧
    ∀ b ∈ (advance size all some' n chain).2.head?, payload b ≠ [] := by
  induction chain generalizing n with
  | nil => exact ⟨List.Forall₂.nil,rfl,(List.drop_nil).symm,nofun,nofun⟩
  | cons b bs ih =>
    have hrest := fun b' hb' => h b' (List.mem_cons_of_mem b hb')
    have hb := h b List.mem_cons_self
    rw [advance]
    by_cases hspecial : ngxBufSpecial b = true
    · have hnil := hm.empty b hspecial
      rw [List.flatMap_cons, hnil, List.nil_append] at hn
      obtain ⟨hmoved,hgone,hleft,hproper,hfirst⟩ := ih n hrest hn
      rw [if_pos hspecial]
      refine ⟨List.Forall₂.cons (moved_refl files b) hmoved,?_,?_,hproper,hfirst⟩
      · rw [List.flatMap_cons, hnil]
        exact hgone
      · rw [List.flatMap_cons, hnil]
        exact hleft
    rw [if_neg hspecial]
    rw [Bool.not_eq_true] at hspecial
    obtain ⟨hlength,hpos⟩ := hm.count b hb hspecial
    have hne : payload b ≠ [] := List.length_pos_iff.mp (by omega)
    by_cases hzero : n = 0
    · rw [if_pos hzero, hzero]
      refine ⟨moved_forall_refl files (b::bs),rfl,rfl,h,fun b' hb' => ?_⟩
      cases hb'
      exact hne
    rw [if_neg hzero]
    by_cases hall : n ≥ size b
    · obtain ⟨hmove,hnil⟩ := hm.wholly b hb hspecial
      rw [List.flatMap_cons, List.length_append, hlength] at hn
      obtain ⟨hmoved,hgone,hleft,hproper,hfirst⟩ := ih (n-size b) hrest (by omega)
      rw [if_pos hall]
      refine ⟨List.Forall₂.cons hmove hmoved,?_,?_,hproper,hfirst⟩
      · rw [List.flatMap_cons, hnil]
        exact hgone
      · rw [List.flatMap_cons, List.drop_append, List.drop_of_length_le (by omega), hlength]
        exact hleft
    rw [if_neg hall]
    obtain ⟨hmove,hdrop,hproper⟩ := hm.partly n b hb hspecial (by omega)
    refine ⟨List.Forall₂.cons hmove (moved_forall_refl files bs),rfl,?_,fun b' hb' => ?_,
      fun b' hb' => ?_⟩
    · rw [List.flatMap_cons, hdrop, List.flatMap_cons, List.drop_append,
        Nat.sub_eq_zero_of_le (by omega), List.drop_zero]
    · rcases List.mem_cons.mp hb' with rfl | hb'
      · exact hproper
      · exact hrest b' hb'
    · cases hb'
      rw [hdrop]
      exact List.length_pos_iff.mp (by rw [List.length_drop]; omega)

end Advance

section Senders
variable (mem : ℕ → ℕ) (files : ℕ → ℕ → ℕ) (iovMax page limit : ℕ)

theorem writev_moves : Moves false (memoryBytes mem) WritevProper (fun b => b.last-b.pos)
    (fun b => { b with pos := b.last }) (fun sent b => { b with pos := b.pos+sent }) := by
  have hproper : ∀ b, WritevProper b → ngxBufSpecial b = false →
      ngxBufInMemory b = true ∧ b.pos < b.last := by
    rintro b (hb | hb) hspecial
    · rw [hspecial] at hb
      cases hb
    · exact hb
  refine ⟨fun b hb => if_pos hb,fun b hb hspecial => ?_,fun b hb hspecial => ?_,
    fun n b hb hspecial hn => ?_⟩
  · obtain ⟨-,hlast⟩ := hproper b hb hspecial
    rw [memoryBytes, hspecial, if_neg Bool.false_ne_true, List.length_map, List.length_range']
    omega
  · obtain ⟨hmemory,hlast⟩ := hproper b hb hspecial
    refine ⟨⟨rfl,Nat.le_of_lt hlast,Nat.le_refl _,fun h => ?_,fun _ => rfl,fun _ => nofun⟩,?_⟩
    · rw [hmemory] at h
      cases h
    · show (if ngxBufSpecial b then [] else (List.range' b.last (b.last-b.last)).map mem) = []
      rw [Nat.sub_self]
      exact ite_self _
  · obtain ⟨hmemory,hlast⟩ := hproper b hb hspecial
    refine ⟨⟨rfl,Nat.le_add_right _ _,Nat.le_refl _,fun h => ?_,fun _ => rfl,fun _ => nofun⟩,?_,
      Or.inr ⟨hmemory,?_⟩⟩
    · rw [hmemory] at h
      cases h
    · show (if ngxBufSpecial b then [] else
        (List.range' (b.pos+n) (b.last-(b.pos+n))).map mem) = (memoryBytes mem b).drop n
      rw [memoryBytes, hspecial, if_neg Bool.false_ne_true, if_neg Bool.false_ne_true,
        ← List.map_drop, List.drop_range', Nat.mul_one, Nat.sub_add_eq]
    · show b.pos+n < b.last
      omega

theorem sendfile_proper (b : Buf) (hb : SendfileProper b) (hspecial : ngxBufSpecial b = false) :
    (b.inFile = false ∧ ngxBufInMemory b = true ∧ b.pos < b.last) ∨
    (b.inFile = true ∧ b.filePos < b.fileLast ∧
      (ngxBufInMemory b = true → b.pos ≤ b.last ∧ b.last-b.pos = b.fileLast-b.filePos)) := by
  rcases hb with hb | hb
  · rw [hspecial] at hb
    cases hb
  · exact hb

theorem sendfile_size (b : Buf) (hb : SendfileProper b) (hspecial : ngxBufSpecial b = false) :
    (sendfileBytes mem files b).length = ngxBufSize b ∧ 0 < ngxBufSize b := by
  rw [sendfileBytes, hspecial, if_neg Bool.false_ne_true, ngxBufSize]
  rcases sendfile_proper b hb hspecial with ⟨hfile,hmemory,hlast⟩ | ⟨hfile,hlast,hboth⟩
  · rw [hfile, hmemory, if_neg Bool.false_ne_true, if_pos rfl, List.length_map, List.length_range']
    omega
  rw [hfile, if_pos rfl, List.length_map, List.length_range']
  split_ifs with hmemory
  · have := hboth hmemory
    omega
  · omega

theorem sendfile_step (n : ℕ) (b : Buf) (hb : SendfileProper b) (hspecial : ngxBufSpecial b = false)
    (b' : Buf)
    (hb' : b' = { b with pos := if ngxBufInMemory b then b.pos+n else b.pos,
                         filePos := if b.inFile then b.filePos+n else b.filePos }) :
    Moved true b b' ∧ sendfileBytes mem files b' = (sendfileBytes mem files b).drop n ∧
      (n < ngxBufSize b → SendfileProper b') := by
  have hpos : b'.pos = if ngxBufInMemory b then b.pos+n else b.pos := by rw [hb']
  have hfilePos : b'.filePos = if b.inFile then b.filePos+n else b.filePos := by rw [hb']
  have hspecial' : ngxBufSpecial b' = false := by
    rw [hb']
    exact hspecial
  have hmemory' : ngxBufInMemory b' = ngxBufInMemory b := by
    rw [hb']
    rfl
  have hfile' : b'.inFile = b.inFile := by rw [hb']
  have hlast' : b'.last = b.last ∧ b'.fileLast = b.fileLast ∧ b'.fd = b.fd := by
    rw [hb']
    exact ⟨rfl,rfl,rfl⟩
  refine ⟨⟨?_,?_,?_,fun hmemory => ?_,fun hfile => ?_,fun hmemory hfile => ?_⟩,?_,
    fun hless => ?_⟩
  · rw [hpos, hfilePos]
    exact hb'
  · rw [hpos]
    split_ifs <;> omega
  · rw [hfilePos]
    split_ifs <;> omega
  · rw [hpos, hmemory, if_neg Bool.false_ne_true]
  · rw [Bool.true_and] at hfile
    rw [hfilePos, hfile, if_neg Bool.false_ne_true]
  · rw [Bool.true_and] at hfile
    rw [hpos, hfilePos, if_pos hmemory, if_pos hfile]
    omega
  · rw [sendfileBytes, hspecial', sendfileBytes, hspecial, hfile', hlast'.1, hlast'.2.1, hlast'.2.2,
      hpos, hfilePos, if_neg Bool.false_ne_true, if_neg Bool.false_ne_true]
    rcases sendfile_proper b hb hspecial with ⟨hfile,hmemory,-⟩ | ⟨hfile,-⟩
    · rw [hfile, hmemory, if_neg Bool.false_ne_true, if_neg Bool.false_ne_true, if_pos rfl,
        ← List.map_drop, List.drop_range', Nat.mul_one, Nat.sub_add_eq]
    · rw [hfile, if_pos rfl, if_pos rfl, if_pos rfl, ← List.map_drop, List.drop_range', Nat.mul_one,
        Nat.sub_add_eq]
  · rw [ngxBufSize] at hless
    right
    rcases sendfile_proper b hb hspecial with ⟨hfile,hmemory,-⟩ | ⟨hfile,hlast,hboth⟩
    · rw [if_pos hmemory] at hless
      refine Or.inl ⟨hfile'.trans hfile,hmemory'.trans hmemory,?_⟩
      rw [hpos, hlast'.1, if_pos hmemory]
      omega
    refine Or.inr ⟨hfile'.trans hfile,?_,fun hmemory => ?_⟩
    · rw [hfilePos, hlast'.2.1, if_pos hfile]
      split_ifs at hless with hmemory
      · have := hboth hmemory
        omega
      · omega
    · rw [hmemory'] at hmemory
      rw [hpos, hfilePos, hlast'.1, hlast'.2.1, if_pos hmemory, if_pos hfile]
      rw [if_pos hmemory] at hless
      have := hboth hmemory
      omega

theorem sendfile_moves : Moves true (sendfileBytes mem files) SendfileProper ngxBufSize
    (fun b => { b with pos := if ngxBufInMemory b then b.last else b.pos,
                       filePos := if b.inFile then b.fileLast else b.filePos })
    (fun sent b => { b with pos := if ngxBufInMemory b then b.pos+sent else b.pos,
                            filePos := if b.inFile then b.filePos+sent else b.filePos }) := by
  refine ⟨fun b hb => if_pos hb,sendfile_size mem files,fun b hb hspecial => ?_,
    fun n b hb hspecial hn => ?_⟩
  · obtain ⟨hlength,-⟩ := sendfile_size mem files b hb hspecial
    obtain ⟨hmoved,hdrop,-⟩ := sendfile_step mem files (ngxBufSize b) b hb hspecial
      { b with pos := if ngxBufInMemory b then b.last else b.pos,
                               filePos := if b.inFile then b.fileLast else b.filePos } (by
        rw [ngxBufSize]
        rcases sendfile_proper b hb hspecial with ⟨hfile,hmemory,hlast⟩ | ⟨hfile,hlast,hboth⟩
        · simp only [hfile, hmemory, if_true, Bool.false_eq_true, if_false, Buf.mk.injEq, and_true]
          omega
        by_cases hmemory : ngxBufInMemory b = true
        · have := hboth hmemory
          simp only [hfile, hmemory, if_true, Buf.mk.injEq, and_true, true_and]
          omega
        simp only [hfile, hmemory, if_true, Bool.false_eq_true, if_false, Buf.mk.injEq, and_true,
          true_and]
        omega)
    refine ⟨hmoved,?_⟩
    rw [hdrop, ← hlength, List.drop_length]
  · obtain ⟨hmoved,hdrop,hproper⟩ :=
      sendfile_step mem files n b hb hspecial _ rfl
    exact ⟨hmoved,hdrop,hproper hn⟩

theorem writev_lawful (hiov : 0 < iovMax) :
    Lawful ⟨limit,writevOffer iovMax limit mem,writevAdvance,true⟩ false (memoryBytes mem)
      WritevProper limit := by
  refine ⟨fun send chain h hsend => ?_,
    fun n chain h hn => advance_spec _ _ _ _ _ _ (writev_moves mem) n chain h hn⟩
  obtain ⟨pre,bytes,hg⟩ := gather_spec mem iovMax limit (fun _ => false) chain none [] send
    (fun b hb => (h b hb).imp id (fun hb' => Or.inr hb'.2)) nofun hsend
  generalize hr : gather iovMax limit (fun _ => false) chain none [] send = r at hg
  have hbytes : vecBytes mem r.1 = bytes := hg.vectors
  refine ⟨⟨bytes,r.2.1,false⟩,?_,?_,hg.counted,hg.within,fun hnil => ?_⟩
  · show writevOffer iovMax limit mem send chain = _
    simp only [writevOffer, hr, hbytes]
  · have hfront := hg.front
    have hle : bytes.length ≤ (pre.flatMap (memoryBytes mem)).length := by
      rw [hfront, List.length_take]
      exact Nat.min_le_right _ _
    rw [hg.chain, List.flatMap_append, List.take_append_of_le_length hle]
    exact hfront
  · by_cases hless : r.2.1 < limit
    · left
      have hrest : r.2.2 = [] := by
        rcases hrest : r.2.2 with _ | ⟨b,bs⟩
        · rfl
        have hvec : r.1.length < iovMax := by
          rw [hg.nothing hnil]
          exact hiov
        exact absurd (hg.stopped hless hvec b (by rw [hrest]; rfl)).2 Bool.false_ne_true
      rw [hg.chain, hrest, List.append_nil, ← hg.whole hless]
      exact hnil
    right
    show limit ≤ r.2.1
    omega

theorem sendfile_memory (b : Buf) (h : ngxBufSpecial b = true ∨ (!ngxBufInMemoryOnly b) = false) :
    sendfileBytes mem files b = memoryBytes mem b := by
  rw [sendfileBytes, memoryBytes]
  rcases h with h | h
  · rw [if_pos h, if_pos h]
  have hfile : b.inFile = false := by
    rw [ngxBufInMemoryOnly] at h
    revert h
    cases b.inFile <;> cases ngxBufInMemory b <;> decide
  rw [hfile, if_neg Bool.false_ne_true]

theorem sendfile_file_offer (hpage : 0 < page) (send : ℕ) (b : Buf) (bs : List Buf)
    (h : ∀ b' ∈ b::bs, SendfileProper b') (hfile : b.inFile = true) (hsend : send < limit) :
    ∃ o : Offer, ((let (fileSize, send) := fileLoop page limit b.fd (b::bs) 0 send
        if fileSize = 0 then none
        else some ⟨(List.range' b.filePos fileSize).map (files b.fd),send,false⟩) : Option Offer) =
        some o ∧ o.bytes = ((b::bs).flatMap (sendfileBytes mem files)).take o.bytes.length ∧
      o.send = send+o.bytes.length ∧ o.send ≤ limit+page-1 ∧ o.bytes ≠ [] := by
  obtain ⟨k,hloop,hk,hlimit,hbytes⟩ :=
    file_loop_spec mem files page limit hpage b bs h hfile 0 send hsend
  have hlength : ((List.range' b.filePos k).map (files b.fd)).length = k := by
    simp
  refine ⟨⟨(List.range' b.filePos k).map (files b.fd),send+k,false⟩,?_,?_,?_,hlimit,?_⟩
  · rw [hloop]
    simp only [Nat.zero_add]
    rw [if_neg (by omega)]
  · rw [hlength]
    exact hbytes
  · rw [hlength]
  · exact List.length_pos_iff.mp (by rw [hlength]; exact hk)

theorem sendfile_lawful (hiov : 0 < iovMax) (hpage : 0 < page) :
    Lawful ⟨limit,sendfileOffer iovMax page limit mem files,sendfileAdvance,false⟩ true
      (sendfileBytes mem files) SendfileProper (limit+page-1) := by
  refine ⟨fun send chain h hsend => ?_,
    fun n chain h hn => advance_spec _ _ _ _ _ _ (sendfile_moves mem files) n chain h hn⟩
  show ∃ o, sendfileOffer iovMax page limit mem files send chain = some o ∧ _
  by_cases hroom : send < limit
  · have hlast : ∀ b ∈ chain, ngxBufSpecial b = true ∨ (!ngxBufInMemoryOnly b) = true ∨
        b.pos < b.last := by
      intro b hb
      rcases h b hb with hs | ⟨-,-,hpos⟩ | ⟨hfile,-⟩
      · exact Or.inl hs
      · exact Or.inr (Or.inr hpos)
      refine Or.inr (Or.inl ?_)
      rw [ngxBufInMemoryOnly, hfile]
      simp
    obtain ⟨pre,bytes,hg⟩ := gather_spec mem iovMax limit (fun b => !ngxBufInMemoryOnly b) chain
      none [] send hlast nofun (Nat.le_of_lt hroom)
    rw [sendfileOffer]
    generalize gather iovMax limit (fun b => !ngxBufInMemoryOnly b) chain none [] send = r at hg
    obtain ⟨vec,send',rest⟩ := r
    have hbytes : vecBytes mem vec = bytes := hg.vectors
    have hpre : pre.flatMap (sendfileBytes mem files) = pre.flatMap (memoryBytes mem) := by
      refine List.flatMap_congr (fun b hb => sendfile_memory mem files b (hg.passed b hb))
    have hchain : chain = pre++rest := hg.chain
    have hfront : bytes = (chain.flatMap (sendfileBytes mem files)).take bytes.length := by
      have hle : bytes.length ≤ (pre.flatMap (sendfileBytes mem files)).length := by
        rw [hpre, hg.front, List.length_take]
        exact Nat.min_le_right _ _
      rw [hchain, List.flatMap_append, List.take_append_of_le_length hle, hpre]
      exact hg.front
    have hcounted : send' = send+bytes.length := hg.counted
    have hwithin : send' ≤ limit := hg.within
    rcases rest with _ | ⟨b,bs⟩
    · refine ⟨⟨vecBytes mem vec,send',false⟩,rfl,?_,?_,?_,fun hnil => ?_⟩
      · rw [hbytes]
        exact hfront
      · rw [hbytes]
        exact hcounted
      · show send' ≤ limit+page-1
        omega
      · by_cases hless : send' < limit
        · left
          rw [hchain, List.append_nil, hpre, ← hg.whole hless, ← hbytes]
          exact hnil
        right
        show limit ≤ send'
        omega
    have hb : SendfileProper b := h b (by rw [hchain]; simp)
    have hstopped : send' < limit → vec.length < iovMax → b.inFile = true := by
      intro hless hvec
      obtain ⟨hspecial,hstop⟩ := hg.stopped hless hvec b rfl
      rcases sendfile_proper b hb hspecial with ⟨hfile,hmemory,-⟩ | ⟨hfile,-⟩
      · have hstop' : (!ngxBufInMemoryOnly b) = true := hstop
        rw [ngxBufInMemoryOnly, hfile, hmemory] at hstop'
        cases hstop'
      · exact hfile
    simp only
    rw [if_neg (fun hnone => by
      have := hstopped hnone.2.1 hnone.1
      have hfile := hnone.2.2.2
      rw [this] at hfile
      cases hfile)]
    by_cases hheader : vec = [] ∧ b.inFile = true ∧ send' < limit
    · rw [if_pos hheader]
      obtain ⟨hvec,hfile,hless⟩ := hheader
      have hnil : bytes = [] := by
        rw [← hbytes, hvec]
        rfl
      have hskip : pre.flatMap (sendfileBytes mem files) = [] := by
        rw [hpre, ← hg.whole hless, hnil]
      have hsame : send' = send := by
        rw [hcounted, hnil]
        rfl
      obtain ⟨o,ho,hobytes,hosend,hocap,hone⟩ := sendfile_file_offer mem files page limit hpage
        send' b bs (fun b' hb' => h b' (by rw [hchain]; exact List.mem_append_right pre hb'))
        hfile hless
      refine ⟨o,ho,?_,?_,hocap,fun h => absurd h hone⟩
      · rw [hchain, List.flatMap_append, hskip]
        exact hobytes
      · rw [← hsame]
        exact hosend
    rw [if_neg hheader]
    refine ⟨⟨vecBytes mem vec,send',decide (vec ≠ [] ∧ b.inFile = true)⟩,rfl,?_,?_,?_,
      fun hnil => ?_⟩
    · rw [hbytes]
      exact hfront
    · rw [hbytes]
      exact hcounted
    · show send' ≤ limit+page-1
      omega
    · right
      by_contra hless
      have hless' : send' < limit := by
        have : ¬limit ≤ send' := hless
        omega
      have hvec : vec = [] := hg.nothing (by rw [← hbytes]; exact hnil)
      exact hheader ⟨hvec,hstopped hless' (by rw [hvec]; exact hiov),hless'⟩
  -- An interrupted call has counted bytes up to the limit.
  have hgather : gather iovMax limit (fun b => !ngxBufInMemoryOnly b) chain none [] send =
      ([], send, chain) := by
    cases chain with
    | nil => rfl
    | cons b bs => rw [gather, if_neg (fun hr => hroom hr.2)]
  rw [sendfileOffer, hgather]
  rcases chain with _ | ⟨b,bs⟩
  · exact ⟨⟨[],send,false⟩,rfl,rfl,rfl,hsend,fun _ => Or.inl rfl⟩
  simp only
  rw [if_neg (fun hnone => hroom hnone.2.1), if_neg (fun hfile => hroom hfile.2.2)]
  refine ⟨_,rfl,rfl,rfl,hsend,fun _ => Or.inr ?_⟩
  show limit ≤ send
  omega

end Senders

theorem at_start (files : Bool) (payload : Buf → List ℕ) (Proper : Buf → Prop) (cap : ℕ)
    (c : Connection) (chain : List Buf) (h : ∀ b ∈ chain, Proper b) :
    At files payload Proper cap c chain ⟨c,[],chain,0,false,[]⟩ := by
  refine ⟨fun pre x post heq => ?_,rfl,Nat.zero_le _,moved_forall_refl files chain,rfl,rfl,h,
    Nat.zero_le _,Nat.zero_le _,rfl⟩
  exact absurd heq.symm (List.append_ne_nil_of_right_ne_nil pre (List.cons_ne_nil x post))

theorem delivered_nothing (files : Bool) (payload : Buf → List ℕ) (cap : ℕ) (c : Connection)
    (chain : List Buf) (hready : c.ready = false) :
    Delivered files payload cap c chain ⟨chain,some chain,c,[]⟩ := by
  refine ⟨fun pre x post heq => ?_,rfl,Nat.zero_le _,moved_forall_refl files chain,rfl,
    fun rest hrest => ?_,fun h => ?_,Nat.zero_le _,rfl⟩
  · exact absurd heq.symm (List.append_ne_nil_of_right_ne_nil pre (List.cons_ne_nil x post))
  · cases hrest
    exact ⟨[],rfl,rfl⟩
  · rw [hready] at h
    cases h

theorem send_loop_law (f : Sender) (files : Bool) (payload : Buf → List ℕ) (Proper : Buf → Prop)
    (cap : ℕ) (c : Connection) (chain : List Buf) (hf : Lawful f files payload Proper cap)
    (hcork : f.sticky = true → ∀ send chain o, f.offer send chain = some o → o.cork = false)
    (h : ∀ b ∈ chain, Proper b) (run : List Round → Option Outcome)
    (hrun : run = fun ks => if c.ready = false then
      (if ks = [] then some ⟨chain,some chain,c,[]⟩ else none)
      else sendLoop f ks ⟨c,[],chain,0,false,[]⟩) :
    (∀ (ks : List Round) o, run ks = some o → Delivered files payload cap c chain o ∧
      (Halts o.calls o ↔ (f.sticky = true → Steady ks))) ∧
    ∀ ks : List Round, cap < ks.length → ∃ n, (run (ks.take n)).isSome := by
  subst hrun
  have hat := at_start files payload Proper cap c chain h
  by_cases hready : c.ready = false
  · simp only [if_pos hready]
    refine ⟨fun ks o ho => ?_,fun ks _ => ⟨0,by rw [List.take_zero]; rfl⟩⟩
    split_ifs at ho with hks
    cases ho
    refine ⟨delivered_nothing files payload cap c chain hready,iff_of_true (halts_nil _) ?_⟩
    intro _
    rw [hks]
    exact List.Pairwise.nil
  simp only [if_neg hready]
  rw [Bool.not_eq_false] at hready
  refine ⟨fun ks o ho => ?_,fun ks hks => ?_⟩
  · have hends := send_loop_ends f ks _ o ho
    obtain ⟨calls,hcalls,-,hiff⟩ := ends_halts f hcork ks _ o hends hready
    refine ⟨ends_delivered f files payload Proper cap c chain hf ks _ o hends hat,?_⟩
    rw [hcalls]
    refine hiff.trans ⟨fun h hsticky => (h hsticky).2,fun h hsticky => ⟨nofun,h hsticky⟩⟩
  · exact send_loop_returns f files payload Proper cap c chain hf ks _ hat (by simpa using hks)

/-- Both functions deliver the first bytes of a chain whatever the kernel answers, and
return once they have offered as many bytes as they may. Behind an offer that was not taken
whole `ngx_linux_sendfile_chain` offers nothing; `ngx_writev_chain` goes on exactly
where an earlier offer has been taken whole. -/
theorem kernel_send (iovMax page : ℕ) (mem : ℕ → ℕ) (files : ℕ → ℕ → ℕ) (c : Connection)
    (chain : List Buf) (limit : ℕ) (hiov : 0 < iovMax) (hpage : 0 < page) :
    ((∀ b ∈ chain, WritevProper b) →
      (∀ (ks : List Round) o, ngxWritevChain iovMax page mem ks c chain limit = some o →
        Delivered false (memoryBytes mem) (effective limit (writevMost page)) c chain o ∧
        (Halts o.calls o ↔ Steady ks)) ∧
      ∀ ks : List Round, effective limit (writevMost page) < ks.length →
        ∃ n, (ngxWritevChain iovMax page mem (ks.take n) c chain limit).isSome) ∧
    ((∀ b ∈ chain, SendfileProper b) →
      (∀ (ks : List Round) o, ngxLinuxSendfileChain iovMax page mem files ks c chain limit = some o →
        Delivered true (sendfileBytes mem files) (effective limit (sendfileMost page)+page-1) c
          chain o ∧ Halts o.calls o) ∧
      ∀ ks : List Round, effective limit (sendfileMost page)+page-1 < ks.length →
        ∃ n, (ngxLinuxSendfileChain iovMax page mem files (ks.take n) c chain limit).isSome) := by
  refine ⟨fun h => ?_,fun h => ?_⟩
  · obtain ⟨hlaw,hreturns⟩ := send_loop_law _ false (memoryBytes mem) WritevProper _ c chain
      (writev_lawful mem iovMax (effective limit (writevMost page)) hiov)
      (fun _ send chain o ho => by cases ho; rfl) h
      (fun ks => ngxWritevChain iovMax page mem ks c chain limit) rfl
    refine ⟨fun ks o ho => ?_,hreturns⟩
    obtain ⟨hdelivered,hiff⟩ := hlaw ks o ho
    exact ⟨hdelivered,hiff.trans ⟨fun h => h rfl,fun h _ => h⟩⟩
  · obtain ⟨hlaw,hreturns⟩ := send_loop_law _ true (sendfileBytes mem files) SendfileProper _ c
      chain (sendfile_lawful mem files iovMax page (effective limit (sendfileMost page)) hiov hpage)
      nofun h (fun ks => ngxLinuxSendfileChain iovMax page mem files ks c chain limit) rfl
    refine ⟨fun ks o ho => ?_,hreturns⟩
    obtain ⟨hdelivered,hiff⟩ := hlaw ks o ho
    exact ⟨hdelivered,hiff.mpr nofun⟩

def oneByte (pos : ℕ) : Buf :=
  ⟨pos,pos+1,0,0,0,true,false,false,false,false,false,false⟩

def fileRange (filePos fileLast : ℕ) : Buf :=
  ⟨0,0,filePos,fileLast,3,false,false,false,true,false,false,false⟩

theorem kernel_send_two :
    ((∀ (ks : List Round) o, ngxWritevChain 16 4096 id ks ⟨true,false,0,.unset,.unset⟩
        [oneByte 10, oneByte 20] 0 = some o →
      Delivered false (memoryBytes id) (effective 0 (writevMost 4096))
        ⟨true,false,0,.unset,.unset⟩ [oneByte 10, oneByte 20] o ∧
      (Halts o.calls o ↔ Steady ks)) ∧
    ∀ (ks : List Round) o, ngxLinuxSendfileChain 16 4096 id (fun _ => id) ks ⟨true,false,0,.unset,.unset⟩
        [oneByte 10, fileRange 100 900] 0 = some o → Halts o.calls o) := by
  have hproper : ∀ b ∈ [oneByte 10, oneByte 20], WritevProper b := by
    intro b hb
    simp only [List.mem_cons, List.not_mem_nil, or_false] at hb
    rcases hb with rfl | rfl <;> exact Or.inr ⟨rfl,by decide⟩
  have hproper' : ∀ b ∈ [oneByte 10, fileRange 100 900], SendfileProper b := by
    intro b hb
    simp only [List.mem_cons, List.not_mem_nil, or_false] at hb
    rcases hb with rfl | rfl
    · exact Or.inr (Or.inl ⟨rfl,rfl,by decide⟩)
    · exact Or.inr (Or.inr ⟨rfl,by decide,nofun⟩)
  exact ⟨((kernel_send 16 4096 id (fun _ => id) ⟨true,false,0,.unset,.unset⟩
      [oneByte 10, oneByte 20] 0 (by decide) (by decide)).1 hproper).1,
    fun ks o ho => (((kernel_send 16 4096 id (fun _ => id) ⟨true,false,0,.unset,.unset⟩
      [oneByte 10, fileRange 100 900] 0 (by decide) (by decide)).2 hproper').1 ks o ho).2⟩

/-- Sixteen vectors have been taken whole. Of the two bytes that are offered next one is
taken, and the other one is offered at once. -/
theorem writev_goes_on : ∃ o, ngxWritevChain 16 4096 id
      [⟨.done,.done,.whole⟩, ⟨.done,.done,.part 1⟩, ⟨.done,.done,.whole⟩]
      ⟨true,false,0,.unset,.unset⟩ ((List.range 18).map (fun i => oneByte (2*i+2))) 0 = some o ∧
    o.calls.map (fun x => (x.offered, x.taken)) =
      [((List.range 16).map (fun i => 2*i+2), 16), ([34,36], 1), ([36], 1)] ∧
    o.conn.ready = true ∧ ¬Halts o.calls o := by
  have hrun : (ngxWritevChain 16 4096 id
      [⟨.done,.done,.whole⟩, ⟨.done,.done,.part 1⟩, ⟨.done,.done,.whole⟩]
      ⟨true,false,0,.unset,.unset⟩ ((List.range 18).map (fun i => oneByte (2*i+2))) 0).map
      (fun o => (o.calls.map (fun x => (x.offered, x.taken)),
        o.calls.map (fun x => x.answer.short), o.conn.ready)) =
      some ([((List.range 16).map (fun i => 2*i+2), 16), ([34,36], 1), ([36], 1)],
        [false, true, false], true) := by
    decide
  obtain ⟨o,ho,heq⟩ := Option.map_eq_some_iff.mp hrun
  simp only [Prod.mk.injEq] at heq
  refine ⟨o,ho,heq.1,heq.2.2,fun hhalts => ?_⟩
  have hlast : (o.calls.map (fun x => x.answer.short)).Pairwise (fun a _ => a = false) :=
    List.pairwise_map.mpr hhalts.last
  rw [heq.2.1] at hlast
  revert hlast
  decide

end Nginx.KernelSendOffers
