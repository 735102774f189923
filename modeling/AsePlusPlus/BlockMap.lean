import AsePlusPlus.Layout

namespace AsePlusPlus
open Words Program Chain

variable {role role' role'' : Nat → Role} {free free' free'' rest : List Nat} {r s t u : Machine} {i f b c w : Nat}

theorem ext_word {x y : Sector} (same : ∀ k, k < 128 → wordAt x k = wordAt y k) : x = y := by
  apply ext_cell
  intro i small
  rw [cell_eq_byteOf,cell_eq_byteOf,same _ (by omega)]

theorem word_encode (i : Inode) (small : k < 128) : wordAt i.encode k = i.word k := wordAt_ofWords _ (by omega)

theorem word_decode (x : Sector) (small : k < 128) : (Inode.decode x).word k = wordAt x k := by
  rw [← word_encode _ small,Inode.encode_decode]

-- The three ways in which a pointer is stored, and the size of an inode, each
-- change one word of the bloc.
theorem encode_direct (x : Sector) (p : Word) (direct : k < 124) :
    Inode.encode {Inode.decode x with blocsDirects := put (Inode.decode x).blocsDirects k p} = putWord x (k+2) p := by
  apply ext_word
  intro j small
  rw [word_encode _ small,wordAt_putWord _ _ (by omega),← word_decode x small]
  unfold Inode.word
  dsimp only
  rw [cell_put _ _ direct]
  grind

theorem encode_double (x : Sector) (p : Word) :
    Inode.encode {Inode.decode x with blocsDoubleIndirect := p} = putWord x 127 p := by
  apply ext_word
  intro j small
  rw [word_encode _ small,wordAt_putWord _ _ (by omega),← word_decode x small]
  unfold Inode.word
  by_cases last : j = 127
  · simp [last]
  · rw [if_neg last]
    split
    · rfl
    split
    · rfl
    split
    · rfl
    rw [if_pos (by omega),if_pos (by omega)]

theorem encode_size (x : Sector) (n : Word) : Inode.encode {Inode.decode x with size := n} = putWord x 1 n := by
  apply ext_word
  intro j small
  rw [word_encode _ small,wordAt_putWord _ _ (by omega),← word_decode x small]
  unfold Inode.word
  by_cases size : j = 1
  · simp [size]
  · rw [if_neg size,if_neg size,if_neg size]

theorem encode_table (x : Sector) (p : Word) (small : k < 128) :
    Table.encode (put (Table.decode x) k p) = putWord x k p := by
  apply ext_word
  intro j bound
  rw [Table.encode,wordAt_ofWords _ (by omega),cell_put _ _ small,wordAt_putWord _ _ (by omega)]
  split
  · rfl
  · exact Table.cell_decode _ bound

theorem putWord_same (x : Sector) (same : wordAt x w = p) : putWord x w p = x := by
  apply ext_word
  intro j small
  rw [wordAt_putWord _ _ (by omega)]
  split
  · rename_i equal; rw [equal,same]
  · rfl

-- A bloc taken from the chain and given its first content.
def Machine.claimed (s : Machine) (x : Sector) : Machine :=
  s.took.store s.super.premierLibre.toNat x (.bloc s.currentVolume s.super.premierLibre)

theorem claimed_blk (s : Machine) (x : Sector) (live : c ≠ 0) :
    (s.claimed x).blk c = if c = s.super.premierLibre.toNat then x else s.blk c := by
  unfold Machine.claimed
  rw [store_blk,took_blk s live]

theorem claimed_synced (s : Machine) (x : Sector) (live : s.super.premierLibre ≠ 0) : Synced (s.claimed x) := by
  have away : 0 ≠ s.super.premierLibre.toNat := fun same => live (BitVec.eq_of_toNat_eq same.symm)
  unfold Synced Machine.claimed
  rw [store_blk,if_neg away,took_blk_zero,Super.decode_encode]
  rfl

theorem FreeChain.claimed (chain : FreeChain s (b :: rest)) (x : Sector) : FreeChain (s.claimed x) rest := by
  refine chain.took.congr ?_ rfl rfl rfl
  intro c member
  have away : c ≠ s.super.premierLibre.toNat := by
    rw [chain.head]
    intro same
    obtain rfl := same
    exact (List.nodup_cons.mp chain.nodup).1 member
  unfold Machine.claimed
  rw [store_blk,if_neg away]

theorem Layout.claimed (layout : Layout s role (b :: rest)) (ok : BlockOk (Function.update role b q) b x)
    (other : q ≠ .free) : Layout (s.claimed x) (Function.update role b q) rest := by
  have head := layout.chain.head
  have unused : role b = .free := (layout.vacant b).mpr (by simp)
  refine ⟨(store_mounted _ _ _ _).mpr (took_mounted layout.mounted),layout.chain.claimed x,?_,?_,?_⟩
  · intro c
    by_cases same : c = b
    · subst c
      rw [Function.update_self]
      exact ⟨fun equal => absurd equal other,fun member =>
        absurd member (List.nodup_cons.mp layout.chain.nodup).1⟩
    · rw [Function.update_of_ne same,layout.vacant,List.mem_cons]
      exact ⟨fun old => old.resolve_left same,Or.inr⟩
  · intro c real
    by_cases same : c = b
    · subst c
      exact layout.bound unused (by simp)
    · rw [Function.update_of_ne same] at real
      exact layout.inside c real
  · intro c
    by_cases same : c = b
    · subst c
      rw [claimed_blk s x (layout.bound unused (by simp)).1,if_pos head.symm]
      exact ok
    · by_cases zero : c = 0
      · subst c
        have vacuous : Function.update role b q 0 = .none := by
          rw [Function.update_of_ne same]; exact layout.zero
        refine ⟨fun node => ?_,fun w _ pointer => ?_⟩
        · rw [vacuous] at node; cases node
        · rw [vacuous] at pointer; exact absurd rfl pointer
      · rw [claimed_blk s x zero,if_neg (by rw [head]; exact same)]
        exact (layout.blocks c).update unused same q

-- What every operation keeps: the roles given, the types of the inodes and each
-- pointer once it is set; the free chain only gets shorter.
structure Carries (s t : Machine) (role role' : Nat → Role) (free free' : List Nat) : Prop where
  layout : Layout t role' free'
  within : Within s t
  super : ∃ next count, t.super = {s.super with premierLibre := next,nbBlocLibre := count}
  used : ∃ used, free = used ++ free'
  roles : ∀ b, role b ≠ .free → role' b = role b
  named : ∀ b, role b ≠ .none → role' b ≠ .none
  types : ∀ i, role i = .inode → t.entryAt i 0 = s.entryAt i 0
  pointers : ∀ c v, v < 128 → (role c).target c v ≠ .none → s.entryAt c v ≠ 0 → t.entryAt c v = s.entryAt c v
  kept : ∀ i f, role i = .inode → s.lookup i f ≠ 0 → t.lookup i f = s.lookup i f
  owned : Owned s role → Owned t role'

-- The same for an operation that makes no inode.
structure Extends (s t : Machine) (role role' : Nat → Role) (free free' : List Nat) : Prop
    extends Carries s t role role' free free' where
  nodes : ∀ b, role' b = .inode → role b = .inode

-- Allocation: what is new is zeroed, and no file changes.
structure Grew (s t : Machine) (role role' : Nat → Role) (free free' : List Nat) : Prop
    extends Extends s t role role' free free' where
  sizes : ∀ i, role i = .inode → t.entryAt i 1 = s.entryAt i 1
  fresh : ∀ i f, role i = .inode → s.lookup i f = 0 → t.lookup i f ≠ 0 → t.blk (t.lookup i f).toNat = zeros 8 512
  data : ∀ b i f, role b = .data i f → t.blk b = s.blk b

theorem Carries.node (ext : Carries s t role role' free free') (node : role i = .inode) : role' i = .inode := by
  rw [ext.roles i (by simp [node]),node]

theorem Carries.trans (one : Carries s t role role' free free')
    (two : Carries t u role' role'' free' free'') : Carries s u role role'' free free'' := by
  have stays : ∀ b, role b ≠ .free → role'' b = role b := by
    intro b busy
    have same := one.roles b busy
    rw [two.roles b (by rw [same]; exact busy),same]
  refine ⟨two.layout,one.within.trans two.within,?_,?_,stays,fun b real => two.named b (one.named b real),?_,?_,?_,
    fun owned => two.owned (one.owned owned)⟩
  · obtain ⟨_,_,first⟩ := one.super
    obtain ⟨next,count,second⟩ := two.super
    exact ⟨next,count,by rw [second,first]⟩
  · obtain ⟨early,first⟩ := one.used
    obtain ⟨late,second⟩ := two.used
    exact ⟨early++late,by rw [first,second,List.append_assoc]⟩
  · exact fun i node => (two.types i (one.node node)).trans (one.types i node)
  · intro c v small target live
    have busy : role c ≠ .free := by intro free; rw [free] at target; exact target rfl
    have same := one.pointers c v small target live
    rw [two.pointers c v small (by rw [one.roles c busy]; exact target) (by rw [same]; exact live),same]
  · intro i f node mapped
    have same := one.kept i f node mapped
    rw [two.kept i f (one.node node) (by rw [same]; exact mapped),same]

theorem Extends.trans (one : Extends s t role role' free free')
    (two : Extends t u role' role'' free' free'') : Extends s u role role'' free free'' :=
  ⟨one.toCarries.trans two.toCarries,fun b node => one.nodes b (two.nodes b node)⟩

theorem Grew.fblock (grew : Grew s t role role' free free') (layout : Layout s role free) (node : role i = .inode) (f : Nat) :
    t.fblock i f = s.fblock i f := by
  unfold Machine.fblock
  by_cases null : s.lookup i f = 0
  · rw [if_pos null]
    split
    · rfl
    · rename_i some; exact grew.fresh i f node null some
  · rw [grew.kept i f node null,if_neg null,if_neg null]
    exact grew.data _ _ _ (layout.lookup_role node null)

theorem Grew.trans (one : Grew s t role role' free free')
    (two : Grew t u role' role'' free' free'') : Grew s u role role'' free free'' := by
  refine ⟨one.toExtends.trans two.toExtends,?_,?_,?_⟩
  · exact fun i node => (two.sizes i (one.node node)).trans (one.sizes i node)
  · intro i f node null some
    by_cases already : t.lookup i f = 0
    · exact two.fresh i f (one.node node) already some
    · have role := one.layout.lookup_role (one.node node) already
      rw [two.kept i f (one.node node) already,two.data _ _ _ role]
      exact one.fresh i f node null already
  · intro b i f used
    rw [two.data b i f (by rw [one.roles b (by simp [used]),used]),one.data b i f used]

-- Nothing but bloc 0, MASTERBUFFER and the journal differs.
structure Starved (s t : Machine) : Prop where
  within : Within s t
  super : t.super = s.super
  kept : ∀ c, c ≠ 0 → t.blk c = s.blk c

theorem Starved.trans (one : Starved r s) (two : Starved s t) : Starved r t :=
  ⟨one.within.trans two.within,two.super.trans one.super,fun c live => (two.kept c live).trans (one.kept c live)⟩

theorem Quiet.starved (quiet : Quiet s t) : Starved s t :=
  ⟨quiet.confined.toWithin,quiet.super,fun c _ => quiet.blk c⟩

-- Two states with the same pointers map alike.
theorem Layout.lookup_same (layout : Layout s role free) (node : role i = .inode)
    (same : ∀ c v, v < 128 → (role c).target c v ≠ .none → t.entryAt c v = s.entryAt c v) :
    t.lookup i f = s.lookup i f := by
  have double := same i 127 (by decide) (by simp [node,Role.target])
  have index : f < 888 → t.indexOf i f = s.indexOf i f := by
    intro bound
    unfold Machine.indexOf
    rw [double]
    split
    · rfl
    · rename_i some
      exact same _ _ (by omega) (by simp [layout.double_role node some,Role.target])
  by_cases direct : f < 124
  · rw [lookup_direct _ _ direct,lookup_direct _ _ direct]
    exact same i _ (by omega) (by simp [node,target_direct i direct])
  by_cases far : Supported f
  · obtain ⟨low,high⟩ := far.resolve_left direct
    rw [lookup_far _ _ low high,lookup_far _ _ low high,index high]
    split
    · rfl
    · rename_i some
      exact same _ _ (by omega) (by simp [layout.index_role node high some,Role.target])
  · rw [lookup_unsupported _ _ far,lookup_unsupported _ _ far]

theorem pointer_busy (pointer : (role c).target c w ≠ .none) : role c ≠ .free := by
  intro free
  rw [free] at pointer
  exact pointer rfl

theorem pointer_real (pointer : (role c).target c w ≠ .none) : role c ≠ .none := by
  intro none
  rw [none] at pointer
  exact pointer rfl

theorem Starved.grew (starved : Starved s t) (layout : Layout s role free) : Grew s t role role free free := by
  have same : ∀ c, role c ≠ .none → t.blk c = s.blk c := fun c real => starved.kept c (layout.inside c real).1
  have entry : ∀ c w, role c ≠ .none → t.entryAt c w = s.entryAt c w := fun c w real =>
    congrArg (wordAt · w) (same c real)
  have lookup : ∀ i f, role i = .inode → t.lookup i f = s.lookup i f := fun i f node =>
    layout.lookup_same node fun c v _ target => entry c v (pointer_real target)
  refine ⟨⟨⟨⟨?_,?_,layout.vacant,?_,?_⟩,starved.within,⟨_,_,starved.super⟩,⟨[],rfl⟩,fun _ _ => rfl,fun _ real => real,
    fun i node => entry i 0 (by simp [node]),?_,fun i f node _ => lookup i f node,?_⟩,fun _ node => node⟩,
    fun i node => entry i 1 (by simp [node]),?_,fun b i f used => same b (by simp [used])⟩
  · exact starved.within.mounted layout.mounted (by rw [starved.super]; exact layout.mounted.super)
  · exact layout.chain.congr (fun b member => starved.kept b (layout.chain.positive b member))
      (by rw [starved.super]) (by rw [starved.super]) starved.within.nsec
  · intro b real; rw [starved.within.nsec]; exact layout.inside b real
  · intro b
    by_cases real : role b = .none
    · refine ⟨fun node => ?_,fun w _ pointer => ?_⟩
      · rw [real] at node; cases node
      · rw [real] at pointer; exact absurd rfl pointer
    · rw [same b real]; exact layout.blocks b
  · exact fun c v _ target _ => entry c v (pointer_real target)
  · intro owned b real busy leaf
    obtain ⟨c,w,small,target,reached⟩ := owned b real busy leaf
    refine ⟨c,w,small,target,?_⟩
    rw [entry c w]
    · exact reached
    · intro none
      rw [none] at target
      exact real target.symm
  · intro i f node null some
    rw [lookup i f node] at some
    exact absurd null some

theorem Grew.refl (layout : Layout s role free) : Grew s s role role free free :=
  (Quiet.refl s).starved.grew layout

-- A claimed bloc, zeroed, and the pointer to it stored in word `w` of bloc `c`.
def Machine.linked (s : Machine) (c : Word) (w : Nat) : Machine :=
  (s.claimed (zeros 8 512)).store c.toNat (putWord (s.blk c.toNat) w s.super.premierLibre) (.bloc s.currentVolume c)

section stage
variable {c : Word}
variable (layout : Layout s role (b :: rest)) (pointer : (role c.toNat).target c.toNat w ≠ .none) (small : w < 128)
include layout

theorem linked_blk (live : c' ≠ 0) : (s.linked c w).blk c' =
    if c' = c.toNat then putWord (s.blk c.toNat) w s.super.premierLibre
    else if c' = b then zeros 8 512 else s.blk c' := by
  unfold Machine.linked
  rw [store_blk,claimed_blk s _ live,layout.chain.head]

theorem linked_entry (v : Nat) (bound : v < 128) (real : role c' ≠ .none) (busy : role c' ≠ .free) :
    (s.linked c w).entryAt c' v = if c' = c.toNat ∧ v = w then s.super.premierLibre else s.entryAt c' v := by
  have away : c' ≠ b := by rintro rfl; exact busy ((layout.vacant _).mpr (by simp))
  unfold Machine.entryAt
  rw [linked_blk layout (layout.inside c' real).1]
  by_cases same : c' = c.toNat
  · rw [if_pos same,wordAt_putWord _ _ (by omega),same]
    by_cases equal : v = w
    · simp [equal]
    · rw [if_neg equal,if_neg (fun both => equal both.2)]
  · rw [if_neg same,if_neg away,if_neg (fun both => same both.1)]

include pointer

theorem linked_away : c.toNat ≠ b := by
  intro same
  have unused : role b = .free := (layout.vacant b).mpr (by simp)
  rw [same,unused] at pointer
  exact pointer rfl

theorem linked_live : role c.toNat ≠ .none ∧ c.toNat ≠ 0 ∧ c.toNat < s.nsec := by
  have real := pointer_real pointer
  exact ⟨real,layout.inside _ real⟩

theorem linked_new (v : Nat) : (s.linked c w).entryAt b v = 0 := by
  have unused : role b = .free := (layout.vacant b).mpr (by simp)
  unfold Machine.entryAt
  rw [linked_blk layout (layout.bound unused (by simp)).1,
    if_neg (linked_away layout pointer).symm,if_pos rfl]
  exact wordAt_zeros v

theorem linked_confined : Confined s (s.linked c w) := by
  have head := layout.chain.head
  have bound := layout.bound ((layout.vacant b).mpr (by simp)) (by simp)
  obtain ⟨_,live,inside⟩ := linked_live layout pointer
  have taken : s.super.premierLibre.toNat < s.took.nsec := by rw [head]; exact bound.2
  have first : Confined s (s.claimed (zeros 8 512)) :=
    (Confined.took layout.mounted).trans (Confined.store taken layout.chain.head_ne _)
  have nonzero : c ≠ 0 := by rintro rfl; exact live rfl
  exact first.trans (Confined.store (s := s.claimed (zeros 8 512)) inside nonzero _)

theorem linked_synced : Synced (s.linked c w) := by
  obtain ⟨_,live,_⟩ := linked_live layout pointer
  have claimed := claimed_synced s (zeros 8 512) layout.chain.head_ne
  unfold Synced at claimed
  unfold Synced Machine.linked
  rw [store_blk,if_neg live.symm]
  exact claimed

include small

theorem linked_layout : Layout (s.linked c w) (Function.update role b ((role c.toNat).target c.toNat w)) rest := by
  have head := layout.chain.head
  have unused : role b = .free := (layout.vacant b).mpr (by simp)
  have away := linked_away layout pointer
  have same : Function.update role b ((role c.toNat).target c.toNat w) c.toNat = role c.toNat :=
    Function.update_of_ne away _ _
  have claimed := layout.claimed (x := zeros 8 512) (BlockOk.zeros _ _) (target_ne_free (role c.toNat) c.toNat w).1
  refine claimed.store ?_ ?_ _
  · rw [same]
    intro busy
    rw [busy] at pointer
    exact pointer rfl
  · have old := (layout.blocks c.toNat).update unused away ((role c.toNat).target c.toNat w)
    refine ⟨fun node => ?_,fun v bound target live => ?_⟩
    · have inode := old.indirect node
      rw [wordAt_putWord _ _ (by omega),if_neg]
      · exact inode
      · intro same
        obtain rfl := same
        rw [same] at node
        rw [node] at pointer
        exact pointer rfl
    · rw [wordAt_putWord _ _ (by omega)] at live ⊢
      by_cases equal : v = w
      · rw [if_pos equal,head,Function.update_self,same,equal]
      · rw [if_neg equal] at live ⊢
        exact old.points v bound target live

-- One word of one bloc changed from null to `b`, and `b` itself is empty: no
-- lookup changes but to `b`.
theorem linked_lookup (null : s.entryAt c.toNat w = 0) (node : role i = .inode) (f : Nat) :
    (s.linked c w).lookup i f = s.lookup i f ∨
    (s.lookup i f = 0 ∧ (s.linked c w).lookup i f = s.super.premierLibre) := by
  have head := layout.chain.head
  have entry : ∀ c' v, v < 128 → role c' ≠ .none → role c' ≠ .free →
      (s.linked c w).entryAt c' v = s.entryAt c' v ∨
      (s.entryAt c' v = 0 ∧ (s.linked c w).entryAt c' v = s.super.premierLibre) := by
    intro c' v bound real busy
    rw [linked_entry layout v bound real busy]
    split
    · rename_i both
      obtain ⟨rfl,rfl⟩ := both
      exact Or.inr ⟨null,rfl⟩
    · exact Or.inl rfl
  have new : ∀ v, (s.linked c w).entryAt s.super.premierLibre.toNat v = 0 := by
    intro v; rw [head]; exact linked_new layout pointer v
  by_cases direct : f < 124
  · rw [lookup_direct _ _ direct,lookup_direct _ _ direct]
    exact entry i (f+2) (by omega) (by simp [node]) (by simp [node])
  by_cases far : Supported f
  swap
  · rw [lookup_unsupported _ _ far,lookup_unsupported _ _ far]
    exact Or.inl rfl
  obtain ⟨low,high⟩ := far.resolve_left direct
  have index : (s.linked c w).indexOf i f = s.indexOf i f ∨
      (s.indexOf i f = 0 ∧ ((s.linked c w).indexOf i f = 0 ∨ (s.linked c w).indexOf i f = s.super.premierLibre)) := by
    unfold Machine.indexOf
    rcases entry i 127 (by decide) (by simp [node]) (by simp [node]) with same | ⟨hole,taken⟩
    · rw [same]
      by_cases empty : s.entryAt i 127 = 0
      · rw [if_pos empty,if_pos empty]
        exact Or.inl rfl
      · rw [if_neg empty,if_neg empty]
        have owner := layout.double_role node empty
        rcases entry (s.entryAt i 127).toNat ((f-252)/128) (by omega) (by simp [owner]) (by simp [owner]) with keep | ⟨gap,got⟩
        · exact Or.inl keep
        · exact Or.inr ⟨gap,Or.inr got⟩
    · rw [if_pos hole,taken,new]
      simp
  rw [lookup_far _ _ low high,lookup_far _ _ low high]
  rcases index with same | ⟨hole,still | taken⟩
  · rw [same]
    by_cases empty : s.indexOf i f = 0
    · rw [if_pos empty,if_pos empty]
      exact Or.inl rfl
    · rw [if_neg empty,if_neg empty]
      have owner := layout.index_role node high empty
      exact entry (s.indexOf i f).toNat _ (by omega) (by simp [owner]) (by simp [owner])
  · rw [still,hole]
    simp
  · rw [hole,taken,new]
    simp

theorem linked_grew (null : s.entryAt c.toNat w = 0) : Grew s (s.linked c w) role
    (Function.update role b ((role c.toNat).target c.toNat w)) (b :: rest) rest := by
  have head := layout.chain.head
  have unused : role b = .free := (layout.vacant b).mpr (by simp)
  have after := linked_layout layout pointer small
  have away := linked_away layout pointer
  have other : ∀ i, role i = .inode → ∀ v, v < 2 → (s.linked c w).entryAt i v = s.entryAt i v := by
    intro i node v bound
    rw [linked_entry layout v (by omega) (by simp [node]) (by simp [node]),if_neg]
    intro post
    obtain ⟨rfl,rfl⟩ := post
    rw [node] at pointer
    simp only [Role.target] at pointer
    rw [if_neg (by omega),if_neg (by omega)] at pointer
    exact pointer rfl
  refine ⟨⟨⟨after,(linked_confined layout pointer).toWithin,⟨_,_,rfl⟩,⟨[b],rfl⟩,?_,?_,?_,?_,?_,?_⟩,?_⟩,?_,?_,?_⟩
  · intro c' busy
    rw [Function.update_of_ne]
    intro same
    obtain rfl := same
    exact busy unused
  · intro c' real
    by_cases same : c' = b
    · rw [same,Function.update_self]; exact pointer
    · rw [Function.update_of_ne same]; exact real
  · exact fun i node => other i node 0 (by decide)
  · intro c' v bound target live
    rw [linked_entry layout v bound (pointer_real target) (pointer_busy target),if_neg]
    intro post
    obtain ⟨rfl,rfl⟩ := post
    exact live null
  · intro i f node mapped
    exact (linked_lookup layout pointer small null node f).resolve_right fun both => mapped both.1
  · intro owned b' real busy leaf
    by_cases same : b' = b
    · subst b'
      rw [Function.update_self]
      refine ⟨c.toNat,w,small,by rw [Function.update_of_ne away],?_⟩
      rw [linked_entry layout w small (linked_live layout pointer).1 (pointer_busy pointer),if_pos ⟨rfl,rfl⟩,head]
    · rw [Function.update_of_ne same] at real busy leaf ⊢
      obtain ⟨c',v,bound,target,reached⟩ := owned b' real busy leaf
      have named : role c' ≠ .none := by intro none; rw [none] at target; exact real target.symm
      have taken : role c' ≠ .free := by intro none; rw [none] at target; exact real target.symm
      have apart : c' ≠ b := by rintro rfl; exact taken unused
      refine ⟨c',v,bound,by rw [Function.update_of_ne apart]; exact target,?_⟩
      rw [linked_entry layout v bound named taken,if_neg]
      · exact reached
      · intro post
        obtain ⟨rfl,rfl⟩ := post
        rw [null] at reached
        exact (layout.inside b' real).1 reached.symm
  · intro b' node
    by_cases same : b' = b
    · rw [same,Function.update_self] at node
      exact absurd node (target_ne_free _ _ _).2
    · rwa [Function.update_of_ne same] at node
  · exact fun i node => other i node 1 (by decide)
  · intro i f node hole mapped
    rcases linked_lookup layout pointer small null node f with same | ⟨_,got⟩
    · rw [same] at mapped; exact absurd hole mapped
    · rw [got,head,linked_blk layout (layout.bound unused (by simp)).1,if_neg away.symm,if_pos rfl]
  · intro b' i f used
    rw [linked_blk layout (layout.bound used (by simp)).1,if_neg,if_neg]
    · rintro rfl; rw [unused] at used; cases used
    · intro same
      obtain rfl := same
      rw [used] at pointer
      exact pointer rfl

end stage

-- A run that keeps to the volume and leaves bloc 0 to save_super.
structure Sound (s t : Machine) : Prop where
  confined : Confined s t
  synced : Synced s → Synced t

theorem Sound.trans (one : Sound r s) (two : Sound s t) : Sound r t :=
  ⟨one.confined.trans two.confined,fun synced => two.synced (one.synced synced)⟩

theorem Quiet.sound (quiet : Quiet s t) : Sound s t := ⟨quiet.confined,quiet.synced⟩

theorem Quiet.grew (quiet : Quiet s t) (layout : Layout s role free) : Grew s t role role free free :=
  quiet.starved.grew layout

variable {Q : Word → Machine → Prop} {E : Stop → Machine → Prop} {link : Word → M Unit} {p : Word}

theorem runs_initializeBloc (m : Mounted s) (inside : p.toNat < s.nsec) :
    Runs (initializeBloc p) s Q E ↔ Q p (s.store p.toNat (zeros 8 512) (.bloc s.currentVolume p)) := by
  have loaded : Mounted (s.load p.toNat) := (load_mounted _ _).mpr m
  have write := fun (P : Unit → Machine → Prop) => runs_writeBloc (b := p) (Q := P) (E := E) loaded inside (zeros 8 512)
  simp only [load_volume] at write
  simp only [initializeBloc,runs_bind,runs_current,runs_readBloc m inside,load_volume,write,runs_pure]
  rfl

theorem runs_blocOrAllocate_kept (live : p ≠ 0) : Runs (blocOrAllocate p link) s Q E ↔ Q p s := by
  simp only [blocOrAllocate,if_neg live,runs_pure]

theorem runs_blocOrAllocate_new (layout : Layout s role (b :: rest)) : Runs (blocOrAllocate 0 link) s Q E ↔
    Runs (link s.super.premierLibre) (s.claimed (zeros 8 512)) (fun _ t => Q s.super.premierLibre t) E := by
  have inside : s.super.premierLibre.toNat < s.took.nsec := by
    rw [layout.chain.head]
    exact layout.chain.inside b (by simp)
  have init := fun (P : Word → Machine → Prop) =>
    runs_initializeBloc (Q := P) (E := E) (took_mounted layout.mounted) inside
  simp only [blocOrAllocate,if_true,runs_bind,layout.chain.runs_newBloc layout.mounted,init,runs_pure]
  rfl

def Machine.cleared (s : Machine) : Machine := s.store 0 (zeros 8 512) (.bloc s.currentVolume 0)

-- new_bloc answers 0 and bloc 0 is what initialize_bloc then zeroes.
theorem runs_blocOrAllocate_full (m : Mounted s) (full : s.super.premierLibre = 0) :
    Runs (blocOrAllocate 0 link) s Q E ↔ Runs (link 0) s.cleared (fun _ t => Q 0 t) E := by
  have inside : (0 : Word).toNat < s.nsec := Nat.lt_of_lt_of_le (by decide : 0 < 2) m.room
  simp only [blocOrAllocate,if_true,runs_bind,runs_newBloc_full full,runs_initializeBloc m inside,runs_pure]
  rfl

theorem cleared_starved (m : Mounted s) : Starved s s.cleared := by
  have inside : 0 < s.nsec := Nat.lt_of_lt_of_le (by decide) m.room
  refine ⟨.store inside _ _,rfl,?_⟩
  intro c live
  exact (store_blk _ _ _ _ _).trans (if_neg live)

theorem cleared_zero (s : Machine) : s.cleared.blk 0 = zeros 8 512 := (store_blk _ _ _ _ _).trans (if_pos rfl)

-- What the closures given to blocOrAllocate do: word `w` of bloc `c` is set in
-- a copy `x` of the bloc read before.
def Stores (link : Word → M Unit) (c : Word) (w : Nat) (x : Sector) (vol : Word) : Prop :=
  ∀ p m (Q : Unit → Machine → Prop) (E : Stop → Machine → Prop), Mounted m → c.toNat < m.nsec → m.currentVolume = vol →
    (Runs (link p) m Q E ↔ Q () (m.store c.toNat (putWord x w p) (.bloc vol c)))

theorem writeInode_stores (make : Word → Inode) (made : ∀ p, (make p).encode = putWord x w p) (inumber vol : Word) :
    Stores (fun p => writeInode inumber (make p)) inumber w x vol := by
  intro p m Q E mounted inside volume
  subst volume
  simp only [writeInode,runs_bind,runs_current,runs_writeBloc mounted inside,made]

theorem writeTable_stores (make : Word → Table) (made : ∀ p, Table.encode (make p) = putWord x w p) (bloc vol : Word) :
    Stores (fun p => do writeBloc (← current) bloc (Table.encode (make p))) bloc w x vol := by
  intro p m Q E mounted inside volume
  subst volume
  simp only [runs_bind,runs_current,runs_writeBloc mounted inside,made]

-- One level of the map: the pointer in word `w` of bloc `c` is kept, created, or
-- (on a full disk) left null at the price of bloc 0.
inductive Staged (s t : Machine) (free free' : List Nat) (c w : Nat) (v : Word) : Prop
  | kept (live : s.entryAt c w ≠ 0) (same : v = s.entryAt c w) (quiet : Quiet s t) (count : free = free')
  | made (null : s.entryAt c w = 0) (live : v ≠ 0) (sound : Sound s t) (count : free.length = free'.length+1)
      (clear : t.blk v.toNat = zeros 8 512)
  | short (null : s.entryAt c w = 0) (none : v = 0) (full : free = []) (full' : free' = []) (lost : t.blk 0 = zeros 8 512)

theorem runs_stage {c : Word} (layout : Layout s role free) (pointer : (role c.toNat).target c.toNat w ≠ .none)
    (small : w < 128) (stores : Stores link c w (s.blk c.toNat) s.currentVolume) :
    Returns (blocOrAllocate (s.entryAt c.toNat w) link) s fun v t => ∃ role' free',
      Grew s t role role' free free' ∧ v = t.entryAt c.toNat w ∧ Staged s t free free' c.toNat w v := by
  by_cases null : s.entryAt c.toNat w = 0
  swap
  · rw [Returns,runs_blocOrAllocate_kept null]
    exact ⟨role,free,Grew.refl layout,rfl,.kept null rfl (Quiet.refl s) rfl⟩
  have mounted := layout.mounted
  cases free with
  | nil =>
      obtain ⟨live,inside⟩ := layout.inside _ (pointer_real pointer)
      have starved := cleared_starved mounted
      have cleared : Mounted s.cleared := (store_mounted _ _ _ _).mpr mounted
      have same : putWord (s.blk c.toNat) w 0 = s.blk c.toNat := putWord_same _ null
      rw [null,Returns,runs_blocOrAllocate_full mounted layout.chain.empty,stores 0 _ _ _ cleared inside rfl,same]
      have blk : ∀ d, d ≠ 0 →
          (s.cleared.store c.toNat (s.blk c.toNat) (.bloc s.currentVolume c)).blk d = s.blk d := by
        intro d away
        rw [store_blk]
        split
        · rename_i equal; rw [equal]
        · exact starved.kept d away
      refine ⟨role,[],Starved.grew ⟨starved.within.trans (.store (s := s.cleared) inside _ _),rfl,blk⟩ layout,?_,
        .short null rfl rfl rfl ?_⟩
      · exact null.symm.trans (congrArg (wordAt · w) (blk c.toNat live).symm)
      · rw [store_blk,if_neg live.symm]
        exact cleared_zero s
  | cons b rest =>
      obtain ⟨real,live,inside⟩ := linked_live layout pointer
      have head := layout.chain.head
      have claimed : Mounted (s.claimed (zeros 8 512)) :=
        (store_mounted _ _ _ _).mpr (took_mounted mounted)
      rw [null,Returns,runs_blocOrAllocate_new layout,stores _ _ _ _ claimed inside rfl]
      refine ⟨_,rest,linked_grew layout pointer small null,?_,.made null layout.chain.head_ne
        ⟨linked_confined layout pointer,fun _ => linked_synced layout pointer⟩ rfl ?_⟩
      · have entry := linked_entry (c := c) (w := w) layout w small real (pointer_busy pointer)
        rw [if_pos ⟨rfl,rfl⟩] at entry
        exact entry.symm
      · rw [head]
        refine (linked_blk layout (layout.bound ((layout.vacant b).mpr (by simp)) (by simp)).1).trans ?_
        rw [if_neg (linked_away layout pointer).symm,if_pos rfl]

-- Blocs the map still has to create before the position holds one.
def needed (s : Machine) (i f : Nat) : Nat :=
  if f < 124 then (if s.lookup i f = 0 then 1 else 0)
  else if s.entryAt i 127 = 0 then 3 else if s.indexOf i f = 0 then 2
  else if s.lookup i f = 0 then 1 else 0

theorem vblocOfFbloc_eq (inumber fbloc : Word) (doAllocate : Bool) : vblocOfFbloc inumber fbloc doAllocate = do
    let inode ← readInode inumber
    if fbloc.toNat < 124 then directBloc inumber inode fbloc doAllocate
    else if fbloc.toNat < 252 then indirectBloc inode (fbloc-124) doAllocate
    else if fbloc.toNat < 888 then doubleIndirectBloc inumber inode (fbloc-252) doAllocate
    else return -1 := by
  have first : (512/4 : Word) - 4 = 124 := by decide
  have second : (124 : Word) + 4 = 128 := by decide
  have third : (124 : Word) + 4 * (512/4) - 4 + 4 = 636 := by decide
  have tail : fbloc - 124 - 128 = fbloc - 252 := by
    rw [BitVec.sub_sub]
    rfl
  have low : fbloc < 124 ↔ fbloc.toNat < 124 := by rw [BitVec.lt_def]; rfl
  unfold vblocOfFbloc
  rw [first,second,third,tail]
  congr 1
  funext inode
  by_cases direct : fbloc.toNat < 124
  · rw [if_pos (low.mpr direct),if_pos direct]
  rw [if_neg (fun lt => direct (low.mp lt)),if_neg direct]
  have mid : fbloc - 124 < 128 ↔ fbloc.toNat < 252 := by
    have constant : (124 : Word).toNat = 124 ∧ (128 : Word).toNat = 128 := ⟨rfl,rfl⟩
    rw [BitVec.lt_def,BitVec.toNat_sub]
    omega
  by_cases indirect : fbloc.toNat < 252
  · rw [if_pos (mid.mpr indirect),if_pos indirect]
  rw [if_neg (fun lt => indirect (mid.mp lt)),if_neg indirect]
  have high : fbloc - 252 < 636 ↔ fbloc.toNat < 888 := by
    have constant : (252 : Word).toNat = 252 ∧ (636 : Word).toNat = 636 := ⟨rfl,rfl⟩
    rw [BitVec.lt_def,BitVec.toNat_sub]
    omega
  by_cases double : fbloc.toNat < 888
  · rw [if_pos (high.mpr double),if_pos double]
  · rw [if_neg (fun lt => double (high.mp lt)),if_neg double]

theorem runs_readInode {R : Inode → Machine → Prop} (m : Mounted s) (inside : p.toNat < s.nsec) :
    Runs (readInode p) s R E ↔ R (s.inodeAt p.toNat) (s.load p.toNat) := by
  simp only [readInode,runs_bind,runs_current,runs_readBloc m inside,runs_pure]
  rfl

-- A bloc taken for an inode hangs below nothing yet, and no file changes.
section claimed
variable (layout : Layout s role (b :: rest))
include layout

theorem Layout.claimed_same (x : Sector) (named : role c ≠ .none) (busy : role c ≠ .free) :
    (s.claimed x).blk c = s.blk c := by
  rw [claimed_blk s x (layout.inside c named).1,if_neg]
  intro equal
  rw [layout.chain.head] at equal
  exact busy (equal ▸ (layout.vacant b).mpr (by simp))

theorem Layout.claimed_entry (x : Sector) (k : Nat) (named : role c ≠ .none) (busy : role c ≠ .free) :
    (s.claimed x).entryAt c k = s.entryAt c k := congrArg (wordAt · k) (layout.claimed_same x named busy)

theorem Layout.claimed_lookup (x : Sector) (node : role i = .inode) (f : Nat) :
    (s.claimed x).lookup i f = s.lookup i f :=
  layout.lookup_same node fun _ v _ target => layout.claimed_entry x v (pointer_real target) (pointer_busy target)

theorem Layout.claimed_fblock (x : Sector) (node : role i = .inode) (f : Nat) :
    (s.claimed x).fblock i f = s.fblock i f := by
  unfold Machine.fblock
  rw [layout.claimed_lookup x node]
  by_cases null : s.lookup i f = 0
  · rw [if_pos null,if_pos null]
  · have used := layout.lookup_role node null
    rw [if_neg null,if_neg null,layout.claimed_same x (by simp [used]) (by simp [used])]

theorem Layout.claimed_carries (ok : BlockOk (Function.update role b .inode) b x) :
    Carries s (s.claimed x) role (Function.update role b .inode) (b :: rest) rest := by
  have head := layout.chain.head
  have unused : role b = .free := (layout.vacant b).mpr (by simp)
  have bound := layout.bound unused (by simp)
  have taken : s.super.premierLibre.toNat < s.took.nsec := by rw [head]; exact bound.2
  refine ⟨layout.claimed ok (by simp),((Confined.took layout.mounted).toWithin.trans (.store taken _ _)),⟨_,_,rfl⟩,
    ⟨[b],rfl⟩,?_,?_,?_,?_,?_,?_⟩
  · intro c busy
    rw [Function.update_of_ne]
    intro same
    obtain rfl := same
    exact busy unused
  · intro c named
    by_cases equal : c = b
    · rw [equal,Function.update_self]; simp
    · rw [Function.update_of_ne equal]; exact named
  · exact fun i node => layout.claimed_entry x 0 (by simp [node]) (by simp [node])
  · exact fun c v _ target _ => layout.claimed_entry x v (pointer_real target) (pointer_busy target)
  · exact fun i f node _ => layout.claimed_lookup x node f
  · intro owned c named busy leaf
    have equal : c ≠ b := by
      intro same
      obtain rfl := same
      rw [Function.update_self] at leaf
      exact leaf rfl
    rw [Function.update_of_ne equal] at named busy leaf ⊢
    obtain ⟨d,w,small,target,reached⟩ := owned c named busy leaf
    have holder : role d ≠ .none := by intro none; rw [none] at target; exact named target.symm
    have used : role d ≠ .free := by intro free; rw [free] at target; exact named target.symm
    have apart : d ≠ b := by rintro rfl; exact used unused
    exact ⟨d,w,small,by rw [Function.update_of_ne apart]; exact target,
      by rw [layout.claimed_entry x w holder used]; exact reached⟩

end claimed

end AsePlusPlus
