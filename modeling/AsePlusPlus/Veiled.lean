import AsePlusPlus.Filing

namespace AsePlusPlus
open Words Program Forest

variable {role role' role'' : Nat → Role} {free free' free'' rest : List Nat} {s t u v w : Machine} {fd : FileDesc}
variable {b c d i j k n q : Nat} {e : Entry} {content old new : Nat → Byte} {name : List Byte}

-- What the next mount finds where the power has gone: the superbloc in memory is
-- lost, and load_super reads the one on the disk.
def Machine.cut (s : Machine) : Machine := {s with super := Super.decode (s.blk 0)}

-- Two states that a power cut makes equal.
structure Level (s t : Machine) : Prop where
  sectors : t.hda.sectors = s.hda.sectors
  mbr : t.mbr = s.mbr
  volume : t.currentVolume = s.currentVolume
  cwd : t.cwd = s.cwd
  frame : t.frame = s.frame

theorem Level.refl (s : Machine) : Level s s := ⟨rfl,rfl,rfl,rfl,rfl⟩

theorem Same.level (same : Same s t) : Level s t := by
  obtain ⟨_,_,_,rfl⟩ := same
  exact ⟨rfl,rfl,rfl,rfl,rfl⟩

theorem Level.cut (level : Level s t) : Same s.cut t.cut := by
  obtain ⟨sectors,mbr,volume,cwd,frame⟩ := level
  have first : t.blk 0 = s.blk 0 := by
    unfold Machine.blk Machine.start Machine.vol
    rw [sectors,mbr,volume]
  obtain ⟨hda,mbr',super,volume',cwd',frame',journal⟩ := t
  obtain ⟨sectors',master,head⟩ := hda
  dsimp only at sectors mbr volume cwd frame
  subst sectors mbr volume cwd frame
  refine ⟨master,head,journal,?_⟩
  unfold Machine.cut
  rw [first]

theorem Synced.cut (synced : Synced s) : s.cut = s := by
  unfold Machine.cut
  rw [synced]

-- What is seen of a file: the slots of a directory, and the bytes of any other up to
-- the recorded size; `b` is a file that is being written.
def Machine.Shows (s : Machine) (b j q : Nat) : Prop := if s.IsDir j then q < 20*s.slots j else j ≠ b ∧ q ≤ (s.entryAt j 1).toNat

-- No path and no file but `b` shows what has been done since.
structure Veiled (b : Nat) (s t : Machine) (role role' : Nat → Role) (free' : List Nat) : Prop where
  layout : Layout t role' free'
  within : Within s t
  root : t.super.rootInumber = s.super.rootInumber
  nodes : ∀ j, role' j = .inode ↔ role j = .inode
  types : ∀ j, role j = .inode → t.entryAt j 0 = s.entryAt j 0
  sizes : ∀ j, role j = .inode → t.entryAt j 1 = s.entryAt j 1
  kept : ∀ j f, role j = .inode → s.lookup j f ≠ 0 → t.lookup j f ≠ 0
  bytes : ∀ j q, role j = .inode → s.Shows b j q → t.byteAt j q = s.byteAt j q

section veiled
variable (veiled : Veiled b s t role role' free')
include veiled

theorem Veiled.isDir (node : role j = .inode) : t.IsDir j ↔ s.IsDir j := by
  unfold Machine.IsDir
  rw [veiled.types j node]

theorem Veiled.slots (node : role j = .inode) : t.slots j = s.slots j := by
  unfold Machine.slots
  rw [veiled.sizes j node]

theorem Veiled.shows (node : role j = .inode) (seen : s.Shows b j q) : t.Shows b j q := by
  unfold Machine.Shows at seen ⊢
  simp only [veiled.isDir node]
  rw [veiled.slots node,veiled.sizes j node]
  exact seen

theorem Veiled.slotAt (node : role j = .inode) (dir : s.IsDir j) (inside : k < s.slots j) : t.slotAt j k = s.slotAt j k := by
  refine congrArg Entry.decode (ext_cell fun i small => ?_)
  rw [cell_build _ small,cell_build _ small]
  refine veiled.bytes j _ node ?_
  unfold Machine.Shows
  rw [if_pos dir]
  omega

theorem Veiled.live : Live t role' d k e ↔ Live s role d k e := by
  constructor
  · intro post
    obtain ⟨node,dir,slot,entry,live⟩ := post
    have node' := (veiled.nodes d).mp node
    have dir' := (veiled.isDir node').mp dir
    rw [veiled.slots node'] at slot
    rw [veiled.slotAt node' dir' slot] at entry
    exact ⟨node',dir',slot,entry,live⟩
  · intro post
    obtain ⟨node,dir,slot,entry,live⟩ := post
    exact ⟨(veiled.nodes d).mpr node,(veiled.isDir node).mpr dir,by rw [veiled.slots node]; exact slot,
      by rw [veiled.slotAt node dir slot]; exact entry,live⟩

theorem Veiled.browsable (browsable : Browsable s role) : Browsable t role' := by
  refine ⟨by rw [veiled.root]; exact (veiled.nodes _).mpr browsable.root,fun j node dir => ?_,fun j node dir x member live => ?_⟩
  · have node' := (veiled.nodes j).mp node
    have dir' := (veiled.isDir node').mp dir
    obtain ⟨size,⟨few,plain⟩,mapped⟩ := browsable.dirs j node' dir'
    have slots := veiled.slots node'
    refine ⟨by rw [veiled.sizes j node',slots]; exact size,⟨by rw [slots]; exact few,fun q low => ?_⟩,fun q low => ?_⟩
    · rw [slots] at low
      rw [veiled.bytes j q node' (by unfold Machine.Shows; rw [if_pos dir']; exact low)]
      exact plain q low
    · rw [slots] at low
      exact veiled.kept j _ node' (mapped q low)
  · obtain ⟨i,small,entry⟩ := mem_entries.mp member
    have before := veiled.live.mp ⟨node,dir,small,entry,live⟩
    exact (veiled.nodes _).mpr (browsable.nodes j before.node before.dir x (mem_entries.mpr ⟨i,before.slot,before.entry⟩) live)

theorem Veiled.tree (tree : Tree s role) : Tree t role' :=
  tree.less (veiled.browsable tree.toBrowsable) veiled.root veiled.live.mp

theorem Veiled.walk (tree : Tree s role) (layout : Layout s role free) (names : List (List Byte)) :
    t.walk t.super.rootInumber names = s.walk s.super.rootInumber names := by
  refine tree.walk_same (veiled.tree tree) layout veiled.layout fun j => ?_
  have edge : t.Edge role' = s.Edge role := by
    funext i a j
    unfold Machine.Edge
    simp only [veiled.live]
  rw [edge,veiled.root]

theorem Veiled.ordered (ordered : Ordered s role free) (synced : Synced t) : Ordered t role' free' :=
  ⟨veiled.layout,veiled.tree ordered.tree,.inl synced⟩

theorem Veiled.nodeAt {i : Word} (node : i ≠ 0 → role i.toNat = .inode) (other : i ≠ 0 → i.toNat ≠ b ∨ s.IsDir i.toNat) :
    t.nodeAt i = s.nodeAt i := by
  unfold Machine.nodeAt
  by_cases none : i = 0
  · rw [if_pos none,if_pos none]
  have here := node none
  rw [if_neg none,if_neg none]
  by_cases dir : s.IsDir i.toNat
  · rw [if_pos dir,if_pos ((veiled.isDir here).mpr dir)]
  · rw [if_neg dir,if_neg fun wrong => dir ((veiled.isDir here).mp wrong)]
    refine congrArg (fun text => some (Store.Node.file text)) ?_
    unfold Machine.contents
    rw [veiled.sizes _ here]
    refine List.map_congr_left fun q member => veiled.bytes _ q here ?_
    have bound := List.mem_range'_1.mp member
    unfold Machine.Shows
    rw [if_neg dir]
    exact ⟨(other none).resolve_right dir,by omega⟩

-- The files are the same where nothing leads to `b`.
theorem Veiled.files (ordered : Ordered s role free) (away : role b ≠ .inode ∨ s.IsDir b) : t.files = s.files := by
  funext names
  unfold Machine.files
  rw [veiled.walk ordered.tree ordered.layout]
  refine veiled.nodeAt (ordered.walk_node names) fun live => ?_
  have node := ordered.walk_node names live
  by_cases here : (s.walk s.super.rootInumber names).toNat = b
  · rw [here] at node ⊢
    exact .inr (away.resolve_left (not_not_intro node))
  · exact .inl here

end veiled

theorem Veiled.trans (one : Veiled b s t role role' free') (two : Veiled b t u role' role'' free'') : Veiled b s u role role'' free'' := by
  have node : ∀ {j}, role j = .inode → role' j = .inode := fun here => (one.nodes _).mpr here
  exact ⟨two.layout,one.within.trans two.within,two.root.trans one.root,fun j => (two.nodes j).trans (one.nodes j),
    fun j here => (two.types j (node here)).trans (one.types j here),fun j here => (two.sizes j (node here)).trans (one.sizes j here),
    fun j f here live => two.kept j f (node here) (one.kept j f here live),
    fun j q here seen => (two.bytes j q (node here) (one.shows here seen)).trans (one.bytes j q here seen)⟩

-- A bloc that is taken from the chain and not linked to anything yet.
theorem Layout.claimed_veiled (layout : Layout s role (c :: rest)) (x : Sector) (b : Nat) :
    Veiled b s (s.claimed x) role (Function.update role c .none) rest := by
  have unused : role c = .free := (layout.vacant c).mpr List.mem_cons_self
  have other : ∀ {j}, role j = .inode → j ≠ c := by
    intro j node same
    rw [same,unused] at node
    cases node
  have ok : BlockOk (Function.update role c .none) c x := by
    refine ⟨fun node => ?_,fun w _ pointer => ?_⟩
    · rw [Function.update_self] at node
      cases node
    · rw [Function.update_self] at pointer
      exact absurd rfl pointer
  refine ⟨layout.claimed ok (by simp),?_,rfl,fun j => ?_,fun j node => layout.claimed_entry x 0 (by simp [node]) (by simp [node]),
    fun j node => layout.claimed_entry x 1 (by simp [node]) (by simp [node]),fun j f node live => ?_,fun j q node _ => ?_⟩
  · have taken : s.super.premierLibre.toNat < s.took.nsec := by
      rw [layout.chain.head]
      exact (layout.bound unused (by simp)).2
    exact (Confined.took layout.mounted).toWithin.trans (.store taken x _)
  · by_cases here : j = c
    · rw [here,Function.update_self,unused]
      simp
    · rw [Function.update_of_ne here]
  · rw [layout.claimed_lookup x node]
    exact live
  · unfold Machine.byteAt
    rw [layout.claimed_fblock x node]

-- On the disk new_bloc has left the bloc itself as it was.
theorem Layout.took_level (layout : Layout s role (c :: rest)) : Level (s.claimed (s.blk c)) s.took := by
  have bound := layout.bound ((layout.vacant c).mpr List.mem_cons_self) (by simp)
  refine ⟨funext fun p => ?_,rfl,rfl,rfl,rfl⟩
  have kept := took_blk s bound.1
  unfold Machine.blk at kept
  show s.took.hda.sectors p = if p = s.took.start+s.super.premierLibre.toNat then s.blk c else s.took.hda.sectors p
  rw [layout.chain.head]
  split
  · rename_i here
    rw [here]
    exact kept
  · rfl

end AsePlusPlus
