import AsePlusPlus.Overrun
import AsePlusPlus.Tree

namespace AsePlusPlus
open Words Program

variable {role role' role'' : Nat → Role} {free free' free'' : List Nat} {s t u : Machine} {fd : FileDesc} {i f : Nat}
variable {inumber : Word} {x : Sector}

-- One file is written, and no other changes.
structure Filed (s t : Machine) (role role' : Nat → Role) (free free' : List Nat) (i : Nat) : Prop
    extends Extends s t role role' free free' where
  sizes : ∀ j, role j = .inode → j ≠ i → t.entryAt j 1 = s.entryAt j 1
  files : ∀ j f, role j = .inode → j ≠ i → t.fblock j f = s.fblock j f

theorem Grew.filed (grew : Grew s t role role' free free') (layout : Layout s role free) (i : Nat) :
    Filed s t role role' free free' i :=
  ⟨grew.toExtends,fun j node _ => grew.sizes j node,fun _ f node _ => grew.fblock layout node f⟩

theorem Quiet.filed (quiet : Quiet s t) (layout : Layout s role free) (i : Nat) : Filed s t role role free free i :=
  (quiet.grew layout).filed layout i

theorem Filed.trans (one : Filed s t role role' free free' i) (two : Filed t u role' role'' free' free'' i) :
    Filed s u role role'' free free'' i :=
  ⟨one.toExtends.trans two.toExtends,fun j node other => (two.sizes j (one.node node) other).trans (one.sizes j node other),
    fun j f node other => (two.files j f (one.node node) other).trans (one.files j f node other)⟩

theorem filled_filed (layout : Layout s role free) (node : role i = .inode) (mapped : s.lookup i f ≠ 0) (x : Sector) :
    Filed s (s.filled i f x) role role free free i := by
  refine ⟨filled_extends layout node mapped x,fun j other _ => filled_size layout node mapped x other 1,fun j g other away => ?_⟩
  rw [filled_fblock layout node mapped x other,if_neg fun both => away both.1]

theorem resized_filed (layout : Layout s role free) (node : role inumber.toNat = .inode) (size : Word) :
    Filed s (s.resized inumber size) role role free free inumber.toNat := by
  refine ⟨resized_extends layout node size,fun j _ away => ?_,fun j g other _ => resized_fblock layout node size other g⟩
  rw [resized_entry _ _ _ _ (by decide),if_neg fun both => away both.1]

-- Written through a file that is no directory, the directories stay.
theorem Filed.spares (filed : Filed s t role role' free free' i) (plain : ¬ s.IsDir i) : Spares s t role role' free free' := by
  have other : ∀ j, s.IsDir j → j ≠ i := by
    intro j dir same
    obtain rfl := same
    exact plain dir
  refine ⟨filed.toCarries,fun j node dir => ⟨filed.sizes j node (other j dir),funext fun q => ?_⟩,
    fun j node new _ => absurd (filed.nodes j node) new⟩
  unfold Machine.byteAt
  rw [filed.files j _ node (other j dir)]

-- After a shortage nothing is left to take, and bloc 0 is empty for good.
def Drained (s : Machine) (free : List Nat) : Prop := free = [] ∧ s.blk 0 = zeros 8 512

def Backed (s : Machine) (free : List Nat) : Prop := Synced s ∨ Drained s free

structure Backs (s t : Machine) (free free' : List Nat) : Prop where
  synced : Synced s → Backed t free'
  drained : Drained s free → Drained t free'

theorem Backs.trans (one : Backs s t free free') (two : Backs t u free' free'') : Backs s u free free'' := by
  refine ⟨fun synced => ?_,fun drained => two.drained (one.drained drained)⟩
  rcases one.synced synced with still | lost
  · exact two.synced still
  · exact Or.inr (two.drained lost)

theorem Backs.backed (backs : Backs s t free free') (backed : Backed s free) : Backed t free' := by
  rcases backed with synced | drained
  · exact backs.synced synced
  · exact Or.inr (backs.drained drained)

theorem Sound.backs (sound : Sound s t) (zero : t.blk 0 = s.blk 0) : Backs s t free free :=
  ⟨fun synced => Or.inl (sound.synced synced),fun drained => ⟨drained.1,zero.trans drained.2⟩⟩

theorem Quiet.backs (quiet : Quiet s t) : Backs s t free free := quiet.sound.backs (quiet.blk 0)

theorem Still.backs (still : Still s t) : Backs s t free free := still.sound.backs (still.same.blk 0)

theorem filled_zero (layout : Layout s role free) (node : role i = .inode) (mapped : s.lookup i f ≠ 0) (x : Sector) :
    (s.filled i f x).blk 0 = s.blk 0 := by
  unfold Machine.filled
  rw [store_blk,if_neg (layout.lookup_inside node mapped).1.symm]

theorem resized_zero (layout : Layout s role free) (node : role inumber.toNat = .inode) (size : Word) :
    (s.resized inumber size).blk 0 = s.blk 0 := by
  unfold Machine.resized
  rw [store_blk,if_neg (layout.bound node (by simp)).1.symm]

-- An open descriptor, whatever its buffer holds. Its cursor stays in the direct
-- branch, or at its end once bloc 0 is lost.
structure Handle (s : Machine) (role : Nat → Role) (free : List Nat) (fd : FileDesc) : Prop where
  node : role fd.file = .inode
  near : fd.fdsPos.toNat < 63488 ∨ (fd.fdsPos.toNat = 63488 ∧ fd.fdsDirty = false ∧ Drained s free)
  dirty : fd.fdsDirty = true → s.lookup fd.file fd.block ≠ 0

theorem Handle.after (handle : Handle s role free fd) (carries : Carries s t role role' free free')
    (backs : Backs s t free free') : Handle t role' free' fd := by
  refine ⟨carries.node handle.node,handle.near.imp id fun last => ⟨last.1,last.2.1,backs.drained last.2.2⟩,fun dirty => ?_⟩
  rw [carries.kept _ _ handle.node (handle.dirty dirty)]
  exact handle.dirty dirty

theorem Handle.close_by (handle : Handle s role free fd) (dirty : fd.fdsDirty = true) : fd.fdsPos.toNat < 63488 := by
  rcases handle.near with near | ⟨_,clean,_⟩
  · exact near
  · rw [clean] at dirty; cases dirty

-- What became of the byte.
structure Stored (s t : Machine) (role : Nat → Role) (free : List Nat) (fd : FileDesc) (r : Word × FileDesc) : Prop where
  filed : Filed s t role role free free fd.file
  sound : Sound s t
  backs : Backs s t free free
  value : r.1 = fd.fdsPos
  moved : Advanced fd r.2
  handle : Handle t role free r.2
  dirty : r.2.fdsDirty = true ↔ fd.fdsPos.toNat%512 ≠ 511

theorem Handle.store (handle : Handle s role free fd) (layout : Layout s role free) (backed : Backed s free)
    (dirty : fd.fdsDirty = true) :
    Runs (writecStore fd) s (fun r t => Stored s t role free fd r) (fun _ t => Sound s t) := by
  have node := handle.node
  have mapped := handle.dirty dirty
  have near := handle.close_by dirty
  have next := next_pos fd.fdsPos (by omega)
  have reach : Supported fd.block := Or.inl (by unfold FileDesc.block; omega)
  by_cases last : fd.fdsPos.toNat%512 = 511
  swap
  · rw [runs_writecStore_inside last]
    have block : fd.advanced.block = fd.block := by
      unfold FileDesc.block FileDesc.advanced
      dsimp only
      rw [next]
      omega
    have position : fd.advanced.fdsPos.toNat < 63488 := by
      show (fd.fdsPos+1).toNat < 63488
      omega
    have quiet := Quiet.refl s
    exact ⟨quiet.filed layout _,quiet.sound,quiet.backs,rfl,⟨rfl,rfl,rfl⟩,
      ⟨node,Or.inl position,fun _ => by rw [block]; exact mapped⟩,⟨fun _ => last,fun _ => dirty⟩⟩
  have filled : ∀ {u}, Quiet s u → Filed s (u.filled fd.file fd.block fd.fdsBuf) role role free free fd.file ∧
      Sound s (u.filled fd.file fd.block fd.fdsBuf) ∧ (u.filled fd.file fd.block fd.fdsBuf).blk 0 = s.blk 0 := by
    intro u quiet
    have before := layout.quiet quiet
    have mapped' : u.lookup fd.file fd.block ≠ 0 := by rw [quiet.lookup]; exact mapped
    exact ⟨(quiet.filed layout _).trans (filled_filed before node mapped' _),
      quiet.sound.trans (filled_sound before node mapped' _),(filled_zero before node mapped' _).trans (quiet.blk 0)⟩
  by_cases edge : fd.fdsPos.toNat = 63487
  swap
  · refine Runs.of_returns (runs_writecStore_full layout node last mapped reach (Or.inl (by rw [next]; omega))) ?_
    intro r t post
    obtain ⟨u,quiet,quiet',rfl⟩ := post
    obtain ⟨filed,sound,zero⟩ := filled quiet
    have position : (FileDesc.advanced {fd with
        fdsBuf := t.fblock fd.file ((fd.fdsPos+1).toNat/512)
        fdsDirty := false}).fdsPos.toNat < 63488 := by
      show (fd.fdsPos+1).toNat < 63488
      omega
    exact ⟨filed.trans (quiet'.filed filed.layout _),sound.trans quiet'.sound,
      (sound.trans quiet'.sound).backs ((quiet'.blk 0).trans zero),rfl,⟨rfl,rfl,rfl⟩,
      ⟨node,Or.inl position,fun wrong => absurd wrong (by simp [FileDesc.advanced])⟩,
      ⟨fun wrong => absurd wrong (by simp [FileDesc.advanced]),fun other => absurd last other⟩⟩
  · refine runs_writecStore_edge layout node mapped edge fun u quiet => ?_
    obtain ⟨filed,sound,zero⟩ := filled quiet
    generalize u.filled fd.file fd.block fd.fdsBuf = v at filed sound zero ⊢
    have quiet' := (Quiet.load v fd.file).trans (Quiet.load _ 0)
    have backs : Backs s _ free free := (sound.trans quiet'.sound).backs ((quiet'.blk 0).trans zero)
    unfold loadBuffer
    rcases backed with synced | drained
    · have magic := (sound.synced synced).magic filed.layout.mounted
      rw [magic,if_neg (by decide),runs_bind,runs_current]
      exact (runs_readBloc_magic (quiet'.mounted filed.layout.mounted)).mpr (sound.trans quiet'.sound)
    · have null : v.entryAt 0 0 = 0 := by
        unfold Machine.entryAt
        rw [zero,drained.2]
        exact wordAt_zeros 0
      rw [null,if_pos rfl,runs_pure]
      refine ⟨filed.trans (quiet'.filed filed.layout _),sound.trans quiet'.sound,backs,rfl,⟨rfl,rfl,rfl⟩,
        ⟨node,Or.inr ⟨?_,rfl,backs.drained drained⟩,fun wrong => absurd wrong (by simp [FileDesc.advanced])⟩,
        ⟨fun wrong => absurd wrong (by simp [FileDesc.advanced]),fun other => absurd last other⟩⟩
      show (fd.fdsPos+1).toNat = 63488
      omega

-- A byte is stored, or the chain is too short for it.
inductive Wrote (s t : Machine) (free free' : List Nat) (fd : FileDesc) (r : Word × FileDesc) : Prop
  | stored (sound : Sound s t) (value : r.1 = fd.fdsPos) (moved : Advanced fd r.2) (count : free.length = free'.length+fd.price s)
      (dirty : r.2.fdsDirty = true ↔ fd.fdsPos.toNat%512 ≠ 511)
  | short (failed : r.1 = returnFailure) (size : r.2.fdsSize = fd.fdsSize) (lack : free.length < fd.price s)

structure Written (s t : Machine) (role role' : Nat → Role) (free free' : List Nat) (fd : FileDesc) (r : Word × FileDesc) : Prop where
  filed : Filed s t role role' free free' fd.file
  backs : Backs s t free free'
  handle : Handle t role' free' r.2
  inumber : r.2.fdsInumber = fd.fdsInumber
  outcome : Wrote s t free free' fd r

-- The byte goes into a bloc that is mapped by now.
theorem Handle.put (handle : Handle t role' free' fd) (layout : Layout t role' free') (backed : Backed t free') (c : Byte)
    (near : fd.fdsPos.toNat < 63488) (mapped : t.lookup fd.file fd.block ≠ 0)
    (filed : Filed s t role role' free free' fd.file) (sound : Sound s t) (backs : Backs s t free free')
    (count : free.length = free'.length+fd.price s) :
    Runs (writecStore {fd with
        fdsBuf := Words.put fd.fdsBuf (iblocOfPos fd.fdsPos) c
        fdsDirty := true}) t
      (fun r u => Written s u role role' free free' fd r) (fun _ u => Sound s u) := by
  have held : Handle t role' free' {fd with
      fdsBuf := Words.put fd.fdsBuf (iblocOfPos fd.fdsPos) c
      fdsDirty := true} := ⟨handle.node,Or.inl near,fun _ => mapped⟩
  refine (held.store layout backed rfl).mono ?_ (fun _ _ sound' => sound.trans sound')
  intro r u stored
  have moved := stored.moved
  exact ⟨filed.trans stored.filed,backs.trans stored.backs,stored.handle,moved.inumber,
    .stored (sound.trans stored.sound) stored.value ⟨moved.1,moved.2,moved.3⟩ count stored.dirty⟩

-- A clean buffer: the bloc is mapped, or taken from the chain.
theorem Handle.writec_near (handle : Handle s role free fd) (layout : Layout s role free) (backed : Backed s free) (c : Byte)
    (flag : fd.fdsDirty = false) (near : fd.fdsPos.toNat < 63488) :
    Runs (writecIfile fd c) s (fun r t => ∃ role' free', Written s t role role' free free' fd r) (fun _ t => Sound s t) := by
  have node := handle.node
  have price : fd.price s = needed s fd.file fd.block := by unfold FileDesc.price; rw [flag]; rfl
  rw [runs_writec_clean flag]
  have direct : fd.block < 124 := by unfold FileDesc.block; omega
  have need : fd.price s = if s.lookup fd.file fd.block = 0 then 1 else 0 := price_direct s flag near
  have here := blocOfPos_toNat fd.fdsPos
  by_cases hole : s.lookup fd.file fd.block = 0
  swap
  · rw [if_neg hole] at need
    have settled : s.lookup fd.fdsInumber.toNat (blocOfPos fd.fdsPos).toNat ≠ 0 := by rw [here]; exact hole
    refine Runs.of_returns (runs_vbloc_read layout node (by rw [here]; exact Or.inl direct) (Or.inr settled)) ?_
    intro v t post
    obtain ⟨rfl,moved⟩ := post
    rw [if_neg settled]
    refine (Handle.put (handle.after (moved.grew layout).toCarries moved.backs) (layout.quiet moved)
      (moved.backs.backed backed) c near (by rw [moved.lookup]; exact hole) (moved.filed layout _) moved.sound moved.backs
      (by rw [need]; rfl)).mono ?_ (fun _ _ => id)
    exact fun r u written => ⟨role,free,written⟩
  rw [if_pos hole] at need
  refine Runs.of_returns (runs_writec_allocate fd layout node (Or.inl direct)) ?_
  intro v t post
  obtain ⟨role',free',grew,value,ended⟩ := post
  have filed := grew.filed layout fd.file
  rw [← price] at ended
  cases ended with
  | mapped live sound count =>
      have backs : Backs s t free free' := by
        refine ⟨fun synced => Or.inl (sound.synced synced),fun drained => ?_⟩
        rw [drained.1,need] at count
        cases count
      rw [if_neg live]
      refine (Handle.put (handle.after grew.toCarries backs) grew.layout (backs.backed backed) c near
        (by rw [← value]; exact live) filed sound backs count).mono ?_ (fun _ _ => id)
      exact fun r u written => ⟨role',free',written⟩
  | short dry full lack lost =>
      have backs : Backs s t free free' := ⟨fun _ => Or.inr ⟨full,lost⟩,fun _ => ⟨full,lost⟩⟩
      have kept := handle.after grew.toCarries backs
      rw [if_pos dry]
      exact ⟨role',free',filed,backs,⟨kept.node,kept.near,fun wrong => absurd wrong (by simp [flag])⟩,rfl,
        .short rfl rfl lack⟩

-- Behind the direct branch of a drained volume nothing is stored any more.
theorem Handle.writec_over (handle : Handle s role [] fd) (layout : Layout s role []) (c : Byte) (flag : fd.fdsDirty = false)
    (last : fd.fdsPos.toNat = 63488) (zero : s.blk 0 = zeros 8 512) :
    Runs (writecIfile fd c) s (fun r t => ∃ role' free', Written s t role role' [] free' fd r) (fun _ t => Sound s t) := by
  have node := handle.node
  have price : fd.price s = needed s fd.file fd.block := by unfold FileDesc.price; rw [flag]; rfl
  rw [runs_writec_clean flag]
  have block : (blocOfPos fd.fdsPos).toNat = 124 := by rw [blocOfPos_toNat,last]
  have null : s.entryAt 0 ((blocOfPos fd.fdsPos).toNat-124) = 0 := by
    unfold Machine.entryAt
    rw [zero]
    exact wordAt_zeros _
  rw [runs_vbloc_indirect_full layout node (by omega) (by omega) null layout.chain.empty,if_pos rfl]
  have mounted := layout.mounted
  have loaded := (Quiet.load s fd.file).trans (Quiet.load _ 0)
  have first := cleared_starved (loaded.mounted mounted)
  have second : Starved ((s.load fd.file).load 0).cleared
      (((s.load fd.file).load 0).cleared.store 0 (s.blk 0) (.bloc s.currentVolume 0)) := by
    refine ⟨.store (s := ((s.load fd.file).load 0).cleared) (Nat.lt_of_lt_of_le (by decide) mounted.room) _ _,rfl,?_⟩
    intro c live
    exact (store_blk _ _ _ _ _).trans (if_neg live)
  have starved := loaded.starved.trans (first.trans second)
  have lost : (((s.load fd.file).load 0).cleared.store 0 (s.blk 0) (.bloc s.currentVolume 0)).blk 0 = zeros 8 512 := by
    rw [store_blk,if_pos rfl]
    exact zero
  have backs : Backs s (((s.load fd.file).load 0).cleared.store 0 (s.blk 0) (.bloc s.currentVolume 0)) [] [] :=
    ⟨fun _ => Or.inr ⟨rfl,lost⟩,fun _ => ⟨rfl,lost⟩⟩
  have kept := handle.after (starved.grew layout).toCarries backs
  refine ⟨role,[],(starved.grew layout).filed layout _,backs,⟨kept.node,kept.near,fun wrong => absurd wrong (by simp [flag])⟩,
    rfl,.short rfl rfl ?_⟩
  have end' : fd.block = 124 := by unfold FileDesc.block; rw [last]
  rw [price]
  unfold needed
  rw [if_neg (by omega),lookup_unsupported s fd.file (show ¬ Supported fd.block by rw [end']; decide),List.length_nil]
  split
  · decide
  · split <;> decide

theorem Handle.writec (handle : Handle s role free fd) (layout : Layout s role free) (backed : Backed s free) (c : Byte) :
    Runs (writecIfile fd c) s (fun r t => ∃ role' free', Written s t role role' free free' fd r) (fun _ t => Sound s t) := by
  have quiet := Quiet.refl s
  cases flag : fd.fdsDirty with
  | true =>
      have paid : free.length = free.length+fd.price s := by unfold FileDesc.price; rw [if_pos flag]; rfl
      rw [runs_writec_dirty flag]
      refine (handle.put layout backed c (handle.close_by flag) (handle.dirty flag) (quiet.filed layout _) quiet.sound quiet.backs
        paid).mono ?_ (fun _ _ => id)
      exact fun r t written => ⟨role,free,written⟩
  | false =>
      rcases handle.near with near | ⟨last,_,none,zero⟩
      · exact handle.writec_near layout backed c flag near
      · subst none
        exact handle.writec_over layout c flag last zero

-- What writing through a descriptor leaves, whether or not there was room.
structure Fed (s t : Machine) (role role' : Nat → Role) (free free' : List Nat) (fd fd' : FileDesc) : Prop where
  filed : Filed s t role role' free free' fd.file
  backs : Backs s t free free'
  handle : Handle t role' free' fd'
  inumber : fd'.fdsInumber = fd.fdsInumber

theorem Written.fed {r : Word × FileDesc} (written : Written s t role role' free free' fd r) :
    Fed s t role role' free free' fd r.2 := ⟨written.filed,written.backs,written.handle,written.inumber⟩

theorem Fed.trans {fd' fd'' : FileDesc} (one : Fed s t role role' free free' fd fd')
    (two : Fed t u role' role'' free' free'' fd' fd'') : Fed s u role role'' free free'' fd fd'' := by
  have file : fd'.file = fd.file := congrArg BitVec.toNat one.inumber
  have filed := two.filed
  rw [file] at filed
  exact ⟨one.filed.trans filed,one.backs.trans two.backs,two.handle,two.inumber.trans one.inumber⟩

-- Byte after byte, to the end of the text or of the volume.
theorem Handle.writeChars (handle : Handle s role free fd) (layout : Layout s role free) (backed : Backed s free) (text : List Byte) :
    Runs (writeChars text fd) s (fun r t => ∃ role' free', Fed s t role role' free free' fd r.2) (fun _ _ => True) := by
  induction text generalizing s role free fd with
  | nil =>
      have quiet := Quiet.refl s
      exact ⟨role,free,quiet.filed layout _,quiet.backs,handle,rfl⟩
  | cons c more ih =>
      unfold AsePlusPlus.writeChars
      rw [runs_bind]
      refine (handle.writec layout backed c).mono ?_ (fun _ _ _ => trivial)
      intro r t wrote
      obtain ⟨role',free',written⟩ := wrote
      obtain ⟨status,fd'⟩ := r
      dsimp only
      split
      · exact ⟨role',free',written.fed⟩
      · refine (ih written.handle written.filed.layout (written.backs.backed backed)).mono ?_ (fun _ _ => id)
        intro r u fed
        obtain ⟨role'',free'',later⟩ := fed
        exact ⟨role'',free'',written.fed.trans later⟩

-- What the descriptor owes is written, then the size.
theorem Handle.flush (handle : Handle s role free fd) (layout : Layout s role free) :
    Returns (flushIfile fd) s fun fd' t => fd' = {fd with fdsDirty := false} ∧ Filed s t role role free free fd.file ∧
      Sound s t ∧ t.blk 0 = s.blk 0 := by
  cases flag : fd.fdsDirty with
  | false =>
      have quiet := Quiet.refl s
      rw [Returns,runs_flush_clean flag]
      exact ⟨by cases fd; simp_all,quiet.filed layout _,quiet.sound,rfl⟩
  | true =>
      have near := handle.close_by flag
      have mapped := handle.dirty flag
      refine (runs_flush_dirty layout handle.node flag mapped (Or.inl (by unfold FileDesc.block; omega))).mono ?_ (fun _ _ => id)
      intro fd' t post
      obtain ⟨moved,u,quiet,rfl⟩ := post
      have before := layout.quiet quiet
      have mapped' : u.lookup fd.file fd.block ≠ 0 := by rw [quiet.lookup]; exact mapped
      exact ⟨moved,(quiet.filed layout _).trans (filled_filed before handle.node mapped' _),
        quiet.sound.trans (filled_sound before handle.node mapped' _),(filled_zero before handle.node mapped' _).trans (quiet.blk 0)⟩

theorem Handle.close (handle : Handle s role free fd) (layout : Layout s role free) :
    Returns (closeIfile fd) s fun fd' t => Filed s t role role free free fd.file ∧ Sound s t ∧ Backs s t free free ∧
      t.entryAt fd.file 1 = fd.fdsSize ∧ fd' = {fd with fdsDirty := false} := by
  have flush := handle.flush layout
  unfold closeIfile
  rw [Returns,runs_bind]
  refine flush.mono ?_ (fun _ _ => id)
  intro fd' u post
  obtain ⟨moved,filed,sound,zero⟩ := post
  have inumber : fd'.fdsInumber = fd.fdsInumber := by rw [moved]
  have size : fd'.fdsSize = fd.fdsSize := by rw [moved]
  have clean : fd'.fdsDirty = false := by rw [moved]
  have file : fd'.file = fd.file := congrArg BitVec.toNat inumber
  have node : role fd'.file = .inode := by rw [file]; exact handle.node
  have after := filed.layout
  have inside := (after.bound node (by simp)).2
  have quiet := Quiet.load u fd'.file
  have loaded := after.quiet quiet
  have step := runs_close_clean (Q := fun r t => Filed s t role role free free fd.file ∧ Sound s t ∧ Backs s t free free ∧
    t.entryAt fd.file 1 = fd.fdsSize ∧ r = {fd with fdsDirty := false}) (E := fun _ _ => False) after.mounted inside clean
  unfold closeIfile at step
  rw [runs_bind,runs_flush_clean clean] at step
  refine step.mpr ?_
  have last := resized_filed loaded node fd'.fdsSize
  have sound' := (sound.trans quiet.sound).trans (resized_sound loaded node fd'.fdsSize)
  have zero' : ((u.load fd'.file).resized fd'.fdsInumber fd'.fdsSize).blk 0 = s.blk 0 :=
    (resized_zero loaded node _).trans ((quiet.blk 0).trans zero)
  rw [show fd'.fdsInumber.toNat = fd.file from file] at last
  refine ⟨(filed.trans (quiet.filed after _)).trans last,sound',sound'.backs zero',?_,moved⟩
  rw [resized_entry _ _ _ _ (by decide),if_pos ⟨file.symm,rfl⟩,size]

end AsePlusPlus
