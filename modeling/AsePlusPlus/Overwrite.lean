import AsePlusPlus.Edit
import AsePlusPlus.MapRuns

namespace AsePlusPlus
open Words Program

variable {role role' : Nat → Role} {free free' rest : List Nat} {s t u : Machine} {fd : FileDesc} {content : Nat → Byte}
variable {i j b f w n : Nat} {inumber fbloc pos : Word} {c : Byte}

-- The blocs of a file: its inode, the tables that map it and its data.
inductive Machine.Comprises (s : Machine) (j : Nat) : Nat → Prop
  | inode : Comprises s j j
  | double (live : s.entryAt j 127 ≠ 0) : Comprises s j (s.entryAt j 127).toNat
  | index (f : Nat) (reached : f < 888) (live : s.indexOf j f ≠ 0) : Comprises s j (s.indexOf j f).toNat
  | data (f : Nat) (live : s.lookup j f ≠ 0) : Comprises s j (s.lookup j f).toNat

-- Blocs in use that file `i` has no data in.
structure Foreign (role : Nat → Role) (i b : Nat) : Prop where
  other : b ≠ i
  named : role b ≠ .none
  busy : role b ≠ .free
  data : ∀ f, role b ≠ .data i f

theorem Machine.Comprises.foreign (comprises : s.Comprises j b) (layout : Layout s role free) (node : role j = .inode) (node' : role i = .inode)
    (other : j ≠ i) : Foreign role i b := by
  have away : ∀ c, role c ≠ .inode → c ≠ i := by
    intro c differs same
    subst same
    exact differs node'
  cases comprises with
  | inode => exact ⟨other,by simp [node],by simp [node],by simp [node]⟩
  | double live =>
      have used := layout.double_role node live
      exact ⟨away _ (by simp [used]),by simp [used],by simp [used],by simp [used]⟩
  | index f reached live =>
      have used := layout.index_role node reached live
      exact ⟨away _ (by simp [used]),by simp [used],by simp [used],by simp [used]⟩
  | data f live =>
      have used := layout.lookup_role node live
      refine ⟨away _ (by simp [used]),by simp [used],by simp [used],fun g => ?_⟩
      rw [used]
      intro same
      cases same
      exact other rfl

theorem Foreign.carried (foreign : Foreign role i b) (kept : ∀ c, role c ≠ .free → role' c = role c) : Foreign role' i b := by
  have same := kept b foreign.busy
  exact ⟨foreign.other,by rw [same]; exact foreign.named,by rw [same]; exact foreign.busy,by rw [same]; exact foreign.data⟩

-- The blocs that are nothing to file `i` are as they were.
def Aside (role : Nat → Role) (i : Nat) (s t : Machine) : Prop := ∀ b, Foreign role i b → t.blk b = s.blk b

theorem Aside.trans (one : Aside role i s t) (two : Aside role i t u) : Aside role i s u :=
  fun b foreign => (two b foreign).trans (one b foreign)

theorem Aside.since (aside : Aside role' i s t) (kept : ∀ c, role c ≠ .free → role' c = role c) : Aside role i s t :=
  fun b foreign => aside b (foreign.carried kept)

theorem Quiet.aside (quiet : Quiet s t) (role : Nat → Role) (i : Nat) : Aside role i s t := fun b _ => quiet.blk b

-- Storing a pointer touches its bloc, the head of the chain and bloc 0.
theorem stage_aside {c : Word} {link : Word → M Unit} (layout : Layout s role free)
    (pointer : (role c.toNat).target c.toNat w ≠ .none) (stores : Stores link c w (s.blk c.toNat) s.currentVolume) :
    Returns (blocOrAllocate (s.entryAt c.toNat w) link) s fun _ t =>
      ∀ b, b ≠ c.toNat → role b ≠ .none → role b ≠ .free → t.blk b = s.blk b := by
  by_cases null : s.entryAt c.toNat w = 0
  swap
  · rw [Returns,runs_blocOrAllocate_kept null]
    exact fun _ _ _ _ => rfl
  have mounted := layout.mounted
  cases free with
  | nil =>
      have inside := (layout.inside _ (pointer_real pointer)).2
      have cleared : Mounted s.cleared := (store_mounted _ _ _ _).mpr mounted
      rw [null,Returns,runs_blocOrAllocate_full mounted layout.chain.empty,stores 0 _ _ _ cleared inside rfl]
      intro b other named _
      rw [store_blk,if_neg other]
      exact (cleared_starved mounted).kept b (layout.inside b named).1
  | cons head rest =>
      have inside := (linked_live layout pointer).2.2
      have claimed : Mounted (s.claimed (zeros 8 512)) := (store_mounted _ _ _ _).mpr (took_mounted mounted)
      rw [null,Returns,runs_blocOrAllocate_new layout,stores _ _ _ _ claimed inside rfl]
      intro b other named busy
      have linked := linked_blk (c := c) (w := w) layout (layout.inside b named).1
      rw [if_neg other,if_neg] at linked
      · exact linked
      · intro same
        exact busy ((layout.vacant b).mpr (by simp [same]))

theorem vbloc_aside (layout : Layout s role free) (node : role inumber.toNat = .inode) (direct : fbloc.toNat < 124) :
    Returns (vblocOfFbloc inumber fbloc true) s fun _ t => Aside role inumber.toNat s t := by
  have inside := (layout.bound node (by simp)).2
  have loaded := layout.quiet (Quiet.load s inumber.toNat)
  have stores := writeInode_stores
    (fun p => {s.inodeAt inumber.toNat with blocsDirects := put (s.inodeAt inumber.toNat).blocsDirects fbloc.toNat p})
    (fun p => encode_direct (s.blk inumber.toNat) p direct) inumber s.currentVolume
  have pointer : (role inumber.toNat).target inumber.toNat (fbloc.toNat+2) ≠ .none := by
    rw [node,target_direct _ direct]
    simp
  rw [vblocOfFbloc_eq,Returns,runs_bind,runs_readInode layout.mounted inside,if_pos direct]
  simp only [directBloc,inodeAt_direct _ _ direct,Bool.true_eq_false,and_false,if_false]
  refine (stage_aside loaded pointer stores).mono ?_ (fun _ _ => id)
  intro _ t kept b foreign
  exact kept b foreign.other foreign.named foreign.busy

theorem filled_aside (layout : Layout s role free) (node : role i = .inode) (mapped : s.lookup i f ≠ 0) (x : Sector) :
    Aside role i s (s.filled i f x) := by
  intro b foreign
  have used := layout.lookup_role node mapped
  unfold Machine.filled
  rw [store_blk,if_neg]
  intro same
  subst same
  exact foreign.data f used

theorem store_aside (layout : Layout s role free) (node : role fd.file = .inode) (mapped : s.lookup fd.file fd.block ≠ 0)
    (near : fd.fdsPos.toNat+1 < 63488) : Returns (writecStore fd) s fun _ t => Aside role fd.file s t := by
  have here : Supported fd.block := Or.inl (by unfold FileDesc.block; omega)
  have there : Supported ((fd.fdsPos+1).toNat/512) := Or.inl (by rw [next_pos _ (by omega)]; omega)
  by_cases last : fd.fdsPos.toNat%512 = 511
  swap
  · rw [Returns,runs_writecStore_inside last]
    exact fun _ _ => rfl
  refine (runs_writecStore_full layout node last mapped here there).mono ?_ (fun _ _ => id)
  intro _ t post
  obtain ⟨v,quiet,quiet',_⟩ := post
  have filled := filled_aside (layout.quiet quiet) node (by rw [quiet.lookup]; exact mapped) fd.fdsBuf
  exact ((quiet.aside role fd.file).trans filled).trans (quiet'.aside role fd.file)

theorem Writing.writec_aside (writing : Writing s t role role' free free' fd content) (c : Byte)
    (near : fd.fdsPos.toNat+1 < 63488) (enough : fd.price t ≤ free'.length) :
    Returns (writecIfile fd c) t fun _ u => Aside role fd.file t u := by
  have reach : Supported fd.block := Or.inl (by unfold FileDesc.block; omega)
  cases flag : fd.fdsDirty with
  | true =>
      have after := writing.put c (writing.coherent.dirty flag)
      rw [Returns,runs_writec_dirty flag]
      refine (store_aside after.layout after.here (after.coherent.dirty rfl) near).mono ?_ (fun _ _ => id)
      intro _ u aside
      exact aside.since writing.roles
  | false =>
      have price : fd.price t = needed t fd.file fd.block := by simp [FileDesc.price,flag]
      have direct : (blocOfPos fd.fdsPos).toNat < 124 := by rw [blocOfPos_toNat]; omega
      rw [price] at enough
      rw [Returns,runs_writec_clean flag]
      refine ((runs_writec_allocate fd writing.layout writing.here reach).and
        (vbloc_aside writing.layout writing.here direct)).mono ?_ (fun _ _ => id)
      intro v u post
      obtain ⟨⟨role'',free'',grew,value,ended⟩,aside⟩ := post
      cases ended with
      | short _ _ lack => omega
      | mapped live sound count =>
          rw [if_neg live]
          have after := (writing.grow grew).put c (by rw [← value]; exact live)
          refine (store_aside after.layout after.here (after.coherent.dirty rfl) near).mono ?_ (fun _ _ => id)
          intro _ x aside'
          exact (aside.since writing.roles).trans (aside'.since after.roles)

theorem Writing.writeChars_aside (writing : Writing s t role role' free free' fd content) (text : List Byte)
    (near : fd.fdsPos.toNat+text.length < 63488) (enough : fd.cost t text.length ≤ free'.length) :
    Returns (AsePlusPlus.writeChars text fd) t fun _ u => Aside role fd.file t u := by
  induction text generalizing fd t role' free' content with
  | nil => exact fun _ _ => rfl
  | cons c rest ih =>
      rw [List.length_cons] at near enough
      have first := Nat.le_trans (price_le t fd rest.length) enough
      rw [AsePlusPlus.writeChars,Returns,runs_bind]
      refine ((writing.byte c (by omega) first).and (writing.writec_aside c (by omega) first)).mono ?_ (fun _ _ => id)
      intro result u post
      obtain ⟨r,fd'⟩ := result
      obtain ⟨⟨accepted,role'',free'',byted⟩,aside⟩ := post
      dsimp only at accepted ⊢
      rw [if_neg accepted]
      have next := byted.stepped.position
      have left := byted.left
      have cost := byted.cost rest.length
      have more := ih byted.writing (by omega) (by omega)
      rw [byted.stepped.file] at more
      exact more.mono (fun _ v aside' => aside.trans aside') (fun _ _ => id)

theorem Writing.flush_aside (writing : Writing s t role role' free free' fd content) (reach : Supported fd.block) :
    Returns (flushIfile fd) t fun _ u => Aside role fd.file t u := by
  cases flag : fd.fdsDirty with
  | false =>
      rw [Returns,runs_flush_clean flag]
      exact fun _ _ => rfl
  | true =>
      have mapped := writing.coherent.dirty flag
      refine (runs_flush_dirty writing.layout writing.here flag mapped reach).mono ?_ (fun _ _ => id)
      intro _ u post
      obtain ⟨_,v,quiet,rfl⟩ := post
      have filled := filled_aside (writing.layout.quiet quiet) writing.here (by rw [quiet.lookup]; exact mapped) fd.fdsBuf
      exact ((quiet.aside role' fd.file).trans filled).since writing.roles

theorem Writing.close_aside (writing : Writing s t role role' free free' fd content) (reach : Supported fd.block) :
    Returns (closeIfile fd) t fun _ u => Aside role fd.file t u := by
  unfold closeIfile
  rw [Returns,runs_bind]
  refine ((writing.flush reach).and (writing.flush_aside reach)).mono ?_ (fun _ _ => id)
  intro fd' u post
  obtain ⟨⟨after,_,_,rfl⟩,aside⟩ := post
  have clean : FileDesc.fdsDirty {fd with fdsDirty := false} = false := rfl
  have inside := (after.layout.bound after.here (by simp)).2
  have step := runs_close_clean (Q := fun _ w => Aside role fd.file t w) (E := fun _ _ => False) after.layout.mounted inside clean
  unfold closeIfile at step
  rw [runs_bind,runs_flush_clean clean] at step
  refine step.mpr (aside.trans fun b foreign => ?_)
  unfold Machine.resized
  rw [store_blk]
  exact if_neg foreign.other

theorem Writing.seek2 (writing : Writing s t role role' free free' fd content) (clean : fd.fdsDirty = false)
    (near : pos.toNat < 63488) :
    Returns (seek2Ifile fd pos) t fun fd' u => Writing s u role role' free free' fd' content ∧ Quiet t u ∧
      fd'.fdsInumber = fd.fdsInumber ∧ fd'.fdsSize = fd.fdsSize ∧ fd'.fdsPos = pos ∧ fd'.fdsDirty = false := by
  have there : fd.fdsPos+(pos-fd.fdsPos) = pos := by rw [BitVec.add_comm,BitVec.sub_add_cancel]
  unfold seek2Ifile
  refine (writing.seek clean (by rw [there]; exact Or.inl (by omega))).mono ?_ (fun _ _ => id)
  intro fd' u post
  obtain ⟨after,quiet,inumber,size,position,clean'⟩ := post
  rw [there] at position
  exact ⟨after,quiet,inumber,size,position,clean'⟩

-- A file opened, one write made at a position of it, and the file closed.
def overwrite (inumber pos : Word) (buf : Vector Byte n) : M Word := do
  let (_,fd) ← openIfile inumber
  let fd ← seek2Ifile fd pos
  let (nbyte,fd) ← writeIfile fd buf
  let _ ← closeIfile fd
  return nbyte

structure Overwritten (s t : Machine) (role : Nat → Role) (i p : Nat) (buf : Vector Byte n) : Prop where
  inside : ∀ k, k < n → t.byteAt i (p+k) = cell buf k
  elsewhere : ∀ q, q < p ∨ p+n ≤ q → t.byteAt i q = s.byteAt i q
  size : (t.entryAt i 1).toNat = max (s.entryAt i 1).toNat (p+n-1)
  others : ∀ j b, role j = .inode → j ≠ i → s.Comprises j b → t.blk b = s.blk b

theorem overwrite_in_place (layout : Layout s role free) (node : role inumber.toNat = .inode) (buf : Vector Byte n) (some : 0 < n)
    (near : pos.toNat+n < 124*512)
    (enough : s.holes inumber.toNat (pos.toNat/512) ((pos.toNat+n-1)/512-pos.toNat/512+1) ≤ free.length) :
    Returns (overwrite inumber pos buf) s fun r t => r.toNat = n ∧ Overwritten s t role inumber.toNat pos.toNat buf ∧
      ∃ role' free', Extends s t role role' free free' := by
  have length : buf.toList.length = n := Vector.length_toList
  unfold overwrite
  rw [Returns,runs_bind]
  refine (Writing.open layout inumber node).mono ?_ (fun _ _ => id)
  intro result t post
  obtain ⟨_,fd⟩ := result
  obtain ⟨opened,quiet,_,number,size,_,clean⟩ := post
  dsimp only at opened number size clean ⊢
  rw [runs_bind]
  refine (opened.seek2 clean (by omega)).mono ?_ (fun _ _ => id)
  intro fd1 u post
  obtain ⟨sought,quiet1,number1,size1,position,clean1⟩ := post
  have file : fd1.file = inumber.toNat := congrArg BitVec.toNat (number1.trans number)
  have same : ∀ f, u.lookup fd1.file f = s.lookup inumber.toNat f := by
    intro f
    rw [file,quiet1.lookup,quiet.lookup]
  have cost : fd1.cost u buf.toList.length ≤ free.length := by
    have price := price_direct u clean1 (by rw [position]; omega)
    have block : fd1.block = pos.toNat/512 := by unfold FileDesc.block; rw [position]
    rw [holes_succ] at enough
    unfold FileDesc.cost
    rw [length,if_neg (by omega),price,block,same,position,file]
    exact Nat.le_trans (Nat.add_le_add_left (holes_mono (fun g live => by rw [← file,same]; exact live) _ _) _) enough
  have room : fd1.fdsPos.toNat+buf.toList.length < 63488 := by rw [position,length]; omega
  rw [runs_bind]
  unfold writeIfile
  rw [runs_bind]
  refine ((sought.writeChars buf.toList room cost).and (sought.writeChars_aside buf.toList room cost)).mono ?_ (fun _ _ => id)
  intro result v post
  obtain ⟨written,fd2⟩ := result
  obtain ⟨⟨done,streamed⟩,aside⟩ := post
  dsimp only at done streamed ⊢
  subst done
  rw [if_pos rfl,runs_pure]
  obtain ⟨⟨role',free',writing,_⟩,_,stepped,_,_⟩ := streamed
  have file2 : fd2.file = inumber.toNat := stepped.file.trans file
  have reach : Supported fd2.block := Or.inl (by unfold FileDesc.block; rw [stepped.position]; omega)
  dsimp only
  rw [runs_bind]
  refine ((writing.close reach).and (writing.close_aside reach)).mono ?_ (fun _ _ => id)
  intro _ x post
  obtain ⟨⟨closed,_,_⟩,aside'⟩ := post
  rw [file2] at closed aside'
  rw [file] at aside
  rw [position] at closed
  have frame := (((quiet.aside role inumber.toNat).trans (quiet1.aside role inumber.toNat)).trans aside).trans aside'
  rw [runs_pure]
  refine ⟨?_,⟨?_,?_,?_,?_⟩,role',free',closed.toExtends⟩
  · rw [BitVec.toNat_ofNat]
    omega
  · intro k small
    rw [closed.content,splice_cell _ _ _ small]
  · intro q outside
    rw [closed.content,splice_outside _ _ (by rw [length]; exact outside)]
  · rw [closed.sizes _ node,if_pos rfl,stepped.size,length,if_neg (by omega),size1,size,position]
  · intro j b other differs comprises
    exact frame b (comprises.foreign layout other node differs)

-- Four bytes across the end of a bloc, where no bloc is mapped yet.
theorem overwrite_across : ∃ s t, initSuper 0 0 (zeros 8 32) (recordedDisk (volumeOf 64)) = (.ok (),s) ∧
    overwrite 1 510 (build 4 fun k => BitVec.ofNat 8 (k+65)) s = (.ok 4,t) ∧ t.byteAt 1 511 = 66 ∧ t.byteAt 1 512 = 67 := by
  obtain ⟨s,equal,fresh,size⟩ := volumeOf_fresh (n := 64) (by decide) (by decide) 0 (zeros 8 32)
  have node : freshRole s.nsec (1 : Word).toNat = .inode := fresh.tracked.nodes 1 (by simp)
  have few : s.holes 1 0 2 ≤ 2 := List.countP_le_length
  have enough : s.holes (1 : Word).toNat ((510 : Word).toNat/512) (((510 : Word).toNat+4-1)/512-(510 : Word).toNat/512+1) ≤
      (List.range' 2 (s.nsec-2)).length := by
    rw [List.length_range',size]
    exact Nat.le_trans few (by decide)
  obtain ⟨r,t,ran,value,written,_⟩ := returns_iff.mp (overwrite_in_place fresh.layout node
    (build 4 fun k => BitVec.ofNat 8 (k+65)) (by decide) (by decide) enough)
  have four : r = 4 := BitVec.eq_of_toNat_eq value
  subst four
  have second := written.inside 1 (by decide)
  have third := written.inside 2 (by decide)
  rw [cell_build _ (by decide)] at second third
  exact ⟨s,t,equal,ran,second,third⟩

end AsePlusPlus
