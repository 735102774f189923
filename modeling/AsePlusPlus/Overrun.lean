import Mathlib.Algebra.Group.Nat.Defs
import AsePlusPlus.Indirect
import AsePlusPlus.Stream

namespace AsePlusPlus
open Words Program

variable {role role' : Nat → Role} {free free' : List Nat} {s t u : Machine} {fd : FileDesc} {content : Nat → Byte}

-- The superbloc taken for a table leads far off the disk.
theorem far_cylinder (cylinder sector : Nat) (fits : 32*cylinder+sector ≤ 32768) :
    1024 ≤ (cylinder+(sector+2899120129)%2^32/32)%2^32%65536 := by omega

theorem magic_beyond (m : Mounted s) :
    1024 ≤ (s.vol.volCylinder+(s.vol.volSector+superMagic)/32).toNat%65536 := by
  have fits := m.fits
  have divisor : (32 : Word).toNat = 32 := rfl
  have magic : superMagic.toNat = 2899120129 := rfl
  unfold Machine.start at fits
  rw [BitVec.toNat_add,BitVec.toNat_udiv,BitVec.toNat_add,divisor,magic]
  exact far_cylinder _ _ (Nat.le_trans (Nat.le_add_right _ _) fits)

theorem runs_readBloc_magic {Q : Sector → Machine → Prop} {E : Stop → Machine → Prop} (m : Mounted s) :
    Runs (readBloc s.currentVolume superMagic) s Q E ↔ E .seek s := by
  have positive : (512 : Nat) ≠ 0 := by decide
  simp only [readBloc,readSector,readNsector,runs_bind,(runs_address m).1,(runs_address m).2,runs_ensure,
    if_pos positive,runs_seekSector_out (magic_beyond m)]

-- The last byte of the direct branch: the next bloc is looked up in bloc 0.
theorem runs_writecStore_edge {Q : Word × FileDesc → Machine → Prop} {E : Stop → Machine → Prop} (layout : Layout s role free)
    (node : role fd.file = .inode) (mapped : s.lookup fd.file fd.block ≠ 0) (last : fd.fdsPos.toNat = 63487)
    (rest : ∀ u, Quiet s u → Runs (loadBuffer ((u.filled fd.file fd.block fd.fdsBuf).entryAt 0 0))
      (((u.filled fd.file fd.block fd.fdsBuf).load fd.file).load 0)
      (fun buf t => Q (fd.fdsPos,FileDesc.advanced {fd with
        fdsBuf := buf
        fdsDirty := false}) t) E) : Runs (writecStore fd) s Q E := by
  have block : fd.block = 123 := by unfold FileDesc.block; rw [last]
  have whole : iblocOfPos fd.fdsPos = 512-1 := by unfold iblocOfPos; rw [last]
  have here := blocOfPos_toNat fd.fdsPos
  have next := blocOfPos_toNat (fd.fdsPos+1)
  rw [next_pos fd.fdsPos (by omega),last] at next
  have served : Supported (blocOfPos fd.fdsPos).toNat := Or.inl (by omega)
  unfold writecStore
  rw [if_pos whole]
  simp only [runs_bind,runs_current]
  refine Runs.of_returns (runs_vbloc_read layout node served (Or.inl rfl)) ?_
  intro v u post
  obtain ⟨rfl,quiet⟩ := post
  rw [here,← quiet.lookup]
  have before := layout.quiet quiet
  have mapped' : u.lookup fd.file fd.block ≠ 0 := by rw [quiet.lookup]; exact mapped
  refine (runs_filled before node mapped' fd.fdsBuf).mpr ?_
  have stored := (filled_extends before node mapped' fd.fdsBuf).layout
  rw [runs_vbloc_indirect_word stored node (by omega) (by omega) (Or.inl rfl),next]
  refine (rest u quiet).mono ?_ (fun _ _ => id)
  intro buf t post
  rw [runs_pure,writecAdvance_eq]
  exact post

-- In the superbloc it finds a magic number, and the disk never gets there.
theorem Writing.store_lost (writing : Writing s t role role' free free' fd content) (synced : Synced t)
    (dirty : fd.fdsDirty = true) (last : fd.fdsPos.toNat = 63487) :
    Runs (writecStore fd) t (fun _ _ => False) (fun e u => e = .seek ∧ Sound t u) := by
  have mapped := writing.coherent.dirty dirty
  refine runs_writecStore_edge writing.layout writing.here mapped last fun u quiet => ?_
  have before := writing.layout.quiet quiet
  have mapped' : u.lookup fd.file fd.block ≠ 0 := by rw [quiet.lookup]; exact mapped
  have stored := (filled_extends before writing.here mapped' fd.fdsBuf).layout
  have sound := quiet.sound.trans (filled_sound before writing.here mapped' fd.fdsBuf)
  generalize u.filled fd.file fd.block fd.fdsBuf = v at stored sound ⊢
  have loaded := (Quiet.load v fd.file).trans (Quiet.load _ 0)
  unfold loadBuffer
  rw [(sound.synced synced).magic stored.mounted,if_neg (by decide),runs_bind,runs_current]
  exact (runs_readBloc_magic (loaded.mounted stored.mounted)).mpr ⟨rfl,sound.trans loaded.sound⟩

theorem Writing.writec_lost (writing : Writing s t role role' free free' fd content) (synced : Synced t) (c : Byte)
    (last : fd.fdsPos.toNat = 63487) (enough : fd.price t ≤ free'.length) :
    Runs (writecIfile fd c) t (fun _ _ => False) (fun e u => e = .seek ∧ Sound t u) := by
  have block : fd.block = 123 := by unfold FileDesc.block; rw [last]
  cases flag : fd.fdsDirty with
  | true =>
      rw [runs_writec_dirty flag]
      exact (writing.put c (writing.coherent.dirty flag)).store_lost synced rfl last
  | false =>
      rw [FileDesc.price,flag,if_neg (by decide)] at enough
      rw [runs_writec_clean flag]
      refine (runs_writec_allocate _ writing.layout writing.here (Or.inl (by omega))).mono ?_ (fun _ _ => False.elim)
      intro v u post
      obtain ⟨role'',free'',grew,value,ended⟩ := post
      cases ended with
      | short _ _ lack => exact absurd enough (Nat.not_le.mpr lack)
      | mapped live sound count =>
          rw [if_neg live]
          have mapped : u.lookup fd.file fd.block ≠ 0 := by rw [← value]; exact live
          refine (((writing.grow grew).put c mapped).store_lost (sound.synced synced) rfl last).mono (fun _ _ => id) ?_
          exact fun e w lost => ⟨lost.1,sound.trans lost.2⟩

-- A text that reaches past the direct branch is never written.
theorem Writing.writeChars_lost (writing : Writing s t role role' free free' fd content) (synced : Synced t)
    (text : List Byte) (far : 63488 ≤ fd.fdsPos.toNat+text.length) (near : fd.fdsPos.toNat < 63488)
    (enough : fd.cost t (63488-fd.fdsPos.toNat) ≤ free'.length) :
    Runs (AsePlusPlus.writeChars text fd) t (fun _ _ => False) (fun e u => e = .seek ∧ Sound t u) := by
  induction text generalizing fd t role' free' content with
  | nil => exact absurd far (by rw [List.length_nil]; omega)
  | cons c rest ih =>
      rw [List.length_cons] at far
      obtain ⟨n,count⟩ : ∃ n, 63488-fd.fdsPos.toNat = n+1 := ⟨63487-fd.fdsPos.toNat,by omega⟩
      rw [count] at enough
      have price := Nat.le_trans (price_le t fd n) enough
      rw [AsePlusPlus.writeChars,runs_bind]
      by_cases last : fd.fdsPos.toNat = 63487
      · exact (writing.writec_lost synced c last price).mono (fun _ _ => False.elim) (fun _ _ => id)
      refine (writing.byte c (by omega) price).mono ?_ (fun _ _ => False.elim)
      intro result u post
      obtain ⟨r,fd'⟩ := result
      obtain ⟨accepted,role'',free'',byted⟩ := post
      have next := byted.stepped.position
      have left := byted.left
      have cost := byted.cost n
      dsimp only at accepted next cost ⊢
      rw [if_neg accepted]
      have rest : 63488-fd'.fdsPos.toNat = n := by omega
      have ran := ih byted.writing (byted.sound.synced synced) (by dsimp only; omega) (by dsimp only; omega)
        (by dsimp only; rw [rest]; omega)
      exact ran.mono (fun _ _ => id) fun e v lost => ⟨lost.1,byted.sound.trans lost.2⟩

end AsePlusPlus
