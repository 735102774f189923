import AsePlusPlus.Content

namespace AsePlusPlus
open Words Program

variable {role role' role'' : Nat → Role} {free free' free'' : List Nat} {s t u : Machine} {i f : Nat}
variable {inumber offset : Word} {fd fd' : FileDesc} {c : Byte} {content : Nat → Byte}

def FileDesc.file (fd : FileDesc) : Nat := fd.fdsInumber.toNat
def FileDesc.block (fd : FileDesc) : Nat := fd.fdsPos.toNat/512

def Machine.byteAt (s : Machine) (i q : Nat) : Byte := cell (s.fblock i (q/512)) (q%512)

-- A byte of the file as the owner of the descriptor sees it.
def Machine.viewAt (s : Machine) (fd : FileDesc) (q : Nat) : Byte :=
  if q/512 = fd.block then cell fd.fdsBuf (q%512) else s.byteAt fd.file q

-- The buffer is the file's bloc at the cursor, or waits to be written to one.
structure Coherent (s : Machine) (fd : FileDesc) : Prop where
  clean : fd.fdsDirty = false → fd.fdsBuf = s.fblock fd.file fd.block
  dirty : fd.fdsDirty = true → s.lookup fd.file fd.block ≠ 0

theorem blocOfPos_toNat (pos : Word) : (blocOfPos pos).toNat = pos.toNat/512 := by
  have constant : (512 : Word).toNat = 512 := rfl
  rw [blocOfPos,BitVec.toNat_udiv,constant]

theorem next_pos (pos : Word) (small : pos.toNat/512 < 888) : (pos+1).toNat = pos.toNat+1 := by
  have one : (1 : Word).toNat = 1 := rfl
  rw [BitVec.toNat_add]
  omega

theorem clean_view (clean : fd.fdsBuf = s.fblock fd.file fd.block) (q : Nat) : s.viewAt fd q = s.byteAt fd.file q := by
  unfold Machine.viewAt
  split
  · rename_i same
    rw [clean,← same]
    rfl
  · rfl

theorem Quiet.view (quiet : Quiet s t) (fd : FileDesc) (q : Nat) : t.viewAt fd q = s.viewAt fd q := by
  unfold Machine.viewAt Machine.byteAt
  rw [quiet.fblock]

-- Looking a position up and loading its bloc.
theorem runs_loadBuffer (layout : Layout s role free) (node : role i = .inode) :
    Returns (loadBuffer (s.lookup i f)) s fun buf t => buf = s.fblock i f ∧ Quiet s t := by
  unfold loadBuffer Machine.fblock
  by_cases null : s.lookup i f = 0
  · rw [if_pos null,if_pos null]
    exact ⟨rfl,Quiet.refl s⟩
  · rw [if_neg null,if_neg null]
    simp only [Returns,runs_bind,runs_current,runs_readBloc layout.mounted (layout.lookup_inside node null).2]
    exact ⟨trivial,Quiet.load _ _⟩

theorem runs_fetch (inumber : Word) (layout : Layout s role free) (node : role inumber.toNat = .inode) (pos : Word)
    (reach : Supported (pos.toNat/512)) :
    Returns (vblocOfFbloc inumber (blocOfPos pos) false >>= loadBuffer) s fun buf t =>
      buf = s.fblock inumber.toNat (pos.toNat/512) ∧ Quiet s t := by
  rw [← blocOfPos_toNat] at reach ⊢
  rw [Returns,runs_bind]
  refine (runs_vbloc_read layout node reach (Or.inl rfl)).mono ?_ (fun _ _ => id)
  intro v t post
  obtain ⟨rfl,quiet⟩ := post
  rw [← quiet.lookup]
  refine (runs_loadBuffer (layout.quiet quiet) node).mono ?_ (fun _ _ => id)
  intro buf u post
  obtain ⟨rfl,quiet'⟩ := post
  exact ⟨quiet.fblock _ _,quiet.trans quiet'⟩

theorem runs_openIfile (layout : Layout s role free) (node : role inumber.toNat = .inode) :
    Returns (openIfile inumber) s fun r t => Quiet s t ∧
      r = (0,⟨inumber,s.entryAt inumber.toNat 1,0,s.fblock inumber.toNat 0,false⟩) := by
  have inside := (layout.bound node (by simp)).2
  have quiet := Quiet.load s inumber.toNat
  have fetch := runs_fetch inumber (layout.quiet quiet) node 0 (Or.inl (by decide))
  simp only [Returns,runs_bind] at fetch
  simp only [openIfile,Returns,runs_bind,runs_readInode layout.mounted inside,runs_pure]
  refine fetch.mono ?_ (fun _ _ => id)
  intro v t loaded
  refine loaded.mono ?_ (fun _ _ => id)
  intro buf u post
  obtain ⟨rfl,quiet'⟩ := post
  exact ⟨quiet.trans quiet',rfl⟩

theorem runs_flush_clean {fd : FileDesc} {Q : FileDesc → Machine → Prop} {E : Stop → Machine → Prop} (clean : fd.fdsDirty = false) :
    Runs (flushIfile fd) s Q E ↔ Q fd s := by
  unfold flushIfile
  rw [clean]
  exact Iff.rfl

theorem runs_flush_dirty (layout : Layout s role free) (node : role fd.file = .inode) (dirty : fd.fdsDirty = true)
    (mapped : s.lookup fd.file fd.block ≠ 0) (reach : Supported fd.block) :
    Returns (flushIfile fd) s fun fd' t => fd' = {fd with fdsDirty := false} ∧
      ∃ u, Quiet s u ∧ t = u.filled fd.file fd.block fd.fdsBuf := by
  have here := blocOfPos_toNat fd.fdsPos
  have reach' : Supported (blocOfPos fd.fdsPos).toNat := by rw [here]; exact reach
  have settled : s.lookup fd.fdsInumber.toNat (blocOfPos fd.fdsPos).toNat ≠ 0 := by rw [here]; exact mapped
  unfold flushIfile
  rw [dirty,if_pos rfl]
  simp only [Returns,runs_bind,runs_current]
  refine (runs_vbloc_read layout node reach' (Or.inr settled)).mono ?_ (fun _ _ => id)
  intro v u post
  obtain ⟨rfl,quiet⟩ := post
  rw [here,← quiet.lookup]
  exact (runs_filled (layout.quiet quiet) node (by rw [quiet.lookup]; exact mapped) fd.fdsBuf).mpr
    ⟨rfl,u,quiet,rfl⟩

theorem runs_close_clean {Q : FileDesc → Machine → Prop} {E : Stop → Machine → Prop} (m : Mounted s)
    (inside : fd.file < s.nsec) (clean : fd.fdsDirty = false) :
    Runs (closeIfile fd) s Q E ↔ Q fd ((s.load fd.file).resized fd.fdsInumber fd.fdsSize) := by
  have loaded : Mounted (s.load fd.file) := (load_mounted _ _).mpr m
  have write := fun (P : Unit → Machine → Prop) buffer =>
    runs_writeBloc (b := fd.fdsInumber) (Q := P) (E := E) loaded inside buffer
  simp only [load_volume] at write
  have size : Inode.encode {s.inodeAt fd.fdsInumber.toNat with size := fd.fdsSize} =
      putWord (s.blk fd.fdsInumber.toNat) 1 fd.fdsSize := encode_size _ _
  unfold closeIfile
  rw [runs_bind,runs_flush_clean clean,runs_bind,runs_readInode m inside]
  simp only [writeInode,runs_bind,runs_current,runs_pure]
  refine (write _ _).trans ?_
  rw [size]
  rfl

-- The cursor moves within its bloc.
theorem runs_seek_inside {Q : FileDesc → Machine → Prop} {E : Stop → Machine → Prop}
    (same : (fd.fdsPos+offset).toNat/512 = fd.block) :
    Runs (seekIfile fd offset) s Q E ↔ Q {fd with fdsPos := fd.fdsPos+offset} s := by
  have equal : blocOfPos (fd.fdsPos+offset) = blocOfPos fd.fdsPos := by
    refine BitVec.eq_of_toNat_eq ?_
    rw [blocOfPos_toNat,blocOfPos_toNat,same]
    rfl
  unfold seekIfile
  dsimp only
  rw [if_neg (not_not_intro equal)]
  exact Iff.rfl

-- A descriptor that owes nothing can be moved to every served position.
theorem runs_seek_clean (layout : Layout s role free) (node : role fd.file = .inode) (clean : fd.fdsDirty = false)
    (coherent : Coherent s fd) (reach : Supported ((fd.fdsPos+offset).toNat/512)) :
    Returns (seekIfile fd offset) s fun fd' t => Quiet s t ∧
      fd' = {fd with
        fdsPos := fd.fdsPos+offset
        fdsBuf := s.fblock fd.file ((fd.fdsPos+offset).toNat/512)} := by
  by_cases same : (fd.fdsPos+offset).toNat/512 = fd.block
  · rw [Returns,runs_seek_inside same,same,← coherent.clean clean]
    exact ⟨Quiet.refl s,rfl⟩
  have crossed : blocOfPos (fd.fdsPos+offset) ≠ blocOfPos fd.fdsPos := by
    intro equal
    have blocks := congrArg BitVec.toNat equal
    rw [blocOfPos_toNat,blocOfPos_toNat] at blocks
    exact same blocks
  have fetch := runs_fetch fd.fdsInumber layout node _ reach
  simp only [Returns,runs_bind] at fetch
  unfold seekIfile
  dsimp only
  rw [if_pos crossed]
  simp only [Returns,runs_bind,runs_flush_clean (show {fd with fdsPos := fd.fdsPos+offset}.fdsDirty = false from clean),runs_pure]
  refine fetch.mono ?_ (fun _ _ => id)
  intro v t loaded
  refine loaded.mono ?_ (fun _ _ => id)
  intro buf u post
  obtain ⟨rfl,quiet⟩ := post
  exact ⟨quiet,rfl⟩

theorem runs_readc_end {Q : Word × FileDesc → Machine → Prop} {E : Stop → Machine → Prop}
    (past : fd.fdsSize.toNat < fd.fdsPos.toNat) : Runs (readcIfile fd) s Q E ↔ Q (readEof,fd) s := by
  have less : fd.fdsSize < fd.fdsPos := past
  unfold readcIfile
  rw [if_pos less]
  exact Iff.rfl

theorem runs_readc (layout : Layout s role free) (node : role fd.file = .inode) (clean : fd.fdsDirty = false)
    (coherent : Coherent s fd) (before : fd.fdsPos.toNat ≤ fd.fdsSize.toNat)
    (reach : Supported ((fd.fdsPos+1).toNat/512)) :
    Returns (readcIfile fd) s fun r t => Quiet s t ∧
      r = ((s.byteAt fd.file fd.fdsPos.toNat).signExtend 32,
        {fd with
          fdsPos := fd.fdsPos+1
          fdsBuf := s.fblock fd.file ((fd.fdsPos+1).toNat/512)}) := by
  have less : ¬ fd.fdsSize < fd.fdsPos := Nat.not_lt.mpr before
  have byte : cell fd.fdsBuf (iblocOfPos fd.fdsPos) = s.byteAt fd.file fd.fdsPos.toNat := by
    rw [coherent.clean clean]
    rfl
  unfold readcIfile
  rw [if_neg less]
  simp only [Returns,runs_bind,runs_pure,byte]
  refine (runs_seek_clean layout node clean coherent reach).mono ?_ (fun _ _ => id)
  intro fd' t post
  obtain ⟨quiet,rfl⟩ := post
  exact ⟨quiet,rfl⟩

end AsePlusPlus
