import AsePlusPlus.Mbr

namespace AsePlusPlus
open Words Program

-- The mounted volume as the file system sees it: an array of blocs that starts
-- at a linear position of the disk.
def Machine.vol (s : Machine) : Vol := s.mbr.vol s.currentVolume.toNat
def Machine.start (s : Machine) : Nat := 32 * s.vol.volCylinder.toNat + s.vol.volSector.toNat
def Machine.nsec (s : Machine) : Nat := s.vol.volNsectors.toNat
def Machine.blk (s : Machine) (b : Nat) : Sector := s.hda.sectors (s.start+b)

-- A volume that lies on the disk and has room for a superblock and a root.
structure Mounted (s : Machine) : Prop where
  magic : s.mbr.magicNumber = mbrMagic
  slot : s.currentVolume.toNat < 8
  fits : s.start + s.nsec ≤ 32768
  room : 2 ≤ s.nsec
  super : s.super.magic = superMagic

-- The effect of the four bloc transfers.
def Machine.load (s : Machine) (b : Nat) : Machine :=
  {s with hda := {s.hda with master := s.blk b,head := s.start+b}}

def Machine.store (s : Machine) (b : Nat) (x : Sector) (call : WriteCall) : Machine :=
  {s with
    hda := {sectors := fun p => if p = s.start+b then x else s.hda.sectors p,master := x,head := s.start+b}
    journal := call :: s.journal}

@[simp] theorem load_blk (s : Machine) (b c : Nat) : (s.load b).blk c = s.blk c := rfl
@[simp] theorem load_super (s : Machine) (b : Nat) : (s.load b).super = s.super := rfl
@[simp] theorem load_nsec (s : Machine) (b : Nat) : (s.load b).nsec = s.nsec := rfl
@[simp] theorem load_start (s : Machine) (b : Nat) : (s.load b).start = s.start := rfl
@[simp] theorem load_master (s : Machine) (b : Nat) : (s.load b).hda.master = s.blk b := rfl
@[simp] theorem load_volume (s : Machine) (b : Nat) : (s.load b).currentVolume = s.currentVolume := rfl
@[simp] theorem load_mounted (s : Machine) (b : Nat) : Mounted (s.load b) ↔ Mounted s :=
  ⟨fun m => ⟨m.1,m.2,m.3,m.4,m.5⟩,fun m => ⟨m.1,m.2,m.3,m.4,m.5⟩⟩

@[simp] theorem store_blk (s : Machine) (b : Nat) (x : Sector) (call : WriteCall) (c : Nat) :
    (s.store b x call).blk c = if c = b then x else s.blk c := by
  have position : (s.store b x call).blk c = if s.start+c = s.start+b then x else s.blk c := rfl
  rw [position]
  by_cases same : c = b
  · rw [if_pos (by omega),if_pos same]
  · rw [if_neg (by omega),if_neg same]

@[simp] theorem store_super (s : Machine) (b : Nat) (x : Sector) (call : WriteCall) :
    (s.store b x call).super = s.super := rfl
@[simp] theorem store_nsec (s : Machine) (b : Nat) (x : Sector) (call : WriteCall) :
    (s.store b x call).nsec = s.nsec := rfl
@[simp] theorem store_start (s : Machine) (b : Nat) (x : Sector) (call : WriteCall) :
    (s.store b x call).start = s.start := rfl
@[simp] theorem store_volume (s : Machine) (b : Nat) (x : Sector) (call : WriteCall) :
    (s.store b x call).currentVolume = s.currentVolume := rfl
@[simp] theorem store_journal (s : Machine) (b : Nat) (x : Sector) (call : WriteCall) :
    (s.store b x call).journal = call :: s.journal := rfl
@[simp] theorem store_mounted (s : Machine) (b : Nat) (x : Sector) (call : WriteCall) :
    Mounted (s.store b x call) ↔ Mounted s :=
  ⟨fun m => ⟨m.1,m.2,m.3,m.4,m.5⟩,fun m => ⟨m.1,m.2,m.3,m.4,m.5⟩⟩

-- The two coordinates of a bloc address its linear position.
theorem position (cylinder sector nbloc : Word)
    (fits : 32 * cylinder.toNat + sector.toNat + nbloc.toNat < 32768) :
    (cylinder+(sector+nbloc)/32).toNat % 65536 < 1024 ∧ ((sector+nbloc)%32).toNat % 65536 < 32 ∧
    (cylinder+(sector+nbloc)/32).toNat % 65536 * 32 + ((sector+nbloc)%32).toNat % 65536 =
      32 * cylinder.toNat + sector.toNat + nbloc.toNat := by
  have divisor : (32 : Word).toNat = 32 := rfl
  simp only [BitVec.toNat_add,BitVec.toNat_udiv,BitVec.toNat_umod,divisor]
  omega

theorem runs_address {Q : Word → Machine → Prop} {E : Stop → Machine → Prop} (m : Mounted s) :
    (Runs (ncylOfNbloc s.currentVolume b) s Q E ↔ Q (s.vol.volCylinder+(s.vol.volSector+b)/32) s) ∧
    (Runs (nsecOfNbloc s.currentVolume b) s Q E ↔ Q ((s.vol.volSector+b)%32) s) := by
  have magic := m.magic
  have slot : s.currentVolume.toNat < maxvol := m.slot
  simp only [ncylOfNbloc,nsecOfNbloc,runs_bind,runs_get,runs_ensure,if_pos magic,if_pos slot,runs_pure,Machine.vol,
    and_self]

variable {b : Word} {Q : Unit → Machine → Prop} {E : Stop → Machine → Prop}

theorem mounted_position (m : Mounted s) (inside : b.toNat < s.nsec) :
    32 * s.vol.volCylinder.toNat + s.vol.volSector.toNat + b.toNat < 32768 := by
  have fits := m.fits
  unfold Machine.start at fits
  omega

theorem runs_readBloc {R : Sector → Machine → Prop} (m : Mounted s) (inside : b.toNat < s.nsec) :
    Runs (readBloc s.currentVolume b) s R E ↔ R (s.blk b.toNat) (s.load b.toNat) := by
  obtain ⟨cylinder,sector,linear⟩ := position _ _ b (mounted_position m inside)
  have positive : (512 : Nat) ≠ 0 := by decide
  simp only [readBloc,readSector,readNsector,runs_bind,(runs_address m).1,(runs_address m).2,runs_ensure,
    if_pos positive,runs_seekSector cylinder sector,cmdRead,runs_modify,runs_get,runs_pure,linear,build_cell]
  rfl

theorem runs_readNbloc {R : Vector Byte size → Machine → Prop} (m : Mounted s) (inside : b.toNat < s.nsec)
    (positive : size ≠ 0) :
    Runs (readNbloc s.currentVolume b size) s R E ↔ R (build size (cell (s.blk b.toNat))) (s.load b.toNat) := by
  obtain ⟨cylinder,sector,linear⟩ := position _ _ b (mounted_position m inside)
  simp only [readNbloc,readNsector,runs_bind,(runs_address m).1,(runs_address m).2,runs_ensure,if_pos positive,
    runs_seekSector cylinder sector,cmdRead,runs_modify,runs_get,runs_pure,linear]
  rfl

theorem runs_writeNbloc (m : Mounted s) (inside : b.toNat < s.nsec) (positive : size ≠ 0)
    (buffer : Vector Byte size) :
    Runs (writeNbloc s.currentVolume b buffer) s Q E ↔
      Q () (s.store b.toNat (overlay buffer s.hda.master) (.nbloc s.currentVolume b size)) := by
  obtain ⟨cylinder,sector,linear⟩ := position _ _ b (mounted_position m inside)
  have again : Mounted {s with journal := .nbloc s.currentVolume b size :: s.journal} := ⟨m.1,m.2,m.3,m.4,m.5⟩
  have addressed := fun Q E => @runs_address _ b Q E again
  simp only [Machine.vol] at addressed cylinder sector linear
  simp only [writeNbloc,writeNsector,runs_bind,runs_modify,addressed,runs_ensure,if_pos positive,
    runs_seekSector cylinder sector,cmdWrite,linear]
  rfl

theorem runs_writeBloc (m : Mounted s) (inside : b.toNat < s.nsec) (buffer : Sector) :
    Runs (writeBloc s.currentVolume b buffer) s Q E ↔
      Q () (s.store b.toNat buffer (.bloc s.currentVolume b)) := by
  obtain ⟨cylinder,sector,linear⟩ := position _ _ b (mounted_position m inside)
  have again : Mounted {s with journal := .bloc s.currentVolume b :: s.journal} := ⟨m.1,m.2,m.3,m.4,m.5⟩
  have addressed := fun Q E => @runs_address _ b Q E again
  simp only [Machine.vol] at addressed cylinder sector linear
  simp only [writeBloc,writeSector,writeNsector,runs_bind,runs_modify,addressed,runs_ensure,
    runs_seekSector cylinder sector,cmdWrite,linear,overlay_same]
  rfl

-- `t` is reached from `s` without leaving the mounted volume.
structure Within (s t : Machine) : Prop where
  mbr : t.mbr = s.mbr
  volume : t.currentVolume = s.currentVolume
  cwd : t.cwd = s.cwd
  frame : t.frame = s.frame
  outside : ∀ p, p < s.start ∨ s.start + s.nsec ≤ p → t.hda.sectors p = s.hda.sectors p

theorem Within.vol (w : Within s t) : t.vol = s.vol := by unfold Machine.vol; rw [w.mbr,w.volume]
theorem Within.nsec (w : Within s t) : t.nsec = s.nsec := by unfold Machine.nsec; rw [w.vol]
theorem Within.start (w : Within s t) : t.start = s.start := by unfold Machine.start; rw [w.vol]

theorem Within.mounted (w : Within s t) (m : Mounted s) (super : t.super.magic = superMagic) : Mounted t := by
  refine ⟨?_,?_,?_,?_,super⟩
  · rw [w.mbr]; exact m.magic
  · rw [w.volume]; exact m.slot
  · rw [w.start,w.nsec]; exact m.fits
  · rw [w.nsec]; exact m.room

theorem Within.refl (s : Machine) : Within s s := ⟨rfl,rfl,rfl,rfl,fun _ _ => rfl⟩

theorem Within.trans (one : Within r s) (two : Within s t) : Within r t := by
  refine ⟨two.mbr.trans one.mbr,two.volume.trans one.volume,two.cwd.trans one.cwd,two.frame.trans one.frame,?_⟩
  intro p away
  rw [two.outside p (by rw [one.start,one.nsec]; exact away),one.outside p away]

theorem Within.load (s : Machine) (b : Nat) : Within s (s.load b) := ⟨rfl,rfl,rfl,rfl,fun _ _ => rfl⟩

theorem Within.store {b : Nat} (inside : b < s.nsec) (x : Sector) (call : WriteCall) : Within s (s.store b x call) := by
  refine ⟨rfl,rfl,rfl,rfl,?_⟩
  intro p away
  exact if_neg (by omega)

-- A call that respects the volume: it stays below vol_nsectors, and bloc 0 is
-- only written by save_super.
def WriteCall.Proper (vol : Word) (n : Nat) : WriteCall → Prop
  | .bloc v b => v = vol ∧ b ≠ 0 ∧ b.toNat < n
  | .nbloc v b size => v = vol ∧ b = 0 ∧ size = 56 ∧ 0 < n

structure Confined (s t : Machine) : Prop extends Within s t where
  journal : ∃ calls, t.journal = calls ++ s.journal ∧ ∀ call ∈ calls, call.Proper s.currentVolume s.nsec

theorem Confined.refl (s : Machine) : Confined s s := ⟨.refl s,[],rfl,by simp⟩

theorem Confined.trans (one : Confined r s) (two : Confined s t) : Confined r t := by
  obtain ⟨early,first,proper⟩ := one.journal
  obtain ⟨late,second,proper'⟩ := two.journal
  refine ⟨one.toWithin.trans two.toWithin,late++early,by rw [second,first,List.append_assoc],?_⟩
  intro call member
  rcases List.mem_append.mp member with new | old
  · have kept := proper' call new
    rwa [one.volume,one.nsec] at kept
  · exact proper call old

theorem Confined.load (s : Machine) (b : Nat) : Confined s (s.load b) := ⟨.load s b,[],rfl,by simp⟩

theorem Confined.store {b : Word} (inside : b.toNat < s.nsec) (live : b ≠ 0) (x : Sector) :
    Confined s (s.store b.toNat x (.bloc s.currentVolume b)) :=
  ⟨.store inside x _,[_],rfl,by simpa [WriteCall.Proper] using ⟨live,inside⟩⟩

end AsePlusPlus
