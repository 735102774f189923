import AsePlusPlus.Ifile
import AsePlusPlus.Volume

namespace AsePlusPlus
open Words Program

variable {fd : FileDesc} {s t : Machine}

-- What no file operation changes, whatever it finds on the disk and however it
-- ends: the mounted volume and the rest of the superbloc.
structure Fixed (s t : Machine) : Prop where
  mbr : t.mbr = s.mbr
  volume : t.currentVolume = s.currentVolume
  super : ∃ next count, t.super = {s.super with premierLibre := next,nbBlocLibre := count}
  cwd : t.cwd = s.cwd
  frame : t.frame = s.frame

theorem Fixed.refl (s : Machine) : Fixed s s := ⟨rfl,rfl,⟨_,_,rfl⟩,rfl,rfl⟩

theorem Fixed.trans (r s t : Machine) (one : Fixed r s) (two : Fixed s t) : Fixed r t := by
  obtain ⟨mbr,volume,⟨_,_,super⟩,cwd,frame⟩ := one
  obtain ⟨mbr',volume',⟨next,count,super'⟩,cwd',frame'⟩ := two
  exact ⟨mbr'.trans mbr,volume'.trans volume,⟨next,count,by rw [super',super]⟩,cwd'.trans cwd,frame'.trans frame⟩

theorem Fixed.mounted (fixed : Fixed s t) (m : Mounted s) : Mounted t := by
  have vol : t.vol = s.vol := by unfold Machine.vol; rw [fixed.mbr,fixed.volume]
  obtain ⟨_,_,super⟩ := fixed.super
  refine ⟨by rw [fixed.mbr]; exact m.magic,by rw [fixed.volume]; exact m.slot,?_,?_,by rw [super]; exact m.super⟩
  · unfold Machine.start Machine.nsec; rw [vol]; exact m.fits
  · unfold Machine.nsec; rw [vol]; exact m.room

theorem Fixed.nsec (fixed : Fixed s t) : t.nsec = s.nsec := by
  unfold Machine.nsec Machine.vol; rw [fixed.mbr,fixed.volume]

-- A graded relation that the device and the journal do not touch, and that
-- charges one for every bloc taken from the chain.
structure Charged (R : Nat → Machine → Machine → Prop) : Prop extends Graded R where
  device : ∀ s hda, R 0 s {s with hda := hda}
  journal : ∀ s calls, R 0 s {s with journal := calls}
  link : ∀ s next, R 0 s {s with super := {s.super with premierLibre := next}}
  count : ∀ s, R 1 s {s with super := {s.super with nbBlocLibre := s.super.nbBlocLibre-1}}

section charged
variable {R : Nat → Machine → Machine → Prop} (charged : Charged R)
include charged

theorem Charged.free {p : M α} {f : α → M β} (first : Spends R 0 p) (next : ∀ a, Spends R k (f a)) : Spends R k (p >>= f) := by
  rw [← Nat.zero_add k]
  exact charged.bind first next

theorem Charged.done {p : M α} {f : α → M β} (first : Spends R k p) (next : ∀ a, Spends R 0 (f a)) : Spends R k (p >>= f) :=
  charged.bind first next

theorem Charged.none (a : α) : Spends R k (pure a : M α) := charged.weaken (charged.pure a) (Nat.zero_le k)

theorem Charged.current : Spends R 0 AsePlusPlus.current := charged.free charged.get fun _ => charged.none _

theorem Charged.hda (f : Machine → Hda) : Spends R 0 (modify fun m => {m with hda := f m} : M Unit) :=
  fun s => charged.device s (f s)

theorem Charged.call (call : WriteCall) : Spends R 0 (modify fun m => {m with journal := call :: m.journal} : M Unit) :=
  fun s => charged.journal s (call :: s.journal)

theorem Charged.seekSector (cylinder sector : Word) : Spends R 0 (seekSector cylinder sector) :=
  charged.free (charged.ensure _ _) fun _ => charged.hda _

theorem Charged.nsec (vol nbloc : Word) : Spends R 0 (nsecOfNbloc vol nbloc) :=
  charged.free charged.get fun _ => charged.free (charged.ensure _ _) fun _ =>
    charged.free (charged.ensure _ _) fun _ => charged.none _

theorem Charged.ncyl (vol nbloc : Word) : Spends R 0 (ncylOfNbloc vol nbloc) :=
  charged.free charged.get fun _ => charged.free (charged.ensure _ _) fun _ =>
    charged.free (charged.ensure _ _) fun _ => charged.none _

theorem Charged.readNsector (cylinder sector : Word) (size : Nat) : Spends R 0 (readNsector cylinder sector size) :=
  charged.free (charged.ensure _ _) fun _ => charged.free (charged.seekSector _ _) fun _ =>
    charged.free (charged.hda _) fun _ => charged.free charged.get fun _ => charged.none _

theorem Charged.writeNsector (cylinder sector : Word) (buffer : Vector Byte size) :
    Spends R 0 (writeNsector cylinder sector buffer) :=
  charged.free (charged.ensure _ _) fun _ => charged.free (charged.hda _) fun _ =>
    charged.free (charged.seekSector _ _) fun _ => charged.hda _

theorem Charged.readNbloc (vol nbloc : Word) (size : Nat) : Spends R 0 (readNbloc vol nbloc size) :=
  charged.free (charged.ncyl _ _) fun _ => charged.free (charged.nsec _ _) fun _ => charged.readNsector _ _ _

theorem Charged.readBloc (vol nbloc : Word) : Spends R 0 (readBloc vol nbloc) :=
  charged.free (charged.ncyl _ _) fun _ => charged.free (charged.nsec _ _) fun _ => charged.readNsector _ _ _

theorem Charged.writeBloc (vol nbloc : Word) (buffer : Sector) : Spends R 0 (writeBloc vol nbloc buffer) :=
  charged.free (charged.call _) fun _ => charged.free (charged.ncyl _ _) fun _ =>
    charged.free (charged.nsec _ _) fun _ => charged.writeNsector _ _ _

theorem Charged.writeNbloc (vol nbloc : Word) (buffer : Vector Byte size) : Spends R 0 (writeNbloc vol nbloc buffer) :=
  charged.free (charged.call _) fun _ => charged.free (charged.ncyl _ _) fun _ =>
    charged.free (charged.nsec _ _) fun _ => charged.writeNsector _ _ _

theorem Charged.saveSuper : Spends R 0 saveSuper :=
  charged.free charged.get fun _ => charged.free (charged.ensure _ _) fun _ =>
    charged.free charged.current fun _ => charged.writeNbloc _ _ _

theorem Charged.newBloc : Spends R 1 newBloc := by
  unfold AsePlusPlus.newBloc
  refine charged.free charged.get fun m => spends_ite (charged.none _) ?_
  refine charged.free charged.current fun _ => charged.free (charged.readNbloc _ _ _) fun _ =>
    charged.free (charged.ensure _ _) fun _ => ?_
  have counted : Spends R 1 (modify fun m => {m with super := {m.super with nbBlocLibre := m.super.nbBlocLibre-1}} : M Unit) :=
    fun s => charged.count s
  have tail := charged.done counted fun _ => charged.free charged.saveSuper fun _ => charged.none m.super.premierLibre
  exact spends_ite (charged.free (fun s => charged.link s _) fun _ => tail) (charged.free (fun s => charged.link s _) fun _ => tail)

theorem Charged.readInode (inumber : Word) : Spends R 0 (readInode inumber) :=
  charged.free charged.current fun _ => charged.free (charged.readBloc _ _) fun _ => charged.none _

theorem Charged.writeInode (inumber : Word) (inode : Inode) : Spends R 0 (writeInode inumber inode) :=
  charged.free charged.current fun _ => charged.writeBloc _ _ _

theorem Charged.initializeBloc (adress : Word) : Spends R 0 (initializeBloc adress) :=
  charged.free charged.current fun _ => charged.free (charged.readBloc _ _) fun _ =>
    charged.free charged.current fun _ => charged.free (charged.writeBloc _ _ _) fun _ => charged.none _

theorem Charged.blocOrAllocate (pointer : Word) {link : Word → M Unit} (links : ∀ p, Spends R 0 (link p)) :
    Spends R 1 (blocOrAllocate pointer link) :=
  spends_ite (charged.done charged.newBloc fun _ => charged.free (charged.initializeBloc _) fun _ =>
    charged.free (links _) fun _ => charged.none _) (charged.none _)

theorem Charged.writeTable (bloc : Word) (table : Table) :
    Spends R 0 (do AsePlusPlus.writeBloc (← AsePlusPlus.current) bloc (Table.encode table) : M Unit) :=
  charged.free charged.current fun _ => charged.writeBloc _ _ _

theorem Charged.directBloc (inumber : Word) (inode : Inode) (index : Word) (doAllocate : Bool) :
    Spends R 1 (directBloc inumber inode index doAllocate) :=
  spends_ite (charged.none _) (charged.blocOrAllocate _ fun _ => charged.writeInode _ _)

theorem Charged.indirectBloc (inode : Inode) (index : Word) (doAllocate : Bool) :
    Spends R 1 (indirectBloc inode index doAllocate) :=
  charged.free charged.current fun _ => charged.free (charged.readBloc _ _) fun _ =>
    spends_ite (charged.none _) (charged.blocOrAllocate _ fun _ => charged.writeTable _ _)

theorem Charged.doubleIndirectBloc (inumber : Word) (inode : Inode) (index : Word) (doAllocate : Bool) :
    Spends R 3 (doubleIndirectBloc inumber inode index doAllocate) :=
  spends_ite (charged.none _) (charged.bind (b := 2) (charged.blocOrAllocate _ fun _ => charged.writeInode _ _) fun _ =>
    charged.free charged.current fun _ => charged.free (charged.readBloc _ _) fun _ =>
    spends_ite (charged.none _) (charged.bind (b := 1) (charged.blocOrAllocate _ fun _ => charged.writeTable _ _) fun _ =>
    charged.free charged.current fun _ => charged.free (charged.readBloc _ _) fun _ =>
    spends_ite (charged.none _) (charged.blocOrAllocate _ fun _ => charged.writeTable _ _)))

theorem Charged.vbloc (inumber fbloc : Word) (doAllocate : Bool) : Spends R 3 (vblocOfFbloc inumber fbloc doAllocate) :=
  charged.free (charged.readInode _) fun _ =>
    spends_ite (charged.weaken (charged.directBloc _ _ _ _) (by decide))
      (spends_ite (charged.weaken (charged.indirectBloc _ _ _) (by decide))
        (spends_ite (charged.doubleIndirectBloc _ _ _ _) (charged.none _)))

theorem Charged.loadBuffer (bloc : Word) : Spends R 0 (loadBuffer bloc) :=
  spends_ite (charged.none _) (charged.free charged.current fun _ => charged.readBloc _ _)

theorem Charged.openIfile (inumber : Word) : Spends R 3 (openIfile inumber) :=
  charged.free (charged.readInode _) fun _ => charged.done (charged.vbloc _ _ _) fun _ =>
    charged.free (charged.loadBuffer _) fun _ => charged.none _

theorem Charged.flushIfile (fd : FileDesc) : Spends R 3 (flushIfile fd) :=
  spends_ite (charged.done (charged.vbloc _ _ _) fun _ => charged.free charged.current fun _ =>
    charged.free (charged.writeBloc _ _ _) fun _ => charged.none _) (charged.none _)

theorem Charged.closeIfile (fd : FileDesc) : Spends R 3 (closeIfile fd) :=
  charged.done (charged.flushIfile _) fun _ => charged.free (charged.readInode _) fun _ =>
    charged.free (charged.writeInode _ _) fun _ => charged.none _

theorem Charged.seekIfile (fd : FileDesc) (offset : Word) : Spends R 6 (seekIfile fd offset) :=
  spends_ite (charged.bind (b := 3) (charged.flushIfile _) fun _ => charged.done (charged.vbloc _ _ _) fun _ =>
    charged.free (charged.loadBuffer _) fun _ => charged.none _) (charged.none _)

theorem Charged.readcIfile (fd : FileDesc) : Spends R 6 (readcIfile fd) :=
  spends_ite (charged.none _) (charged.done (charged.seekIfile _ _) fun _ => charged.none _)

theorem Charged.writecStore (fd : FileDesc) : Spends R 6 (writecStore fd) :=
  spends_ite (charged.bind (b := 3) (charged.vbloc _ _ _) fun _ => charged.free charged.current fun _ =>
    charged.free (charged.writeBloc _ _ _) fun _ => charged.done (charged.vbloc _ _ _) fun _ =>
    charged.free (charged.loadBuffer _) fun _ => charged.none _) (charged.none _)

theorem Charged.writecIfile (fd : FileDesc) (c : Byte) : Spends R 9 (writecIfile fd c) :=
  spends_ite (charged.bind (b := 6) (charged.vbloc _ _ _) fun _ => spends_ite (charged.none _) (charged.writecStore _))
    (charged.weaken (charged.writecStore _) (by decide))

theorem Charged.writeChars (text : List Byte) (fd : FileDesc) : Spends R (9*text.length) (writeChars text fd) := by
  induction text generalizing fd with
  | nil => exact charged.none _
  | cons c rest ih =>
      rw [List.length_cons,Nat.mul_succ,Nat.add_comm]
      exact charged.bind (charged.writecIfile _ _) fun _ => spends_ite (charged.none _) (ih _)

theorem Charged.writeIfile {n : Nat} (fd : FileDesc) (buf : Vector Byte n) : Spends R (9*n) (writeIfile fd buf) := by
  have written := charged.writeChars buf.toList fd
  rw [Vector.length_toList] at written
  exact charged.done written fun _ => charged.none _

end charged

-- Whatever is charged, no call leaves the volume or its identity.
theorem fixed_charged : Charged (fun _ => Fixed) where
  refl := Fixed.refl
  trans := fun one two => Fixed.trans _ _ _ one two
  mono := fun _ fixed => fixed
  device := fun _ _ => ⟨rfl,rfl,⟨_,_,rfl⟩,rfl,rfl⟩
  journal := fun _ _ => ⟨rfl,rfl,⟨_,_,rfl⟩,rfl,rfl⟩
  link := fun _ _ => ⟨rfl,rfl,⟨_,_,rfl⟩,rfl,rfl⟩
  count := fun _ => ⟨rfl,rfl,⟨_,_,rfl⟩,rfl,rfl⟩

-- The counter of free blocs goes down by at most the charge.
def Counted (k : Nat) (s t : Machine) : Prop :=
  ∃ j, j ≤ k ∧ t.super.nbBlocLibre = s.super.nbBlocLibre-BitVec.ofNat 32 j

theorem counted_charged : Charged Counted where
  refl := fun _ => ⟨0,Nat.le_refl 0,(BitVec.sub_zero _).symm⟩
  trans := by
    intro a b r s t result post
    obtain ⟨i,low,one⟩ := result
    obtain ⟨j,high,two⟩ := post
    refine ⟨i+j,Nat.add_le_add low high,?_⟩
    rw [two,one,BitVec.ofNat_add]
    exact (BitVec.sub_sub _ _ _)
  mono := fun le ⟨j,low,equal⟩ => ⟨j,Nat.le_trans low le,equal⟩
  device := fun _ _ => ⟨0,Nat.le_refl 0,(BitVec.sub_zero _).symm⟩
  journal := fun _ _ => ⟨0,Nat.le_refl 0,(BitVec.sub_zero _).symm⟩
  link := fun _ _ => ⟨0,Nat.le_refl 0,(BitVec.sub_zero _).symm⟩
  count := fun _ => ⟨1,Nat.le_refl 1,rfl⟩

end AsePlusPlus
