import AsePlusPlus.Dir
import AsePlusPlus.Same

namespace AsePlusPlus
open Words Program

variable {o : Machine} {fd : FileDesc} {inumber : Word}

-- What a program that only looks things up does to any disk `o`, consistent or
-- not: its outcome is settled by what the disk holds, and the disk keeps it.
abbrev Calm (o : Machine) (p : M α) (Q : α → Prop) : Prop := Steady (Same o) p Q

theorem calm_get {f : Machine → M α} {Q : α → Prop} (same : ∀ s, Same o s → f s = f o) (next : Calm o (f o) Q) :
    Calm o (get >>= f) Q := steady_get o same next

theorem calm_current : Calm o current (fun v => v = o.currentVolume) :=
  calm_get (by rintro s ⟨_,_,_,rfl⟩; rfl) (steady_pure _ rfl)

theorem calm_nsec (vol nbloc : Word) : Calm o (nsecOfNbloc vol nbloc) (fun sector =>
    sector = ((o.mbr.vol vol.toNat).volSector+nbloc)%32) := by
  refine calm_get (by rintro s ⟨_,_,_,rfl⟩; rfl) ?_
  exact steady_bind (steady_ensure _ _) fun _ _ => steady_bind (steady_ensure _ _) fun _ _ => steady_pure _ rfl

theorem calm_ncyl (vol nbloc : Word) : Calm o (ncylOfNbloc vol nbloc) (fun cylinder =>
    cylinder = (o.mbr.vol vol.toNat).volCylinder+((o.mbr.vol vol.toNat).volSector+nbloc)/32) := by
  refine calm_get (by rintro s ⟨_,_,_,rfl⟩; rfl) ?_
  exact steady_bind (steady_ensure _ _) fun _ _ => steady_bind (steady_ensure _ _) fun _ _ => steady_pure _ rfl

-- The linear position that a SEEK reaches.
def reached (cylinder sector : Word) : Nat :=
  (out (cylinder >>> 8)*256+out cylinder)*hdaMaxsector+(out (sector >>> 8)*256+out sector)

-- Both coordinates are on the disk.
def OnDisk (cylinder sector : Word) : Prop :=
  out (cylinder >>> 8)*256+out cylinder < hdaMaxcylinder ∧ out (sector >>> 8)*256+out sector < hdaMaxsector

instance (cylinder sector : Word) : Decidable (OnDisk cylinder sector) := inferInstanceAs (Decidable (_ ∧ _))

theorem readSector_on {cylinder sector : Word} (on : OnDisk cylinder sector) (s : Machine) :
    readSector cylinder sector s = (.ok (s.hda.sectors (reached cylinder sector)),
      {s with hda := ⟨s.hda.sectors,s.hda.sectors (reached cylinder sector),reached cylinder sector⟩}) := by
  have positive : (512 : Nat) ≠ 0 := by decide
  unfold OnDisk at on
  refine Runs.equal fun Q => ?_
  simp only [Returns,readSector,readNsector,seekSector,cmdRead,runs_bind,runs_ensure,if_pos positive,if_pos on,runs_modify,
    runs_get,runs_pure,build_cell]
  rfl

theorem readSector_off {cylinder sector : Word} (off : ¬ OnDisk cylinder sector) (s : Machine) :
    readSector cylinder sector s = (.error .seek,s) := by
  have positive : (512 : Nat) ≠ 0 := by decide
  unfold OnDisk at off
  refine Runs.stops fun E => ?_
  simp only [readSector,readNsector,seekSector,runs_bind,runs_ensure,if_pos positive,if_neg off]

theorem writeSector_on {cylinder sector : Word} (on : OnDisk cylinder sector) (x : Sector) (s : Machine) :
    writeSector cylinder sector x s = (.ok (),{s with
      hda := ⟨fun p => if p = reached cylinder sector then x else s.hda.sectors p,x,reached cylinder sector⟩}) := by
  have positive : (512 : Nat) ≠ 0 := by decide
  unfold OnDisk at on
  refine Runs.equal fun Q => ?_
  simp only [Returns,writeSector,writeNsector,seekSector,cmdWrite,runs_bind,runs_ensure,if_pos positive,if_pos on,runs_modify,
    overlay_same]
  rfl

theorem calm_readSector (cylinder sector : Word) : Calm o (readSector cylinder sector) (fun buf =>
    OnDisk cylinder sector ∧ buf = o.hda.sectors (reached cylinder sector)) := by
  by_cases on : OnDisk cylinder sector
  · refine ⟨.ok (o.hda.sectors (reached cylinder sector)),?_,fun a equal => by cases equal; exact ⟨on,rfl⟩⟩
    intro s post
    obtain ⟨master,head,journal,rfl⟩ := post
    rw [readSector_on on]
    exact ⟨rfl,_,_,journal,rfl⟩
  · refine ⟨.error .seek,?_,fun a equal => by cases equal⟩
    intro s post
    obtain ⟨master,head,journal,rfl⟩ := post
    rw [readSector_off on]
    exact ⟨rfl,_,_,journal,rfl⟩

-- Where a bloc of the current volume lies.
def Machine.cylinderOf (s : Machine) (b : Word) : Word := s.vol.volCylinder+(s.vol.volSector+b)/32
def Machine.sectorOf (s : Machine) (b : Word) : Word := (s.vol.volSector+b)%32

theorem calm_readBloc (b : Word) : Calm o (readBloc o.currentVolume b) (fun buf =>
    OnDisk (o.cylinderOf b) (o.sectorOf b) ∧ buf = o.hda.sectors (reached (o.cylinderOf b) (o.sectorOf b))) := by
  refine steady_bind (calm_ncyl _ _) fun cylinder first => steady_bind (calm_nsec _ _) fun sector second => ?_
  subst first second
  exact calm_readSector _ _

-- The inode that is stored at a number.
def Machine.Holds (s : Machine) (inumber : Word) (inode : Inode) : Prop :=
  OnDisk (s.cylinderOf inumber) (s.sectorOf inumber) ∧
  inode = Inode.decode (s.hda.sectors (reached (s.cylinderOf inumber) (s.sectorOf inumber)))

theorem calm_readInode (inumber : Word) : Calm o (readInode inumber) (o.Holds inumber) := by
  refine steady_bind calm_current fun v current => ?_
  subst current
  refine steady_bind (calm_readBloc inumber) fun buf read => ?_
  obtain ⟨on,rfl⟩ := read
  exact steady_pure _ ⟨on,rfl⟩

-- Writing back what is there.
theorem calm_writeInode {inode : Inode} (holds : o.Holds inumber inode) : Calm o (writeInode inumber inode) (fun _ => True) := by
  obtain ⟨on,rfl⟩ := holds
  refine steady_bind calm_current fun v current => ?_
  subst current
  rw [Inode.encode_decode]
  refine steady_bind (steady_modify ?_) fun _ _ => steady_bind (calm_ncyl _ _) fun cylinder first =>
    steady_bind (calm_nsec _ _) fun sector second => ?_
  · intro s post
    obtain ⟨master,head,journal,rfl⟩ := post
    exact ⟨master,head,_,rfl⟩
  subst first second
  refine ⟨.ok (),?_,fun _ _ => trivial⟩
  intro s post
  obtain ⟨master,head,journal,rfl⟩ := post
  have ran := writeSector_on on (o.hda.sectors (reached (o.cylinderOf inumber) (o.sectorOf inumber)))
    {o with hda := ⟨o.hda.sectors,master,head⟩,journal := journal}
  have back : (fun p => if p = reached (o.cylinderOf inumber) (o.sectorOf inumber) then
      o.hda.sectors (reached (o.cylinderOf inumber) (o.sectorOf inumber)) else o.hda.sectors p) = o.hda.sectors := by
    funext p
    split
    · rename_i here; rw [here]
    · rfl
  dsimp only at ran
  rw [back] at ran
  exact ⟨congrArg Prod.fst ran,_,_,journal,congrArg Prod.snd ran⟩

theorem calm_ite {c : Prop} [Decidable c] {p q : M α} {Q : α → Prop} (left : c → Calm o p Q) (right : ¬ c → Calm o q Q) :
    Calm o (if c then p else q) Q := by
  split
  · rename_i holds; exact left holds
  · rename_i fails; exact right fails

theorem calm_blocOrAllocate {pointer : Word} {link : Word → M Unit} (live : pointer ≠ 0) :
    Calm o (blocOrAllocate pointer link) (fun _ => True) := by
  unfold blocOrAllocate
  rw [if_neg live]
  exact steady_pure _ trivial

theorem calm_readCurrent (b : Word) : Calm o (do readBloc (← current) b) (fun _ => True) := by
  refine steady_bind calm_current fun v equal => ?_
  subst equal
  exact (calm_readBloc b).mono fun _ _ => trivial

-- A lookup that may not allocate.
theorem calm_pointer {pointer : Word} {next : M Word} (found : pointer ≠ 0 → Calm o next (fun _ => True)) :
    Calm o (if pointer = 0 ∧ false = false then return blocNull else next) (fun _ => True) := by
  refine calm_ite (fun _ => steady_pure _ trivial) fun other => found fun null => other ⟨null,rfl⟩

theorem calm_vbloc (inumber fbloc : Word) : Calm o (vblocOfFbloc inumber fbloc false) (fun _ => True) := by
  refine steady_bind (calm_readInode inumber) fun inode _ => ?_
  refine calm_ite (fun _ => calm_pointer calm_blocOrAllocate) fun _ => calm_ite (fun _ => ?_) fun _ =>
    calm_ite (fun _ => ?_) fun _ => steady_pure _ trivial
  · refine steady_bind calm_current fun v equal => ?_
    subst equal
    exact steady_bind (calm_readBloc _) fun _ _ => calm_pointer calm_blocOrAllocate
  · refine calm_pointer fun live => steady_bind (calm_blocOrAllocate live) fun double _ =>
      steady_bind calm_current fun v equal => ?_
    subst equal
    refine steady_bind (calm_readBloc _) fun _ _ => calm_pointer fun live =>
      steady_bind (calm_blocOrAllocate live) fun index _ => steady_bind calm_current fun v equal => ?_
    subst equal
    exact steady_bind (calm_readBloc _) fun _ _ => calm_pointer calm_blocOrAllocate

theorem calm_loadBuffer (bloc : Word) : Calm o (loadBuffer bloc) (fun _ => True) :=
  calm_ite (fun _ => steady_pure _ trivial) fun _ => calm_readCurrent bloc

-- A descriptor that owes nothing, not even another size.
structure Idle (o : Machine) (fd : FileDesc) : Prop where
  clean : fd.fdsDirty = false
  size : ∃ inode, o.Holds fd.fdsInumber inode ∧ inode.size = fd.fdsSize

theorem calm_openIfile (inumber : Word) : Calm o (openIfile inumber) (fun r => Idle o r.2) := by
  refine steady_bind (calm_readInode inumber) fun inode holds => steady_bind (calm_vbloc _ _) fun _ _ =>
    steady_bind (calm_loadBuffer _) fun _ _ => steady_pure _ ⟨rfl,inode,holds,rfl⟩

theorem calm_flushIfile (clean : fd.fdsDirty = false) : Calm o (flushIfile fd) (fun fd' => fd' = fd) := by
  unfold flushIfile
  rw [clean]
  exact steady_pure _ rfl

-- A clean descriptor that has moved within its file.
structure Moved (fd fd' : FileDesc) : Prop where
  clean : fd'.fdsDirty = false
  inumber : fd'.fdsInumber = fd.fdsInumber
  size : fd'.fdsSize = fd.fdsSize

theorem Idle.moved {fd' : FileDesc} (idle : Idle o fd) (moved : Moved fd fd') : Idle o fd' :=
  ⟨moved.clean,by rw [moved.inumber,moved.size]; exact idle.size⟩

theorem calm_seek_clean (clean : fd.fdsDirty = false) (offset : Word) : Calm o (seekIfile fd offset) (Moved fd) := by
  have moved : ({fd with fdsPos := fd.fdsPos+offset} : FileDesc).fdsDirty = false := clean
  refine calm_ite (fun _ => ?_) fun _ => steady_pure _ ⟨clean,rfl,rfl⟩
  refine steady_bind (calm_flushIfile moved) fun fd' same => ?_
  subst same
  exact steady_bind (calm_vbloc _ _) fun _ _ => steady_bind (calm_loadBuffer _) fun buf _ => steady_pure _ ⟨clean,rfl,rfl⟩

theorem calm_seekIfile (idle : Idle o fd) (offset : Word) : Calm o (seekIfile fd offset) (Idle o) :=
  (calm_seek_clean idle.clean offset).mono fun _ moved => idle.moved moved

theorem calm_seek2Ifile (idle : Idle o fd) (offset : Word) : Calm o (seek2Ifile fd offset) (Idle o) :=
  calm_seekIfile idle (offset-fd.fdsPos)

theorem calm_readc_clean (clean : fd.fdsDirty = false) : Calm o (readcIfile fd) (fun r => Moved fd r.2) :=
  calm_ite (fun _ => steady_pure _ ⟨clean,rfl,rfl⟩) fun _ => steady_bind (calm_seek_clean clean 1) fun _ moved => steady_pure _ moved

theorem calm_readcIfile (idle : Idle o fd) : Calm o (readcIfile fd) (fun r => Idle o r.2) :=
  (calm_readc_clean idle.clean).mono fun _ moved => idle.moved moved

theorem calm_readChars (n : Nat) (idle : Idle o fd) : Calm o (readChars n fd) (fun r => Idle o r.2) := by
  induction n generalizing fd with
  | zero => exact steady_pure _ idle
  | succ n ih =>
      refine steady_bind (calm_readcIfile idle) fun r next => ?_
      refine calm_ite (fun _ => steady_pure _ next) fun _ => steady_bind (ih next) fun _ last => steady_pure _ last

theorem calm_readIfile {n : Nat} (idle : Idle o fd) (buf : Vector Byte n) : Calm o (readIfile fd buf) (fun r => Idle o r.2.2) :=
  calm_ite (fun _ => steady_pure _ idle) fun _ => steady_bind (calm_readChars n idle) fun _ next => steady_pure _ next

theorem calm_closeIfile (idle : Idle o fd) : Calm o (closeIfile fd) (Idle o) := by
  refine steady_bind (calm_flushIfile idle.clean) fun fd' same => ?_
  subst same
  refine steady_bind (calm_readInode _) fun inode holds => ?_
  obtain ⟨inode',holds',size⟩ := idle.size
  obtain rfl : inode' = inode := holds'.2.trans holds.2.symm
  rw [← size]
  exact steady_bind (calm_writeInode holds) fun _ _ => steady_pure _ idle

theorem calm_newEntryLoop (fuel : Nat) (idle : Idle o fd) (buf : Vector Byte 20) (ientry : Word) :
    Calm o (newEntryLoop fuel fd buf ientry) (fun r => Idle o r.2) := by
  induction fuel generalizing fd buf ientry with
  | zero => exact steady_stop _
  | succ fuel ih =>
      refine steady_bind (calm_readIfile idle buf) fun r next => ?_
      exact calm_ite (fun _ => steady_pure _ next) fun _ => calm_ite (fun _ => steady_pure _ next) fun _ => ih next _ _

theorem calm_findEntryLoop (name : List Byte) (fuel : Nat) (idle : Idle o fd) (buf : Vector Byte 20) (ientry : Word) :
    Calm o (findEntryLoop name fuel fd buf ientry) (fun r => Idle o r.2) := by
  induction fuel generalizing fd buf ientry with
  | zero => exact steady_stop _
  | succ fuel ih =>
      refine steady_bind (calm_readIfile idle buf) fun r next => ?_
      exact calm_ite (fun _ => steady_pure _ next) fun _ => calm_ite (fun _ => steady_pure _ next) fun _ => ih next _ _

theorem calm_newEntry (idle : Idle o fd) : Calm o (newEntry fd) (fun r => Idle o r.2) :=
  calm_get (by rintro s ⟨_,_,_,rfl⟩; rfl)
    (steady_bind (calm_seek2Ifile idle 0) fun _ moved => calm_newEntryLoop scanFuel moved _ 0)

theorem calm_findEntry (idle : Idle o fd) (name : List Byte) : Calm o (findEntry fd name) (fun r => Idle o r.2) :=
  calm_get (by rintro s ⟨_,_,_,rfl⟩; rfl)
    (steady_bind (calm_seek2Ifile idle 0) fun _ moved => calm_findEntryLoop name scanFuel moved _ 0)

theorem calm_inumberOfBasename (idir : Word) (name : List Byte) : Calm o (inumberOfBasename idir name) (fun _ => True) := by
  refine steady_bind (calm_readInode idir) fun _ _ => calm_ite (fun _ => steady_pure _ trivial) fun _ => ?_
  refine steady_bind (calm_openIfile idir) fun r opened => steady_bind (calm_findEntry opened name) fun r found => ?_
  refine calm_ite (fun _ => steady_pure _ trivial) fun _ => steady_bind (calm_seek2Ifile found _) fun fd moved => ?_
  refine calm_get (by rintro s ⟨_,_,_,rfl⟩; rfl) ?_
  exact steady_bind (calm_readIfile moved _) fun _ read => steady_bind (calm_closeIfile read) fun _ _ => steady_pure _ trivial

theorem calm_pathLoop (icurrent : Word) (path : List Byte) : Calm o (pathLoop icurrent path) (fun _ => True) := by
  induction icurrent, path using pathLoop.induct with
  | case1 =>
      rw [pathLoop]
      exact steady_pure _ trivial
  | case2 icurrent rest ih =>
      rw [pathLoop,if_pos rfl]
      exact ih
  | case3 icurrent c rest other ih =>
      rw [pathLoop,if_neg other]
      exact steady_bind (calm_inumberOfBasename _ _) fun i _ => calm_ite (fun _ => steady_pure _ trivial) fun _ => ih i

theorem calm_inumberOfPath (path : List Byte) : Calm o (inumberOfPath path) (fun _ => True) :=
  calm_ite (fun _ => steady_pure _ trivial) fun _ => calm_get (by rintro s ⟨_,_,_,rfl⟩; rfl) (calm_pathLoop _ path)

theorem calm_dinumberOfPath (path : List Byte) : Calm o (dinumberOfPath path) (fun _ => True) :=
  calm_ite (fun _ => steady_pure _ trivial) fun _ => steady_bind (calm_inumberOfPath _) fun _ _ =>
    calm_ite (fun _ => steady_pure _ trivial) fun _ => steady_bind (calm_readInode _) fun _ _ => steady_pure _ trivial

end AsePlusPlus
