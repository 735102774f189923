import AsePlusPlus.Lib.Trace
import AsePlusPlus.Stepwise
import AsePlusPlus.Fixed
import AsePlusPlus.Regions
import AsePlusPlus.Formatting

namespace AsePlusPlus
open Words Program Trace Resumption

-- Accesses to the blocs of one volume only, while current_volume names it.
def Access.At (home : Word) : Access → Prop
  | .mbr => False
  | .setVolume _ => False
  | .read vol _ _ => vol = home
  | .writeBloc vol _ _ => vol = home
  | .writeNbloc vol _ _ _ => vol = home
  | _ => True

def Access.Tells (home : Word) : (o : Access) → o.Answer → Prop
  | .volume => fun vol => vol = home
  | _ => fun _ => True

abbrev AtVolume {α : Type} (home : Word) (task : S α) : Prop := task.Tame (Access.At home) (Access.Tells home)

namespace Stepwise
open Task

section home
variable {α : Type} {home inumber fbloc : Word} {doAllocate : Bool} {fd : FileDesc}

theorem current_home {f : Word → S α} (next : AtVolume home (f home)) : AtVolume home (current >>= f) :=
  ⟨trivial,fun _ told => by rw [told]; exact next⟩

theorem super_home : AtVolume home super := tame_request trivial

theorem frame_home : AtVolume home frame := tame_request trivial

theorem setSuper_home (f : Super → Super) : AtVolume home (setSuper f) := tame_request trivial

theorem readBloc_home (nbloc : Word) : AtVolume home (readBloc home nbloc) := tame_request rfl

theorem readNbloc_home (nbloc : Word) (size : Nat) : AtVolume home (readNbloc home nbloc size) := tame_request rfl

theorem writeBloc_home (nbloc : Word) (buffer : Sector) : AtVolume home (writeBloc home nbloc buffer) := tame_request rfl

theorem writeNbloc_home {size : Nat} (nbloc : Word) (buffer : Vector Byte size) : AtVolume home (writeNbloc home nbloc buffer) :=
  tame_request rfl

theorem saveSuper_home : AtVolume home saveSuper := by
  refine super_home.bind fun super => tame_ensure.bind fun _ => ?_
  exact current_home (writeNbloc_home 0 super.encode)

theorem newBloc_home : AtVolume home newBloc := by
  refine super_home.bind fun super => tame_ite (tame_pure 0) ?_
  refine current_home ((readNbloc_home _ 8).bind fun buffer => tame_ensure.bind fun _ => ?_)
  refine tame_ite ?_ ?_
  · exact (setSuper_home _).bind fun _ => (setSuper_home _).bind fun _ => saveSuper_home.bind fun _ => tame_pure _
  · exact (setSuper_home _).bind fun _ => (setSuper_home _).bind fun _ => saveSuper_home.bind fun _ => tame_pure _

theorem readInode_home : AtVolume home (readInode inumber) :=
  current_home ((readBloc_home inumber).bind fun _ => tame_pure _)

theorem writeInode_home (inode : Inode) : AtVolume home (writeInode inumber inode) := current_home (writeBloc_home inumber _)

theorem initializeBloc_home (adress : Word) : AtVolume home (initializeBloc adress) := by
  refine current_home ((readBloc_home adress).bind fun _ => ?_)
  exact current_home ((writeBloc_home adress _).bind fun _ => tame_pure _)

theorem blocOrAllocate_home (pointer : Word) {link : Word → S Unit} (linked : ∀ bloc, AtVolume home (link bloc)) :
    AtVolume home (blocOrAllocate pointer link) := by
  refine tame_ite ?_ (tame_pure _)
  exact newBloc_home.bind fun adress => (initializeBloc_home adress).bind fun bloc => (linked bloc).bind fun _ => tame_pure _

theorem directBloc_home (inode : Inode) : AtVolume home (directBloc inumber inode fbloc doAllocate) :=
  tame_ite (tame_pure _) (blocOrAllocate_home _ fun _ => writeInode_home _)

theorem indirectBloc_home (inode : Inode) : AtVolume home (indirectBloc inode fbloc doAllocate) := by
  refine current_home ((readBloc_home _).bind fun _ => tame_ite (tame_pure _) ?_)
  exact blocOrAllocate_home _ fun _ => current_home (writeBloc_home _ _)

theorem doubleIndirectBloc_home (inode : Inode) : AtVolume home (doubleIndirectBloc inumber inode fbloc doAllocate) := by
  refine tame_ite (tame_pure _) ((blocOrAllocate_home _ fun _ => writeInode_home _).bind fun double => ?_)
  refine current_home ((readBloc_home double).bind fun _ => tame_ite (tame_pure _) ?_)
  refine (blocOrAllocate_home _ fun _ => current_home (writeBloc_home _ _)).bind fun index => ?_
  refine current_home ((readBloc_home index).bind fun _ => tame_ite (tame_pure _) ?_)
  exact blocOrAllocate_home _ fun _ => current_home (writeBloc_home _ _)

theorem vblocOfFbloc_home (inumber fbloc : Word) (doAllocate : Bool) : AtVolume home (vblocOfFbloc inumber fbloc doAllocate) := by
  refine readInode_home.bind fun inode => tame_ite (directBloc_home inode) (tame_ite (indirectBloc_home inode) ?_)
  exact tame_ite (doubleIndirectBloc_home inode) (tame_pure _)

theorem loadBuffer_home (bloc : Word) : AtVolume home (loadBuffer bloc) := tame_ite (tame_pure _) (current_home (readBloc_home bloc))

theorem openIfile_home (inumber : Word) : AtVolume home (openIfile inumber) := by
  refine readInode_home.bind fun inode => (vblocOfFbloc_home inumber 0 false).bind fun firstBloc => ?_
  exact (loadBuffer_home firstBloc).bind fun _ => tame_pure _

theorem flushIfile_home (fd : FileDesc) : AtVolume home (flushIfile fd) := by
  refine tame_ite ?_ (tame_pure _)
  exact (vblocOfFbloc_home _ _ true).bind fun vbloc => current_home ((writeBloc_home vbloc _).bind fun _ => tame_pure _)

theorem closeIfile_home (fd : FileDesc) : AtVolume home (closeIfile fd) := by
  refine (flushIfile_home fd).bind fun fd => readInode_home.bind fun inode => ?_
  exact (writeInode_home _).bind fun _ => tame_pure _

theorem seekIfile_home (fd : FileDesc) (offset : Word) : AtVolume home (seekIfile fd offset) := by
  refine tame_ite ?_ (tame_pure _)
  refine (flushIfile_home _).bind fun fd => (vblocOfFbloc_home _ _ false).bind fun vbloc => ?_
  exact (loadBuffer_home vbloc).bind fun _ => tame_pure _

theorem readcIfile_home (fd : FileDesc) : AtVolume home (readcIfile fd) :=
  tame_ite (tame_pure _) ((seekIfile_home fd 1).bind fun _ => tame_pure _)

theorem writecStore_home (fd : FileDesc) : AtVolume home (writecStore fd) := by
  refine tame_ite ((vblocOfFbloc_home _ _ false).bind fun ibloc => ?_) (tame_pure _)
  refine current_home ((writeBloc_home ibloc _).bind fun _ => (vblocOfFbloc_home _ _ false).bind fun next => ?_)
  exact (loadBuffer_home next).bind fun _ => tame_pure _

theorem writecIfile_home (fd : FileDesc) (c : Byte) : AtVolume home (writecIfile fd c) := by
  refine tame_ite ?_ (writecStore_home _)
  exact (vblocOfFbloc_home _ _ true).bind fun ibloc => tame_ite (tame_pure _) (writecStore_home _)

theorem readChars_home (count : Nat) (fd : FileDesc) : AtVolume home (readChars count fd) := by
  induction count generalizing fd with
  | zero => exact tame_pure _
  | succ count ih =>
      refine (readcIfile_home fd).bind fun r => tame_ite (tame_pure _) ?_
      exact (ih r.2).bind fun _ => tame_pure _

theorem readIfile_home {nbyte : Nat} (fd : FileDesc) (buf : Vector Byte nbyte) : AtVolume home (readIfile fd buf) :=
  tame_ite (tame_pure _) ((readChars_home nbyte fd).bind fun _ => tame_pure _)

theorem writeChars_home (chars : List Byte) (fd : FileDesc) : AtVolume home (writeChars chars fd) := by
  induction chars generalizing fd with
  | nil => exact tame_pure _
  | cons c rest ih => exact (writecIfile_home fd c).bind fun r => tame_ite (tame_pure _) (ih r.2)

theorem writeIfile_home {nbyte : Nat} (fd : FileDesc) (buf : Vector Byte nbyte) : AtVolume home (writeIfile fd buf) :=
  (writeChars_home buf.toList fd).bind fun _ => tame_pure _

theorem findEntryLoop_home (basename : List Byte) (fuel : Nat) (fd : FileDesc) (entry : Vector Byte 20) (ientry : Word) :
    AtVolume home (findEntryLoop basename fuel fd entry ientry) := by
  induction fuel generalizing fd entry ientry with
  | zero => trivial
  | succ fuel ih => exact (readIfile_home fd entry).bind fun r => tame_ite (tame_pure _) (tame_ite (tame_pure _) (ih _ _ _))

theorem findEntry_home (fd : FileDesc) (basename : List Byte) : AtVolume home (findEntry fd basename) :=
  frame_home.bind fun _ => (seekIfile_home fd _).bind fun _ => findEntryLoop_home _ _ _ _ _

theorem inumberOfBasename_home (idir : Word) (basename : List Byte) : AtVolume home (inumberOfBasename idir basename) := by
  refine readInode_home.bind fun inode => tame_ite (tame_pure _) ((openIfile_home idir).bind fun r => ?_)
  refine (findEntry_home r.2 basename).bind fun r => tame_ite (tame_pure _) ((seekIfile_home r.2 _).bind fun fd => ?_)
  exact frame_home.bind fun frame => (readIfile_home fd frame.entry).bind fun r => (closeIfile_home _).bind fun _ => tame_pure _

theorem pathLoop_home (icurrent : Word) (pathname : List Byte) : AtVolume home (pathLoop icurrent pathname) := by
  fun_induction AsePlusPlus.pathLoop icurrent pathname with
  | case1 icurrent =>
      rw [pathLoop]
      exact tame_pure _
  | case2 icurrent rest ih =>
      rw [pathLoop]
      rw [if_pos rfl]
      exact ih
  | case3 icurrent c rest other ih =>
      rw [pathLoop,if_neg other]
      exact (inumberOfBasename_home _ _).bind fun inumber => tame_ite (tame_pure _) (ih inumber)

theorem openFile_home (fd : FileDesc) (pathname : List Byte) : AtVolume home (openFile fd pathname) := by
  have found : AtVolume home (inumberOfPath pathname) := tame_ite (tame_pure _) (super_home.bind fun super => pathLoop_home _ _)
  exact found.bind fun inumber => tame_ite (tame_pure _) (openIfile_home inumber)

end home

end Stepwise

-- A descriptor, and the volume that was mounted when it was opened.
structure Opened where
  desc : FileDesc
  home : Word

-- The calls a context makes with an open descriptor.
inductive FileOp where
  | readc
  | read (nbyte : Nat) (buf : Vector Byte nbyte)
  | writec (c : Byte)
  | write (nbyte : Nat) (buf : Vector Byte nbyte)
  | seek (offset : Word)
  | seek2 (offset : Word)
  | flush
  | close

-- The descriptor they leave behind.
def FileOp.task (fd : FileDesc) : FileOp → S (Option FileDesc)
  | .readc => do
    let (_,fd) ← Stepwise.readcIfile fd
    return some fd
  | .read _ buf => do
    let (_,_,fd) ← Stepwise.readIfile fd buf
    return some fd
  | .writec c => do
    let (_,fd) ← Stepwise.writecIfile fd c
    return some fd
  | .write _ buf => do
    let (_,fd) ← Stepwise.writeIfile fd buf
    return some fd
  | .seek offset => do
    let fd ← Stepwise.seekIfile fd offset
    return some fd
  | .seek2 offset => do
    let fd ← Stepwise.seek2Ifile fd offset
    return some fd
  | .flush => do
    let fd ← Stepwise.flushIfile fd
    return some fd
  | .close => do
    let _ ← Stepwise.closeIfile fd
    return none

-- open_file leaves no descriptor when it fails; open_ifile does not fail.
def openFileTask (fd : FileDesc) (pathname : List Byte) : S (Option FileDesc) := do
  let (status,fd) ← Stepwise.openFile fd pathname
  return if status = returnSuccess then some fd else none

def openIfileTask (inumber : Word) : S (Option FileDesc) := do
  let (_,fd) ← Stepwise.openIfile inumber
  return some fd

-- What a context is at: nothing, a mount_volume whose last read was of `source`,
-- or an operation on its descriptor `d`, opened on `home`.
inductive Deed where
  | resting
  | mounting (source : Word) (task : S Unit)
  | working (d : Nat) (home : Word) (task : S (Option FileDesc))

-- An access that was made for a descriptor: to a bloc, or to the head of the free
-- chain in super while it is a copy of the superbloc of `volume`.
inductive Use where
  | bloc (home vol nbloc : Word)
  | chain (home volume : Word)

def Use.Kept : Use → Prop
  | .bloc home vol _ => vol = home
  | .chain home volume => volume = home

-- The machine that the contexts share, the volume whose superbloc super was
-- copied from last, and of each context what it is at and its descriptors.
structure Hall where
  machine : Machine
  superHome : Word
  deed : Nat → Deed
  opened : Nat → Nat → Option Opened
  log : List Use

def Access.source (source : Word) : Access → Word
  | .read vol _ _ => vol
  | _ => source

def Access.superFrom (source superHome : Word) : Access → Word
  | .setSuper _ => source
  | _ => superHome

def Access.uses (home superHome : Word) : Access → List Use
  | .super => [.chain home superHome]
  | .setSuper _ => [.chain home superHome]
  | .read vol nbloc _ => [.bloc home vol nbloc]
  | .writeBloc vol nbloc _ => [.bloc home vol nbloc]
  | .writeNbloc vol nbloc _ _ => [.bloc home vol nbloc]
  | _ => []

def Hall.sets (k : Hall) (p : Nat) (deed : Deed) : Hall := {k with deed := Function.update k.deed p deed}

def Hall.keeps (k : Hall) (p d : Nat) (o : Option Opened) : Hall :=
  {k with opened := Function.update k.opened p (Function.update (k.opened p) d o)}

-- A call of a context, or one access (or the return) of the call it is in.
inductive Motion where
  | mount (p : Nat) (volume : Word)
  | openFile (p d : Nat) (pathname : List Byte)
  | openIfile (p d : Nat) (inumber : Word)
  | operate (p d : Nat) (op : FileOp)
  | step (p : Nat)

inductive HallStep : Hall → Motion → Hall → Prop
  | mount {k : Hall} {p : Nat} (volume : Word) (idle : k.deed p = .resting) :
      HallStep k (.mount p volume) (k.sets p (.mounting k.superHome (Stepwise.mountVolume volume)))
  | openFile {k : Hall} {p : Nat} (d : Nat) (pathname : List Byte) (idle : k.deed p = .resting) :
      HallStep k (.openFile p d pathname) (k.sets p (.working d k.machine.currentVolume (openFileTask k.machine.frame.desc pathname)))
  | openIfile {k : Hall} {p : Nat} (d : Nat) (inumber : Word) (idle : k.deed p = .resting) :
      HallStep k (.openIfile p d inumber) (k.sets p (.working d k.machine.currentVolume (openIfileTask inumber)))
  | operate {k : Hall} {p d : Nat} {o : Opened} (op : FileOp) (idle : k.deed p = .resting) (there : k.opened p d = some o) :
      HallStep k (.operate p d op) (k.sets p (.working d o.home (op.task o.desc)))
  | mountAsks {k : Hall} {p : Nat} {source : Word} {o : Access} {next : o.Answer → S Unit} {x : o.Answer} {m : Machine}
      (here : k.deed p = .mounting source (.ask o next)) (did : o.perform k.machine = (.ok x,m)) :
      HallStep k (.step p) ({k with machine := m,superHome := o.superFrom source k.superHome}.sets p (.mounting (o.source source) (next x)))
  | mountDone {k : Hall} {p : Nat} {source : Word} (here : k.deed p = .mounting source (.done ())) :
      HallStep k (.step p) (k.sets p .resting)
  | workAsks {k : Hall} {p d : Nat} {home : Word} {o : Access} {next : o.Answer → S (Option FileDesc)} {x : o.Answer} {m : Machine}
      (here : k.deed p = .working d home (.ask o next)) (did : o.perform k.machine = (.ok x,m)) :
      HallStep k (.step p) ({k with machine := m,log := o.uses home k.superHome ++ k.log}.sets p (.working d home (next x)))
  | workDone {k : Hall} {p d : Nat} {home : Word} {fd : Option FileDesc} (here : k.deed p = .working d home (.done fd)) :
      HallStep k (.step p) ((k.keeps p d (fd.map (Opened.mk · home))).sets p .resting)

-- An operation begins while its volume is mounted, and mount_volume sets
-- current_volume and super only while the operations in progress are on the
-- volume it mounts.
def Attends (k : Hall) : Motion → Prop
  | .mount _ _ => True
  | .openFile _ _ _ => k.superHome = k.machine.currentVolume
  | .openIfile _ _ _ => k.superHome = k.machine.currentVolume
  | .operate p d _ => ∀ o, k.opened p d = some o → k.machine.currentVolume = o.home ∧ k.superHome = o.home
  | .step p => match k.deed p with
    | .mounting _ (.ask (.setVolume vol) _) => ∀ q d home task, k.deed q = .working d home task → home = vol
    | .mounting source (.ask (.setSuper _) _) => ∀ q d home task, k.deed q = .working d home task → home = source
    | _ => True

-- The operations in progress are on the volume that is mounted.
structure Resident (k : Hall) : Prop where
  mounted : ∀ p d home task, k.deed p = .working d home task → k.machine.currentVolume = home ∧ k.superHome = home ∧ AtVolume home task
  kept : ∀ use ∈ k.log, use.Kept

variable {k t : Hall} {e : Motion} {p d : Nat} {home source : Word} {o : Access} {x : o.Answer} {m n machine : Machine}
  {past : List (Hall × Motion)}

theorem FileOp.task_home (op : FileOp) (fd : FileDesc) : AtVolume home (op.task fd) := by
  cases op with
  | readc => exact (Stepwise.readcIfile_home fd).bind fun _ => Task.tame_pure _
  | read nbyte buf => exact (Stepwise.readIfile_home fd buf).bind fun _ => Task.tame_pure _
  | writec c => exact (Stepwise.writecIfile_home fd c).bind fun _ => Task.tame_pure _
  | write nbyte buf => exact (Stepwise.writeIfile_home fd buf).bind fun _ => Task.tame_pure _
  | seek offset => exact (Stepwise.seekIfile_home fd offset).bind fun _ => Task.tame_pure _
  | seek2 offset => exact (Stepwise.seekIfile_home fd _).bind fun _ => Task.tame_pure _
  | flush => exact (Stepwise.flushIfile_home fd).bind fun _ => Task.tame_pure _
  | close => exact (Stepwise.closeIfile_home fd).bind fun _ => Task.tame_pure _

theorem openFileTask_home (fd : FileDesc) (pathname : List Byte) : AtVolume home (openFileTask fd pathname) :=
  (Stepwise.openFile_home fd pathname).bind fun _ => Task.tame_pure _

theorem openIfileTask_home (inumber : Word) : AtVolume home (openIfileTask inumber) :=
  (Stepwise.openIfile_home inumber).bind fun _ => Task.tame_pure _

-- Only its own assignment changes current_volume.
theorem perform_volume (did : o.perform n = (.ok x,m)) (other : ∀ vol, o ≠ .setVolume vol) : m.currentVolume = n.currentVolume := by
  cases o with
  | volume => cases did; rfl
  | super => cases did; rfl
  | frame => cases did; rfl
  | mbr =>
      have equal : readMbr n = (.ok x,m) := did
      rw [readMbr_exact] at equal
      cases equal
      rfl
  | setVolume vol => exact absurd rfl (other vol)
  | setSuper f => cases did; rfl
  | read vol nbloc size => exact ((fixed_charged.readNbloc vol nbloc size).result did).volume
  | writeBloc vol nbloc buffer => exact ((fixed_charged.writeBloc vol nbloc buffer).result did).volume
  | writeNbloc vol nbloc size buffer => exact ((fixed_charged.writeNbloc vol nbloc buffer).result did).volume

theorem sets_here (k : Hall) (p : Nat) (deed : Deed) : (k.sets p deed).deed p = deed := Function.update_self _ _ _

theorem sets_other {q : Nat} (k : Hall) (deed : Deed) (other : q ≠ p) : (k.sets p deed).deed q = k.deed q := Function.update_of_ne other _ _

-- A context that is not at work on a descriptor changes what it is at.
theorem Resident.sets (resident : Resident k) {deed : Deed} (idle : ∀ d home task, deed ≠ .working d home task) : Resident (k.sets p deed) := by
  refine ⟨?_,resident.kept⟩
  intro q d home task here
  by_cases equal : q = p
  · subst equal
    rw [sets_here] at here
    exact absurd here (idle d home task)
  · rw [sets_other k deed equal] at here
    exact resident.mounted q d home task here

-- An operation begins or goes on.
theorem Resident.works (resident : Resident k) {task : S (Option FileDesc)} (volume : k.machine.currentVolume = home)
    (super : k.superHome = home) (tame : AtVolume home task) : Resident (k.sets p (.working d home task)) := by
  refine ⟨?_,resident.kept⟩
  intro q d' home' task' here
  by_cases equal : q = p
  · subst equal
    rw [sets_here] at here
    cases here
    exact ⟨volume,super,tame⟩
  · rw [sets_other k _ equal] at here
    exact resident.mounted q d' home' task' here

-- The accesses of mount_volume.
theorem Resident.mounts (resident : Resident k) {next : o.Answer → S Unit} (attends : Attends k (.step p))
    (here : k.deed p = .mounting source (.ask o next)) (did : o.perform k.machine = (.ok x,m)) :
    Resident {k with machine := m,superHome := o.superFrom source k.superHome} := by
  unfold Attends at attends
  dsimp only at attends
  rw [here] at attends
  refine ⟨?_,resident.kept⟩
  intro q d home task working
  obtain ⟨volume,super,tame⟩ := resident.mounted q d home task working
  refine ⟨?_,?_,tame⟩
  · by_cases assigns : ∃ vol, o = .setVolume vol
    · obtain ⟨vol,rfl⟩ := assigns
      cases did
      exact (attends q d home task working).symm
    · have other : ∀ vol, o ≠ .setVolume vol := fun vol equal => assigns ⟨vol,equal⟩
      exact (perform_volume did other).trans volume
  · cases o with
    | setSuper f => exact (attends q d home task working).symm
    | _ => exact super

-- The accesses of an operation.
theorem Access.At.uses {superHome : Word} (kind : o.At home) (same : superHome = home) : ∀ use ∈ o.uses home superHome, use.Kept := by
  intro use member
  cases o with
  | super => rw [List.mem_singleton.mp member]; exact same
  | setSuper f => rw [List.mem_singleton.mp member]; exact same
  | read vol nbloc size => rw [List.mem_singleton.mp member]; exact kind
  | writeBloc vol nbloc buffer => rw [List.mem_singleton.mp member]; exact kind
  | writeNbloc vol nbloc size buffer => rw [List.mem_singleton.mp member]; exact kind
  | _ => exact absurd member List.not_mem_nil

theorem Access.At.tells (kind : o.At home) (did : o.perform n = (.ok x,m)) (volume : n.currentVolume = home) : o.Tells home x := by
  cases o with
  | volume => cases did; exact volume
  | _ => trivial

theorem HallStep.keeps (resident : Resident k) (attends : Attends k e) (taken : HallStep k e t) : Resident t := by
  cases taken with
  | mount volume idle => exact resident.sets (by simp)
  | openFile d pathname idle => exact resident.works rfl attends (openFileTask_home _ _)
  | openIfile d inumber idle => exact resident.works rfl attends (openIfileTask_home _)
  | operate op idle there =>
      obtain ⟨volume,super⟩ := attends _ there
      exact resident.works volume super (op.task_home _)
  | mountAsks here did => exact (resident.mounts attends here did).sets (by simp)
  | mountDone here => exact resident.sets (by simp)
  | workAsks here did =>
      obtain ⟨volume,super,kind,next⟩ := resident.mounted _ _ _ _ here
      have still := (perform_volume did fun vol equal => by rw [equal] at kind; exact kind).trans volume
      refine Resident.works ⟨?_,?_⟩ still super (next _ (kind.tells did volume))
      · intro q d' home' task' working
        obtain ⟨volume',super',tame⟩ := resident.mounted q d' home' task' working
        exact ⟨still.trans (volume.symm.trans volume'),super',tame⟩
      · intro use member
        rcases List.mem_append.mp member with new | old
        · exact kind.uses super use new
        · exact resident.kept use old
  | workDone here => exact Resident.sets (k := k.keeps _ _ _) ⟨resident.mounted,resident.kept⟩ (by simp)

end AsePlusPlus
