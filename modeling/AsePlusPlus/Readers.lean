import AsePlusPlus.Lib.Crew
import AsePlusPlus.Stepwise
import AsePlusPlus.Commands

namespace AsePlusPlus
open Words Program Trace Resumption

namespace Stepwise
open Task

-- do_cat and do_ls, such that their context may be made to wait at each access.
def catLoop : Nat → FileDesc → S (List Byte × FileDesc)
  | 0,_ => .halt .loop
  | reads+1,fd => do
    let (c,fd) ← readcIfile fd
    if c = readEof then
      return ([],fd)
    else
      let (text,fd) ← catLoop reads fd
      return (c.setWidth 8 :: text,fd)

def doCat (reads : Nat) (cwd arguments : List Byte) : Option (S (Word × List Byte)) := do
  let target ← canonicalPath cwd arguments
  return do
    let frame ← frame
    let (status,fd) ← openFile frame.desc target
    if status = returnFailure then
      return (1,[])
    else
      let (text,fd) ← catLoop reads fd
      let _ ← closeIfile fd
      return (0,text)

def listLoop : Nat → FileDesc → Vector Byte 20 → S (List (List Byte) × FileDesc)
  | 0,fd,_ => return ([],fd)
  | count+1,fd,entry => do
    let (status,entry,fd) ← readIfile fd entry
    if status = readEof then
      return ([],fd)
    else
      let inode ← readInode (Entry.decode entry).entInumber
      let name := cstring (Entry.decode entry).entBasename
      let (names,fd) ← listLoop count fd entry
      return ((if inode.type = FileType.directory.code then name ++ [slash] else name) :: names,fd)

def listDirectory (size : Nat) (pathname : List Byte) : S (List (List Byte)) := do
  let frame ← frame
  let (_,current) ← openFile frame.desc pathname
  let (names,current) ← listLoop size current frame.entry
  let _ ← closeIfile current
  return names

def doLs (cwd arguments : List Byte) : Option (S (List (List Byte))) := do
  let target ← canonicalPath cwd arguments
  return listDirectory 16 target

theorem run_catLoop (reads : Nat) (fd : FileDesc) : (catLoop reads fd).run Access.perform = AsePlusPlus.catLoop reads fd := by
  induction reads generalizing fd with
  | zero => rfl
  | succ reads ih =>
      simp only [catLoop,run_bind,run_readcIfile,run_ite,run_pure,ih]
      rfl

theorem run_listLoop (count : Nat) (fd : FileDesc) (entry : Vector Byte 20) :
    (listLoop count fd entry).run Access.perform = AsePlusPlus.listLoop count fd entry := by
  induction count generalizing fd entry with
  | zero => rfl
  | succ count ih =>
      simp only [listLoop,run_bind,run_readIfile,run_readInode,run_ite,run_pure,ih]
      rfl

theorem run_listDirectory (size : Nat) (pathname : List Byte) :
    (listDirectory size pathname).run Access.perform = AsePlusPlus.listDirectory size pathname := by
  simp only [listDirectory,run_bind,run_frame,run_openFile,run_listLoop,run_closeIfile,run_pure]
  rfl

theorem run_doCat (reads : Nat) (cwd arguments : List Byte) :
    (doCat reads cwd arguments).map (Task.run Access.perform) = AsePlusPlus.doCat reads cwd arguments := by
  unfold doCat AsePlusPlus.doCat
  cases canonicalPath cwd arguments with
  | none => rfl
  | some target =>
      refine congrArg some ?_
      simp only [run_bind,run_frame,run_openFile,run_ite,run_pure,run_catLoop,run_closeIfile]
      rfl

theorem run_doLs (cwd arguments : List Byte) :
    (doLs cwd arguments).map (Task.run Access.perform) = AsePlusPlus.doLs cwd arguments := by
  unfold doLs AsePlusPlus.doLs
  cases canonicalPath cwd arguments with
  | none => rfl
  | some target => exact congrArg some (run_listDirectory 16 target)

end Stepwise

-- The commands that only look.
def Builtin.glance (reads : Nat) (m : Machine) : Builtin → Option (S Output)
  | .cat arguments => (Stepwise.doCat reads m.cwd arguments).map fun command => do
    let r ← command
    return if r.1 = 1 then .told true else .text r.2
  | .ls arguments => (Stepwise.doLs m.cwd arguments).map fun command => do
    let names ← command
    return .names names
  | .cd _ | .compute _ _ | .cp _ | .ed _ _ | .mkdir _ | .rm _ => none

variable {o s t : Machine} {fd : FileDesc} {inumber : Word} {path arguments : List Byte} {c : Builtin} {task : S Output} {reads : Nat}

theorem glance_run (begun : c.glance reads s = some task) : c.run reads s = some (task.run Access.perform) := by
  cases c with
  | cat arguments =>
      obtain ⟨command,first,rfl⟩ := Option.map_eq_some_iff.mp begun
      rw [Builtin.run,← Stepwise.run_doCat,first]
      refine congrArg some ?_
      rw [Task.run_bind]
      rfl
  | ls arguments =>
      obtain ⟨command,first,rfl⟩ := Option.map_eq_some_iff.mp begun
      rw [Builtin.run,← Stepwise.run_doLs,first]
      refine congrArg some ?_
      rw [Task.run_bind]
      rfl
  | cd => cases begun
  | compute => cases begun
  | cp => cases begun
  | ed => cases begun
  | mkdir => cases begun
  | rm => cases begun

-- A task none of whose accesses changes what the disk holds, nor depends on more
-- than that.
abbrev Watches (o : Machine) (task : S α) (Q : α → Prop) : Prop := task.Constant Access.perform (Same o) Q

namespace Stepwise
open Task

theorem watches_current : Watches o current (fun v => v = o.currentVolume) := constant_request calm_current

theorem watches_frame : Watches o frame (fun f => f = o.frame) :=
  constant_request ⟨.ok o.frame,fun s same => ⟨congrArg Except.ok same.frame,same⟩,fun _ equal => by cases equal; rfl⟩

theorem watches_super : Watches o super (fun f => f = o.super) :=
  constant_request ⟨.ok o.super,fun s same => ⟨congrArg Except.ok same.super,same⟩,fun _ equal => by cases equal; rfl⟩

theorem watches_readInode (inumber : Word) : Watches o (readInode inumber) (o.Holds inumber) := by
  refine constant_bind watches_current fun v current => ?_
  subst current
  refine constant_bind (constant_request (calm_readBloc inumber)) fun buf read => ?_
  obtain ⟨on,rfl⟩ := read
  exact constant_pure ⟨on,rfl⟩

theorem watches_readCurrent (b : Word) : Watches o (do readBloc (← current) b) (fun _ => True) := by
  refine constant_bind watches_current fun v equal => ?_
  subst equal
  exact constant_request ((calm_readBloc b).mono fun _ _ => trivial)

-- close_ifile writes the inode that is there.
theorem watches_writeInode {inode : Inode} (holds : o.Holds inumber inode) : Watches o (writeInode inumber inode) (fun _ => True) := by
  refine constant_bind watches_current fun v equal => ?_
  subst equal
  obtain ⟨r,same,post⟩ := calm_writeInode holds
  refine constant_request ⟨r,fun s here => ?_,post⟩
  have wrote := same s here
  obtain ⟨_,_,_,rfl⟩ := here
  exact wrote

theorem watches_blocOrAllocate {pointer : Word} {link : Word → S Unit} (live : pointer ≠ 0) :
    Watches o (blocOrAllocate pointer link) (fun _ => True) := by
  unfold blocOrAllocate
  rw [if_neg live]
  exact constant_pure trivial

theorem watches_pointer {pointer : Word} {next : S Word} (found : pointer ≠ 0 → Watches o next (fun _ => True)) :
    Watches o (if pointer = 0 ∧ false = false then return blocNull else next) (fun _ => True) :=
  constant_ite (fun _ => constant_pure trivial) fun other => found fun null => other ⟨null,rfl⟩

theorem watches_vbloc (inumber fbloc : Word) : Watches o (vblocOfFbloc inumber fbloc false) (fun _ => True) := by
  refine constant_bind (watches_readInode inumber) fun inode _ => ?_
  refine constant_ite (fun _ => watches_pointer watches_blocOrAllocate) fun _ => constant_ite (fun _ => ?_) fun _ =>
    constant_ite (fun _ => ?_) fun _ => constant_pure trivial
  · refine constant_bind watches_current fun v equal => ?_
    subst equal
    exact constant_bind (constant_request (calm_readBloc _)) fun _ _ => watches_pointer watches_blocOrAllocate
  · refine watches_pointer fun live => constant_bind (watches_blocOrAllocate live) fun double _ =>
      constant_bind watches_current fun v equal => ?_
    subst equal
    refine constant_bind (constant_request (calm_readBloc _)) fun _ _ => watches_pointer fun live =>
      constant_bind (watches_blocOrAllocate live) fun index _ => constant_bind watches_current fun v equal => ?_
    subst equal
    exact constant_bind (constant_request (calm_readBloc _)) fun _ _ => watches_pointer watches_blocOrAllocate

theorem watches_loadBuffer (bloc : Word) : Watches o (loadBuffer bloc) (fun _ => True) :=
  constant_ite (fun _ => constant_pure trivial) fun _ => watches_readCurrent bloc

theorem watches_openIfile (inumber : Word) : Watches o (openIfile inumber) (fun r => Idle o r.2) :=
  constant_bind (watches_readInode inumber) fun inode holds => constant_bind (watches_vbloc _ _) fun _ _ =>
    constant_bind (watches_loadBuffer _) fun _ _ => constant_pure ⟨rfl,inode,holds,rfl⟩

theorem watches_flushIfile (clean : fd.fdsDirty = false) : Watches o (flushIfile fd) (fun fd' => fd' = fd) := by
  unfold flushIfile
  rw [clean]
  exact constant_pure rfl

theorem watches_seekIfile (idle : Idle o fd) (offset : Word) : Watches o (seekIfile fd offset) (Idle o) := by
  have moved : ({fd with fdsPos := fd.fdsPos+offset} : FileDesc).fdsDirty = false := idle.clean
  refine constant_ite (fun _ => ?_) fun _ => constant_pure (idle.moved ⟨idle.clean,rfl,rfl⟩)
  refine constant_bind (watches_flushIfile moved) fun fd' same => ?_
  subst same
  exact constant_bind (watches_vbloc _ _) fun _ _ => constant_bind (watches_loadBuffer _) fun buf _ =>
    constant_pure (idle.moved ⟨idle.clean,rfl,rfl⟩)

theorem watches_seek2Ifile (idle : Idle o fd) (offset : Word) : Watches o (seek2Ifile fd offset) (Idle o) :=
  watches_seekIfile idle (offset-fd.fdsPos)

theorem watches_readcIfile (idle : Idle o fd) : Watches o (readcIfile fd) (fun r => Idle o r.2) :=
  constant_ite (fun _ => constant_pure idle) fun _ => constant_bind (watches_seekIfile idle 1) fun _ moved => constant_pure moved

theorem watches_readChars (n : Nat) (idle : Idle o fd) : Watches o (readChars n fd) (fun r => Idle o r.2) := by
  induction n generalizing fd with
  | zero => exact constant_pure idle
  | succ n ih =>
      refine constant_bind (watches_readcIfile idle) fun r next => ?_
      exact constant_ite (fun _ => constant_pure next) fun _ => constant_bind (ih next) fun _ last => constant_pure last

theorem watches_readIfile {n : Nat} (idle : Idle o fd) (buf : Vector Byte n) : Watches o (readIfile fd buf) (fun r => Idle o r.2.2) :=
  constant_ite (fun _ => constant_pure idle) fun _ => constant_bind (watches_readChars n idle) fun _ next => constant_pure next

theorem watches_closeIfile (idle : Idle o fd) : Watches o (closeIfile fd) (Idle o) := by
  refine constant_bind (watches_flushIfile idle.clean) fun fd' same => ?_
  subst same
  refine constant_bind (watches_readInode _) fun inode holds => ?_
  obtain ⟨inode',holds',size⟩ := idle.size
  obtain rfl : inode' = inode := holds'.2.trans holds.2.symm
  rw [← size]
  exact constant_bind (watches_writeInode holds) fun _ _ => constant_pure idle

theorem watches_findEntryLoop (name : List Byte) (fuel : Nat) (idle : Idle o fd) (buf : Vector Byte 20) (ientry : Word) :
    Watches o (findEntryLoop name fuel fd buf ientry) (fun r => Idle o r.2) := by
  induction fuel generalizing fd buf ientry with
  | zero => exact constant_halt _
  | succ fuel ih =>
      refine constant_bind (watches_readIfile idle buf) fun r next => ?_
      exact constant_ite (fun _ => constant_pure next) fun _ => constant_ite (fun _ => constant_pure next) fun _ => ih next _ _

theorem watches_findEntry (idle : Idle o fd) (name : List Byte) : Watches o (findEntry fd name) (fun r => Idle o r.2) :=
  constant_bind watches_frame fun _ _ => constant_bind (watches_seek2Ifile idle 0) fun _ moved =>
    watches_findEntryLoop name scanFuel moved _ 0

theorem watches_inumberOfBasename (idir : Word) (name : List Byte) : Watches o (inumberOfBasename idir name) (fun _ => True) := by
  refine constant_bind (watches_readInode idir) fun _ _ => constant_ite (fun _ => constant_pure trivial) fun _ => ?_
  refine constant_bind (watches_openIfile idir) fun r opened => constant_bind (watches_findEntry opened name) fun r found => ?_
  refine constant_ite (fun _ => constant_pure trivial) fun _ => constant_bind (watches_seek2Ifile found _) fun fd moved => ?_
  refine constant_bind watches_frame fun _ _ => constant_bind (watches_readIfile moved _) fun _ read => ?_
  exact constant_bind (watches_closeIfile read) fun _ _ => constant_pure trivial

theorem watches_pathLoop (icurrent : Word) (path : List Byte) : Watches o (pathLoop icurrent path) (fun _ => True) := by
  induction icurrent, path using pathLoop.induct with
  | case1 =>
      rw [pathLoop]
      exact constant_pure trivial
  | case2 icurrent rest ih =>
      rw [pathLoop,if_pos rfl]
      exact ih
  | case3 icurrent c rest other ih =>
      rw [pathLoop,if_neg other]
      exact constant_bind (watches_inumberOfBasename _ _) fun i _ => constant_ite (fun _ => constant_pure trivial) fun _ => ih i

theorem watches_inumberOfPath (path : List Byte) : Watches o (inumberOfPath path) (fun i => (AsePlusPlus.inumberOfPath path o).1 = .ok i) := by
  have watches : Watches o (inumberOfPath path) (fun _ => True) :=
    constant_ite (fun _ => constant_pure trivial) fun _ => constant_bind watches_super fun _ _ => watches_pathLoop _ path
  refine (watches.self (.refl o)).mono fun i found => ?_
  rw [run_inumberOfPath] at found
  exact found.2

-- open_file fills the descriptor where the path leads somewhere.
theorem watches_openFile (fd : FileDesc) (path : List Byte) : Watches o (openFile fd path)
    (fun r => r = (returnFailure,fd) ∧ (AsePlusPlus.inumberOfPath path o).1 = .ok 0 ∨ Idle o r.2) := by
  refine constant_bind (watches_inumberOfPath path) fun inumber found => constant_ite (fun none => ?_) fun _ => ?_
  · subst none
    exact constant_pure (.inl ⟨rfl,found⟩)
  · exact (watches_openIfile inumber).mono fun _ idle => .inr idle

theorem watches_catLoop (reads : Nat) (idle : Idle o fd) : Watches o (catLoop reads fd) (fun r => Idle o r.2) := by
  induction reads generalizing fd with
  | zero => exact constant_halt _
  | succ reads ih =>
      refine constant_bind (watches_readcIfile idle) fun _ next => ?_
      exact constant_ite (fun _ => constant_pure next) fun _ => constant_bind (ih next) fun _ last => constant_pure last

theorem watches_listLoop (count : Nat) (idle : Idle o fd) (entry : Vector Byte 20) :
    Watches o (listLoop count fd entry) (fun r => Idle o r.2) := by
  induction count generalizing fd entry with
  | zero => exact constant_pure idle
  | succ count ih =>
      refine constant_bind (watches_readIfile idle entry) fun _ next => constant_ite (fun _ => constant_pure next) fun _ => ?_
      exact constant_bind (watches_readInode _) fun _ _ => constant_bind (ih next _) fun _ last => constant_pure last

theorem watches_listDirectory (size : Nat) (leads : (AsePlusPlus.inumberOfPath path o).1 ≠ .ok 0) :
    Watches o (listDirectory size path) (fun _ => True) := by
  refine constant_bind watches_frame fun _ _ => constant_bind (watches_openFile _ _) fun r opened => ?_
  have idle : Idle o r.2 := opened.resolve_left fun wrong => leads wrong.2
  exact constant_bind (watches_listLoop size idle _) fun _ last => constant_bind (watches_closeIfile last) fun _ _ => constant_pure trivial

theorem watches_doCat {command : S (Word × List Byte)} {cwd : List Byte} (begun : doCat reads cwd arguments = some command) :
    Watches o command (fun _ => True) := by
  obtain ⟨target,_,begun⟩ := Option.bind_eq_some_iff.mp begun
  cases begun
  refine constant_bind watches_frame fun _ _ => constant_bind (watches_openFile _ _) fun r opened => ?_
  refine constant_ite (fun _ => constant_pure trivial) fun success => ?_
  have idle : Idle o r.2 := opened.resolve_left fun wrong => success (congrArg Prod.fst wrong.1)
  exact constant_bind (watches_catLoop reads idle) fun _ last => constant_bind (watches_closeIfile last) fun _ _ => constant_pure trivial

end Stepwise

-- A command that looks and fits.
theorem Builtin.watches (tidied : Tidied s) (fits : c.Fits s) (begun : c.glance reads s = some task) : Watches s task (fun _ => True) := by
  cases c with
  | cat arguments =>
      obtain ⟨command,first,rfl⟩ := Option.map_eq_some_iff.mp begun
      exact Task.constant_bind (Stepwise.watches_doCat first) fun _ _ => Task.constant_pure trivial
  | ls arguments =>
      obtain ⟨command,first,rfl⟩ := Option.map_eq_some_iff.mp begun
      obtain ⟨role,free,ordered⟩ := tidied.ordered
      obtain ⟨_,path,canonical,found,_⟩ := fits
      unfold Stepwise.doLs at first
      rw [canonical] at first
      cases first
      refine Task.constant_bind (Stepwise.watches_listDirectory 16 ?_) fun _ _ => Task.constant_pure trivial
      rw [ordered.lookup]
      exact fun none => found (Except.ok.inj none)
  | cd => cases begun
  | compute => cases begun
  | cp => cases begun
  | ed => cases begun
  | mkdir => cases begun
  | rm => cases begun

variable {k l : Crew Machine Access Access.Answer Stop Output} {past : List (Crew Machine Access Access.Answer Stop Output × Nat)}

end AsePlusPlus
