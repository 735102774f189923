import AsePlusPlus.Readers

namespace AsePlusPlus
open Words Program Resumption

namespace Stepwise
open Task

-- The functions that make and remove files, and the commands on top of them, such
-- that each of their accesses may be the last.
def createInode (type : FileType) : S Word := do
  let inode : Inode := ⟨type.code,0,zeros 32 124,0,0⟩
  let inumber ← newBloc
  if inumber = 0 then
    return blocNull
  else
    writeInode inumber inode
    return inumber

def createIfile (type : FileType) : S Word := do
  let inumber ← createInode type
  ensure (inumber ≠ 0) .exit
  return inumber

def newEntryLoop : Nat → FileDesc → Vector Byte 20 → Word → S (Word × FileDesc)
  | 0,_,_,_ => .halt .loop
  | fuel+1,fd,entry,ientry => do
    let (status,entry,fd) ← readIfile fd entry
    if status = readEof then
      return (ientry,fd)
    else if (Entry.decode entry).entInumber = 0 then
      return (ientry,fd)
    else
      newEntryLoop fuel fd entry (ientry+1)

def newEntry (fd : FileDesc) : S (Word × FileDesc) := do
  let frame ← frame
  let fd ← seek2Ifile fd 0
  newEntryLoop scanFuel fd frame.entry 0

def storeEntry (fd : FileDesc) (buf : Vector Byte 20) : S Word := do
  let (nbyte,fd) ← writeIfile fd buf
  let _ ← closeIfile fd
  return if nbyte = 20 then returnSuccess else returnFailure

def addEntry (idir inumber : Word) (basename : List Byte) : S Word := do
  let inode ← readInode idir
  if inode.type ≠ FileType.directory.code then
    return returnFailure
  else
    let (_,fd) ← openIfile idir
    let (ientry,fd) ← newEntry fd
    let fd ← seek2Ifile fd (ientry*20)
    storeEntry fd (Entry.encode ⟨inumber,entryName basename⟩)

def emptyEntry (fd : FileDesc) : S Word := do
  let (status,fd) ← writeIfile fd (zeros 8 20)
  let _ ← closeIfile fd
  return status

def delEntry (idir : Word) (basename : List Byte) : S Word := do
  let inode ← readInode idir
  if inode.type ≠ FileType.directory.code then
    return returnFailure
  else
    let (_,fd) ← openIfile idir
    let (status,fd) ← findEntry fd basename
    if status = returnFailure then
      let _ ← closeIfile fd
      return returnFailure
    else
      let fd ← seek2Ifile fd (status*20)
      emptyEntry fd

def dinumberOfPath (pathname : List Byte) : S (Word × List Byte) := do
  if pathname.head? ≠ some slash then
    return (0,[])
  else
    let idirname ← inumberOfPath (dirname pathname)
    if idirname = 0 then
      return (0,lastBasename pathname)
    else
      let inode ← readInode idirname
      return (if inode.type ≠ FileType.directory.code then 0 else idirname,lastBasename pathname)

def createFile (pathname : List Byte) (type : FileType) : S Word := do
  let (idir,basename) ← dinumberOfPath pathname
  if idir = 0 then
    return returnFailure
  else
    let inumber ← inumberOfPath pathname
    if inumber ≠ 0 then
      return returnFailure
    else
      let inumber ← createIfile type
      if inumber = 0 then
        return returnFailure
      else
        let status ← addEntry idir inumber basename
        if status ≠ returnSuccess then
          return returnFailure
        else
          return inumber

def deleteFile (pathname : List Byte) : S Word := do
  let (idir,basename) ← dinumberOfPath pathname
  if idir = 0 then
    return returnFailure
  else
    delEntry idir basename

def textLoop : List Byte → FileDesc → S FileDesc
  | [],fd => return fd
  | c :: rest,fd => do
    let (_,fd) ← writecIfile fd c
    textLoop rest fd

def fillFile (loop : FileDesc → S FileDesc) (inumber : Word) : S Word := do
  let (status,fd) ← openIfile inumber
  if status ≠ returnSuccess then
    return 1
  else
    let fd ← loop fd
    let _ ← closeIfile fd
    return 0

def editFile (text target : List Byte) : S Word := do
  let inumber ← createFile target .file
  if inumber = returnFailure then
    return 1
  else
    fillFile (textLoop text) inumber

def dotLoop : Nat → FileDesc → S FileDesc
  | 0,fd => return fd
  | count+1,fd => do
    let (_,fd) ← writecIfile fd dot
    dotLoop count fd

def rowLoop : Nat → Nat → FileDesc → S FileDesc
  | 0,_,fd => return fd
  | count+1,i,fd => do
    let fd ← dotLoop i fd
    let (_,fd) ← writecIfile fd newline
    rowLoop count (i+1) fd

def computeFile (max : Int) (target : List Byte) : S Word := do
  let inumber ← createFile target .file
  fillFile (rowLoop (max+1).toNat 0) inumber

def copyLoop : Nat → FileDesc → FileDesc → S (FileDesc × FileDesc)
  | 0,_,_ => .halt .loop
  | reads+1,sfd,dfd => do
    let (c,sfd) ← readcIfile sfd
    if c = readEof then
      return (sfd,dfd)
    else
      let (_,dfd) ← writecIfile dfd (c.setWidth 8)
      copyLoop reads sfd dfd

def endCopy (sfd dfd : FileDesc) : S Word := do
  let _ ← closeIfile dfd
  let _ ← closeIfile sfd
  return 0

def copyInto (reads : Nat) (source : List Byte) (inumber : Word) : S Word := do
  let (status,dfd) ← openIfile inumber
  if status ≠ returnSuccess then
    return 1
  else
    let frame ← frame
    let (status,sfd) ← openFile frame.desc source
    if status ≠ returnSuccess then
      return 1
    else
      let (sfd,dfd) ← copyLoop reads sfd dfd
      endCopy sfd dfd

def copyFile (reads : Nat) (source dest : List Byte) : S Word := do
  let inumber ← createFile dest .file
  if inumber = returnFailure then
    return 1
  else
    copyInto reads source inumber

theorem textLoop_append (text rest : List Byte) (fd : FileDesc) : textLoop (text ++ rest) fd = (do
    let fd ← textLoop text fd
    textLoop rest fd) := by
  induction text generalizing fd with
  | nil => rfl
  | cons c text ih =>
      rw [List.cons_append,textLoop,textLoop,Task.seq_assoc]
      exact congrArg (writecIfile fd c >>= ·) (funext fun r => ih r.2)

theorem dotLoop_eq (count : Nat) (fd : FileDesc) : dotLoop count fd = textLoop (List.replicate count dot) fd := by
  induction count generalizing fd with
  | zero => rfl
  | succ count ih =>
      rw [dotLoop,List.replicate_succ,textLoop]
      exact congrArg (writecIfile fd dot >>= ·) (funext fun r => ih r.2)

-- The rows are one text here, too.
theorem rowLoop_eq (count i : Nat) (fd : FileDesc) : rowLoop count i fd = textLoop (rows i count) fd := by
  induction count generalizing i fd with
  | zero => rfl
  | succ count ih =>
      rw [rowLoop,rows,List.range'_succ,List.flatMap_cons,row,List.append_assoc,textLoop_append,dotLoop_eq]
      refine congrArg (textLoop (List.replicate i dot) fd >>= ·) (funext fun fd => ?_)
      rw [List.singleton_append,textLoop]
      exact congrArg (writecIfile fd newline >>= ·) (funext fun r => ih (i+1) r.2)

section whole
variable (fd : FileDesc)

theorem run_createIfile (type : FileType) : (createIfile type).run Access.perform = AsePlusPlus.createIfile type := by
  simp only [createIfile,createInode,run_bind,run_newBloc,run_writeInode,run_ite,run_pure,run_ensure]
  rfl

theorem run_newEntryLoop (fuel : Nat) (entry : Vector Byte 20) (ientry : Word) :
    (newEntryLoop fuel fd entry ientry).run Access.perform = AsePlusPlus.newEntryLoop fuel fd entry ientry := by
  induction fuel generalizing fd entry ientry with
  | zero => rfl
  | succ fuel ih =>
      simp only [newEntryLoop,run_bind,run_readIfile,run_ite,run_pure,ih]
      rfl

theorem run_newEntry : (newEntry fd).run Access.perform = AsePlusPlus.newEntry fd := by
  simp only [newEntry,run_bind,run_frame,seek2Ifile,run_seekIfile,run_newEntryLoop]
  rfl

theorem run_storeEntry (buf : Vector Byte 20) : (storeEntry fd buf).run Access.perform = AsePlusPlus.storeEntry fd buf := by
  simp only [storeEntry,run_bind,run_writeIfile,run_closeIfile,run_pure]
  rfl

theorem run_addEntry (idir inumber : Word) (basename : List Byte) :
    (addEntry idir inumber basename).run Access.perform = AsePlusPlus.addEntry idir inumber basename := by
  simp only [addEntry,AsePlusPlus.addEntry,AsePlusPlus.storeEntry,AsePlusPlus.seek2Ifile,run_bind,run_readInode,run_openIfile,run_newEntry,
    seek2Ifile,run_seekIfile,run_storeEntry,run_ite,run_pure]

theorem run_delEntry (idir : Word) (basename : List Byte) :
    (delEntry idir basename).run Access.perform = AsePlusPlus.delEntry idir basename := by
  simp only [delEntry,emptyEntry,run_bind,run_readInode,run_openIfile,run_findEntry,seek2Ifile,run_seekIfile,run_writeIfile,run_closeIfile,
    run_ite,run_pure]
  rfl

theorem run_dinumberOfPath (pathname : List Byte) : (dinumberOfPath pathname).run Access.perform = AsePlusPlus.dinumberOfPath pathname := by
  simp only [dinumberOfPath,run_bind,run_inumberOfPath,run_readInode,run_ite,run_pure]
  rfl

theorem run_createFile (pathname : List Byte) (type : FileType) :
    (createFile pathname type).run Access.perform = AsePlusPlus.createFile pathname type := by
  simp only [createFile,run_bind,run_dinumberOfPath,run_inumberOfPath,run_createIfile,run_addEntry,run_ite,run_pure]
  rfl

theorem run_deleteFile (pathname : List Byte) : (deleteFile pathname).run Access.perform = AsePlusPlus.deleteFile pathname := by
  simp only [deleteFile,run_bind,run_dinumberOfPath,run_delEntry,run_ite,run_pure]
  rfl

theorem run_textLoop (text : List Byte) : (textLoop text fd).run Access.perform = AsePlusPlus.textLoop text fd := by
  induction text generalizing fd with
  | nil => rfl
  | cons c rest ih =>
      simp only [textLoop,run_bind,run_writecIfile,ih]
      rfl

theorem run_dotLoop (count : Nat) : (dotLoop count fd).run Access.perform = AsePlusPlus.dotLoop count fd := by
  induction count generalizing fd with
  | zero => rfl
  | succ count ih =>
      simp only [dotLoop,run_bind,run_writecIfile,ih]
      rfl

theorem run_rowLoop (count i : Nat) : (rowLoop count i fd).run Access.perform = AsePlusPlus.rowLoop count i fd := by
  induction count generalizing fd i with
  | zero => rfl
  | succ count ih =>
      simp only [rowLoop,run_bind,run_dotLoop,run_writecIfile,ih]
      rfl

theorem run_fillFile (loop : FileDesc → S FileDesc) (inumber : Word) : (fillFile loop inumber).run Access.perform =
    AsePlusPlus.fillFile (fun fd => (loop fd).run Access.perform) inumber := by
  simp only [fillFile,run_bind,run_openIfile,run_closeIfile,run_ite,run_pure]
  rfl

theorem run_editFile (text target : List Byte) : (editFile text target).run Access.perform = AsePlusPlus.editFile text target := by
  simp only [editFile,run_bind,run_createFile,run_fillFile,run_textLoop,run_ite,run_pure]
  rfl

theorem run_computeFile (max : Int) (target : List Byte) : (computeFile max target).run Access.perform = AsePlusPlus.computeFile max target := by
  simp only [computeFile,run_bind,run_createFile,run_fillFile,run_rowLoop]
  rfl

theorem run_copyLoop (reads : Nat) (sfd dfd : FileDesc) : (copyLoop reads sfd dfd).run Access.perform = AsePlusPlus.copyLoop reads sfd dfd := by
  induction reads generalizing sfd dfd with
  | zero => rfl
  | succ reads ih =>
      simp only [copyLoop,run_bind,run_readcIfile,run_writecIfile,run_ite,run_pure,ih]
      rfl

theorem run_copyFile (reads : Nat) (source dest : List Byte) :
    (copyFile reads source dest).run Access.perform = AsePlusPlus.copyFile reads source dest := by
  simp only [copyFile,copyInto,endCopy,run_bind,run_createFile,run_openIfile,run_frame,run_openFile,run_copyLoop,run_closeIfile,run_ite,
    run_pure]
  rfl

end whole

-- Where do_cd goes, and its accesses: the working directory is set without one.
def doCd (cwd arguments : List Byte) : Option (List Byte × S Word) := do
  let target ← canonicalPath cwd arguments
  let target ← closed target
  return (target,inumberOfPath target)

def doEd (cwd arguments text : List Byte) : Option (S Word) := (canonicalPath cwd arguments).map (editFile text)

def doCompute (cwd : List Byte) (max : Int) : Option (List Byte) → Option (S Word)
  | none => some (return 0)
  | some path => (canonicalPath cwd path).map (computeFile max)

def doCp (reads : Nat) (m : Machine) (words : List (List Byte)) : Option (S Word) :=
  if words = [] then some (return 1)
  else (cpPaths m words).map fun (source,dest) => copyFile reads source dest

theorem run_doCd (cwd arguments : List Byte) : (doCd cwd arguments).map (fun command => do
    let status ← command.2.run Access.perform
    if status = 0 then
      return status
    else do
      Program.modify fun m => {m with cwd := command.1}
      return status) = AsePlusPlus.doCd cwd arguments := by
  unfold doCd AsePlusPlus.doCd
  cases canonicalPath cwd arguments with
  | none => rfl
  | some path =>
      show ((closed path).bind _).map _ = (closed path).bind _
      cases closed path with
      | none => rfl
      | some target =>
          refine congrArg some ?_
          dsimp only
          rw [run_inumberOfPath]

theorem run_doEd (cwd arguments text : List Byte) :
    (doEd cwd arguments text).map (Task.run Access.perform) = AsePlusPlus.doEd cwd arguments text := by
  unfold doEd AsePlusPlus.doEd
  rw [Option.map_map]
  exact congrArg (Option.map · _) (funext (run_editFile text))

theorem run_doCompute (cwd : List Byte) (max : Int) (path : Option (List Byte)) :
    (doCompute cwd max path).map (Task.run Access.perform) = AsePlusPlus.doCompute cwd max path := by
  cases path with
  | none => rfl
  | some path =>
      rw [doCompute,AsePlusPlus.doCompute,Option.map_map]
      exact congrArg (Option.map · _) (funext (run_computeFile max))

theorem run_doCp (reads : Nat) (m : Machine) (words : List (List Byte)) :
    (doCp reads m words).map (Task.run Access.perform) = AsePlusPlus.doCp reads m words := by
  unfold doCp AsePlusPlus.doCp
  split
  · rfl
  · rw [Option.map_map]
    exact congrArg (Option.map · _) (funext fun paths => run_copyFile reads paths.1 paths.2)

end Stepwise

-- The commands of the shell, access by access.
def Builtin.task (reads : Nat) (m : Machine) : Builtin → Option (S Output)
  | .cat arguments => (Builtin.cat arguments).glance reads m
  | .cd arguments => (Stepwise.doCd m.cwd arguments).map fun command => do
    let status ← command.2
    return .told (status = 0)
  | .compute max path => (Stepwise.doCompute m.cwd max path).map fun command => do
    let r ← command
    return .told (r ≠ 0)
  | .cp words => (Stepwise.doCp reads m words).map fun command => do
    let r ← command
    return .told (r ≠ 0)
  | .ed arguments text => (Stepwise.doEd m.cwd arguments text).map fun command => do
    let r ← command
    return .told (r ≠ 0)
  | .ls arguments => (Builtin.ls arguments).glance reads m
  | .mkdir arguments => (canonicalPath m.cwd arguments).map fun target => do
    let r ← Stepwise.createFile target .directory
    return .told (r = returnFailure)
  | .rm arguments => (canonicalPath m.cwd arguments).map fun target => do
    let r ← Stepwise.deleteFile target
    return .told (r = returnFailure)

variable {c : Builtin} {s : Machine} {task : S Output} {reads : Nat}

theorem task_run (begun : c.task reads s = some task) : c.run reads s = some (task.run Access.perform) ∨ ∃ arguments, c = .cd arguments := by
  cases c with
  | cat arguments => exact .inl (glance_run begun)
  | cd arguments => exact .inr ⟨arguments,rfl⟩
  | compute max path =>
      obtain ⟨command,first,rfl⟩ := Option.map_eq_some_iff.mp begun
      refine .inl ?_
      rw [Builtin.run,← Stepwise.run_doCompute,first,Task.run_bind]
      rfl
  | cp words =>
      obtain ⟨command,first,rfl⟩ := Option.map_eq_some_iff.mp begun
      refine .inl ?_
      rw [Builtin.run,← Stepwise.run_doCp,first,Task.run_bind]
      rfl
  | ed arguments text =>
      obtain ⟨command,first,rfl⟩ := Option.map_eq_some_iff.mp begun
      refine .inl ?_
      rw [Builtin.run,← Stepwise.run_doEd,first,Task.run_bind]
      rfl
  | ls arguments => exact .inl (glance_run begun)
  | mkdir arguments =>
      obtain ⟨target,canonical,rfl⟩ := Option.map_eq_some_iff.mp begun
      refine .inl ?_
      rw [Builtin.run,canonical,Task.run_bind,Stepwise.run_createFile]
      rfl
  | rm arguments =>
      obtain ⟨target,canonical,rfl⟩ := Option.map_eq_some_iff.mp begun
      refine .inl ?_
      rw [Builtin.run,canonical,Task.run_bind,Stepwise.run_deleteFile]
      rfl

end AsePlusPlus
