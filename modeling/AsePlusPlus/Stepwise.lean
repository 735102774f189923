import AsePlusPlus.Lib.Resumption
import AsePlusPlus.File

namespace AsePlusPlus
open Words Program Resumption

-- What a function of the file system asks of the globals and of the drive.
inductive Access where
  | volume
  | super
  | frame
  | mbr
  | setVolume (vol : Word)
  | setSuper (f : Super → Super)
  | read (vol nbloc : Word) (size : Nat)
  | writeBloc (vol nbloc : Word) (buffer : Sector)
  | writeNbloc (vol nbloc : Word) (size : Nat) (buffer : Vector Byte size)

def Access.Answer : Access → Type
  | .volume => Word
  | .super => Super
  | .frame => Frame
  | .read _ _ size => Vector Byte size
  | _ => Unit

-- read_bloc is read_nbloc of a whole sector.
def Access.perform : (o : Access) → M o.Answer
  | .volume => current
  | .super => fun m => (.ok m.super,m)
  | .frame => fun m => (.ok m.frame,m)
  | .mbr => readMbr
  | .setVolume vol => modify fun m => {m with currentVolume := vol}
  | .setSuper f => modify fun m => {m with super := f m.super}
  | .read vol nbloc size => AsePlusPlus.readNbloc vol nbloc size
  | .writeBloc vol nbloc buffer => AsePlusPlus.writeBloc vol nbloc buffer
  | .writeNbloc vol nbloc _ buffer => AsePlusPlus.writeNbloc vol nbloc buffer

abbrev S (α : Type) := Task Access Access.Answer Stop α

-- The functions of the file system again, such that a context may be made to
-- wait at each of their accesses.
namespace Stepwise
open Task

def access (o : Access) : S o.Answer := request o

def current : S Word := access .volume
def super : S Super := access .super
def frame : S Frame := access .frame
def mbr : S Unit := access .mbr
def setVolume (vol : Word) : S Unit := access (.setVolume vol)
def setSuper (f : Super → Super) : S Unit := access (.setSuper f)
def readBloc (vol nbloc : Word) : S Sector := access (.read vol nbloc 512)
def readNbloc (vol nbloc : Word) (size : Nat) : S (Vector Byte size) := access (.read vol nbloc size)
def writeBloc (vol nbloc : Word) (buffer : Sector) : S Unit := access (.writeBloc vol nbloc buffer)
def writeNbloc (vol nbloc : Word) (buffer : Vector Byte size) : S Unit := access (.writeNbloc vol nbloc size buffer)

def loadSuper (vol : Word) : S Word := do
  setVolume vol
  let buf ← readBloc vol 0
  setSuper fun _ => Super.decode buf
  let super ← super
  ensure (super.magic = superMagic) .exit
  return 0

def mountVolume (volume : Word) : S Unit := do
  mbr
  setVolume volume
  let status ← loadSuper (← current)
  ensure (status = 0) .exit

def saveSuper : S Unit := do
  let super ← super
  ensure (super.magic = superMagic) .abort
  writeNbloc (← current) 0 super.encode

def newBloc : S Word := do
  let super ← super
  if super.premierLibre = blocNull then
    return 0
  else
    let premierLibre := super.premierLibre
    let buffer ← readNbloc (← current) premierLibre 8
    let freeBloc := FreeBloc.decode buffer
    ensure (freeBloc.magic = blocMagic) .abort
    if freeBloc.nextFree ≠ blocNull then
      setSuper fun super => {super with premierLibre := freeBloc.nextFree}
    else
      setSuper fun super => {super with premierLibre := blocNull}
    setSuper fun super => {super with nbBlocLibre := super.nbBlocLibre-1}
    saveSuper
    return premierLibre

def readInode (inumber : Word) : S Inode := do
  let bloc ← readBloc (← current) inumber
  return Inode.decode bloc

def writeInode (inumber : Word) (inode : Inode) : S Unit := do
  writeBloc (← current) inumber inode.encode

def initializeBloc (adress : Word) : S Word := do
  let _ ← readBloc (← current) adress
  writeBloc (← current) adress (zeros 8 512)
  return adress

def blocOrAllocate (pointer : Word) (link : Word → S Unit) : S Word := do
  if pointer = 0 then
    let bloc ← initializeBloc (← newBloc)
    link bloc
    return bloc
  else
    return pointer

def directBloc (inumber : Word) (inode : Inode) (blockIndex : Word) (doAllocate : Bool) : S Word := do
  let pointer := cell inode.blocsDirects blockIndex.toNat
  if pointer = 0 ∧ doAllocate = false then
    return blocNull
  else
    blocOrAllocate pointer fun bloc =>
      writeInode inumber {inode with blocsDirects := put inode.blocsDirects blockIndex.toNat bloc}

def indirectBloc (inode : Inode) (blockIndex : Word) (doAllocate : Bool) : S Word := do
  let indirect := Table.decode (← readBloc (← current) inode.blocsIndirect)
  let pointer := cell indirect blockIndex.toNat
  if pointer = 0 ∧ doAllocate = false then
    return blocNull
  else
    blocOrAllocate pointer fun bloc => do
      writeBloc (← current) inode.blocsIndirect (Table.encode (put indirect blockIndex.toNat bloc))

def doubleIndirectBloc (inumber : Word) (inode : Inode) (blockIndex : Word) (doAllocate : Bool) : S Word := do
  if inode.blocsDoubleIndirect = 0 ∧ doAllocate = false then
    return blocNull
  else
    let double ← blocOrAllocate inode.blocsDoubleIndirect fun bloc =>
      writeInode inumber {inode with blocsDoubleIndirect := bloc}
    let dbIndirectIndex := blockIndex / (512/4) - 4 + 4
    let indirectIndex := blockIndex % (512/4) - 4 + 4
    let dbIndirect := Table.decode (← readBloc (← current) double)
    let pointer := cell dbIndirect dbIndirectIndex.toNat
    if pointer = 0 ∧ doAllocate = false then
      return blocNull
    else
      let index ← blocOrAllocate pointer fun bloc => do
        writeBloc (← current) double (Table.encode (put dbIndirect dbIndirectIndex.toNat bloc))
      let indirect := Table.decode (← readBloc (← current) index)
      let pointer := cell indirect indirectIndex.toNat
      if pointer = 0 ∧ doAllocate = false then
        return blocNull
      else
        blocOrAllocate pointer fun bloc => do
          writeBloc (← current) index (Table.encode (put indirect indirectIndex.toNat bloc))

def vblocOfFbloc (inumber fbloc : Word) (doAllocate : Bool) : S Word := do
  let inode ← readInode inumber
  if fbloc < (512/4) - 4 then
    directBloc inumber inode fbloc doAllocate
  else if fbloc - ((512/4) - 4) < (512/4) - 4 + 4 then
    indirectBloc inode (fbloc - ((512/4) - 4)) doAllocate
  else if fbloc - ((512/4) - 4) - ((512/4) - 4 + 4) < (512/4) - 4 + 4 * (512/4) - 4 + 4 then
    doubleIndirectBloc inumber inode (fbloc - ((512/4) - 4) - ((512/4) - 4 + 4)) doAllocate
  else
    return -1

def loadBuffer (bloc : Word) : S Sector := do
  if bloc = 0 then
    return zeros 8 512
  else
    readBloc (← current) bloc

def openIfile (inumber : Word) : S (Word × FileDesc) := do
  let inode ← readInode inumber
  let firstBloc ← vblocOfFbloc inumber 0 false
  let buf ← loadBuffer firstBloc
  return (returnSuccess,⟨inumber,inode.size,0,buf,false⟩)

def flushIfile (fd : FileDesc) : S FileDesc := do
  if fd.fdsDirty then
    let fbloc := blocOfPos fd.fdsPos
    let vbloc ← vblocOfFbloc fd.fdsInumber fbloc true
    writeBloc (← current) vbloc fd.fdsBuf
    return {fd with fdsDirty := false}
  else
    return fd

def closeIfile (fd : FileDesc) : S FileDesc := do
  let fd ← flushIfile fd
  let inode ← readInode fd.fdsInumber
  writeInode fd.fdsInumber {inode with size := fd.fdsSize}
  return fd

def seekIfile (fd : FileDesc) (offset : Word) : S FileDesc := do
  let oldPos := fd.fdsPos
  let fd := {fd with fdsPos := fd.fdsPos+offset}
  if blocOfPos fd.fdsPos ≠ blocOfPos oldPos then
    let fd ← flushIfile fd
    let vbloc ← vblocOfFbloc fd.fdsInumber (blocOfPos fd.fdsPos) false
    let buf ← loadBuffer vbloc
    return {fd with fdsBuf := buf}
  else
    return fd

def seek2Ifile (fd : FileDesc) (offset : Word) : S FileDesc := seekIfile fd (offset - fd.fdsPos)

def readcIfile (fd : FileDesc) : S (Word × FileDesc) := do
  if fd.fdsSize < fd.fdsPos then
    return (readEof,fd)
  else
    let c := (cell fd.fdsBuf (iblocOfPos fd.fdsPos)).signExtend 32
    let fd ← seekIfile fd 1
    return (c,fd)

def writecStore (fd : FileDesc) : S (Word × FileDesc) := do
  if iblocOfPos fd.fdsPos = 512-1 then
    let ibloc ← vblocOfFbloc fd.fdsInumber (blocOfPos fd.fdsPos) false
    writeBloc (← current) ibloc fd.fdsBuf
    let ibloc ← vblocOfFbloc fd.fdsInumber (blocOfPos (fd.fdsPos+1)) false
    let buf ← loadBuffer ibloc
    return writecAdvance {fd with fdsBuf := buf,fdsDirty := false}
  else
    return writecAdvance fd

def writecIfile (fd : FileDesc) (c : Byte) : S (Word × FileDesc) := do
  let fd := {fd with fdsBuf := put fd.fdsBuf (iblocOfPos fd.fdsPos) c}
  if fd.fdsDirty = false then
    let ibloc ← vblocOfFbloc fd.fdsInumber (blocOfPos fd.fdsPos) true
    if ibloc = 0 then
      return (returnFailure,fd)
    else
      writecStore {fd with fdsDirty := true}
  else
    writecStore fd

def readChars : Nat → FileDesc → S (List Byte × FileDesc)
  | 0,fd => return ([],fd)
  | count+1,fd => do
    let (c,fd) ← readcIfile fd
    if c = readEof then
      return ([],fd)
    else
      let (rest,fd) ← readChars count fd
      return (c.setWidth 8 :: rest,fd)

def readIfile (fd : FileDesc) (buf : Vector Byte nbyte) : S (Word × Vector Byte nbyte × FileDesc) := do
  if fd.fdsSize ≤ fd.fdsPos then
    return (readEof,buf,fd)
  else
    let (chars,fd) ← readChars nbyte fd
    return (BitVec.ofNat 32 chars.length,build nbyte fun i => chars[i]?.getD (cell buf i),fd)

def writeChars : List Byte → FileDesc → S (Bool × FileDesc)
  | [],fd => return (true,fd)
  | c :: rest,fd => do
    let (status,fd) ← writecIfile fd c
    if status = returnFailure then
      return (false,fd)
    else
      writeChars rest fd

def writeIfile (fd : FileDesc) (buf : Vector Byte nbyte) : S (Word × FileDesc) := do
  let (written,fd) ← writeChars buf.toList fd
  return (if written then BitVec.ofNat 32 nbyte else returnFailure,fd)

def findEntryLoop (basename : List Byte) : Nat → FileDesc → Vector Byte 20 → Word → S (Word × FileDesc)
  | 0,_,_,_ => .halt .loop
  | fuel+1,fd,entry,ientry => do
    let (status,entry,fd) ← readIfile fd entry
    if status = readEof then
      return (returnFailure,fd)
    else if (Entry.decode entry).entInumber ≠ 0 ∧ cstring (Entry.decode entry).entBasename = basename then
      return (ientry,fd)
    else
      findEntryLoop basename fuel fd entry (ientry+1)

def findEntry (fd : FileDesc) (basename : List Byte) : S (Word × FileDesc) := do
  let frame ← frame
  let fd ← seek2Ifile fd 0
  findEntryLoop basename scanFuel fd frame.entry 0

def inumberOfBasename (idir : Word) (basename : List Byte) : S Word := do
  let inode ← readInode idir
  if inode.type ≠ FileType.directory.code then
    return 0
  else
    let (_,fd) ← openIfile idir
    let (status,fd) ← findEntry fd basename
    if status = returnFailure then
      return 0
    else
      let fd ← seek2Ifile fd (status*20)
      let frame ← frame
      let (_,entry,fd) ← readIfile fd frame.entry
      let _ ← closeIfile fd
      return (Entry.decode entry).entInumber

def pathLoop (icurrent : Word) (pathname : List Byte) : S Word :=
  match pathname with
  | [] => return icurrent
  | c :: rest =>
    if c = slash then
      pathLoop icurrent rest
    else do
      let icurrent ← inumberOfBasename icurrent (((c :: rest).takeWhile (· ≠ slash)).take 16)
      if icurrent = 0 then
        return 0
      else
        pathLoop icurrent ((c :: rest).dropWhile (· ≠ slash)).tail
  termination_by pathname.length
  decreasing_by
    · simp
    · have dropped := (List.dropWhile_sublist (p := (· ≠ slash)) (l := c :: rest)).length_le
      simp only [List.length_tail,List.length_cons] at dropped ⊢
      omega

def inumberOfPath (pathname : List Byte) : S Word := do
  if pathname.head? ≠ some slash then
    return 0
  else
    let super ← super
    pathLoop super.rootInumber pathname

def openFile (fd : FileDesc) (pathname : List Byte) : S (Word × FileDesc) := do
  let inumber ← inumberOfPath pathname
  if inumber = 0 then
    return (returnFailure,fd)
  else
    openIfile inumber

-- Without a stop between them they are the functions they repeat.
section whole
variable (inumber fbloc : Word) (doAllocate : Bool) (fd : FileDesc)

theorem run_current : current.run Access.perform = AsePlusPlus.current := run_request _ _

theorem run_super : super.run Access.perform = fun m => (.ok m.super,m) := run_request _ _

theorem run_frame : frame.run Access.perform = fun m => (.ok m.frame,m) := run_request _ _

theorem run_mbr : mbr.run Access.perform = readMbr := run_request _ _

theorem run_setVolume (vol : Word) : (setVolume vol).run Access.perform = Program.modify fun m : Machine => {m with currentVolume := vol} :=
  run_request _ _

theorem run_setSuper (f : Super → Super) : (setSuper f).run Access.perform = Program.modify fun m : Machine => {m with super := f m.super} :=
  run_request _ _

theorem run_readBloc (vol nbloc : Word) : (readBloc vol nbloc).run Access.perform = AsePlusPlus.readBloc vol nbloc := run_request _ _

theorem run_readNbloc (vol nbloc : Word) (size : Nat) :
    (readNbloc vol nbloc size).run Access.perform = AsePlusPlus.readNbloc vol nbloc size := run_request _ _

theorem run_writeBloc (vol nbloc : Word) (buffer : Sector) :
    (writeBloc vol nbloc buffer).run Access.perform = AsePlusPlus.writeBloc vol nbloc buffer := run_request _ _

theorem run_writeNbloc {size : Nat} (vol nbloc : Word) (buffer : Vector Byte size) :
    (writeNbloc vol nbloc buffer).run Access.perform = AsePlusPlus.writeNbloc vol nbloc buffer := run_request _ _

theorem run_saveSuper : saveSuper.run Access.perform = AsePlusPlus.saveSuper := by
  simp only [saveSuper,run_bind,run_super,run_current,run_writeNbloc,run_ensure]
  rfl

theorem run_newBloc : newBloc.run Access.perform = AsePlusPlus.newBloc := by
  simp only [newBloc,run_bind,run_super,run_current,run_setSuper,run_readNbloc,run_ensure,run_ite,run_pure,run_saveSuper]
  rfl

theorem run_readInode : (readInode inumber).run Access.perform = AsePlusPlus.readInode inumber := by
  simp only [readInode,run_bind,run_current,run_readBloc,run_pure]
  rfl

theorem run_writeInode (inode : Inode) : (writeInode inumber inode).run Access.perform = AsePlusPlus.writeInode inumber inode := by
  simp only [writeInode,run_bind,run_current,run_writeBloc]
  rfl

theorem run_initializeBloc : (initializeBloc inumber).run Access.perform = AsePlusPlus.initializeBloc inumber := by
  simp only [initializeBloc,run_bind,run_current,run_readBloc,run_writeBloc,run_pure]
  rfl

theorem run_blocOrAllocate (pointer : Word) (link : Word → S Unit) : (blocOrAllocate pointer link).run Access.perform =
    AsePlusPlus.blocOrAllocate pointer fun bloc => (link bloc).run Access.perform := by
  simp only [blocOrAllocate,run_bind,run_ite,run_pure,run_newBloc,run_initializeBloc]
  rfl

theorem run_directBloc (inode : Inode) : (directBloc inumber inode fbloc doAllocate).run Access.perform =
    AsePlusPlus.directBloc inumber inode fbloc doAllocate := by
  simp only [directBloc,run_ite,run_pure,run_blocOrAllocate,run_writeInode]
  rfl

theorem run_indirectBloc (inode : Inode) : (indirectBloc inode fbloc doAllocate).run Access.perform =
    AsePlusPlus.indirectBloc inode fbloc doAllocate := by
  simp only [indirectBloc,run_bind,run_current,run_readBloc,run_writeBloc,run_ite,run_pure,run_blocOrAllocate]
  rfl

theorem run_doubleIndirectBloc (inode : Inode) : (doubleIndirectBloc inumber inode fbloc doAllocate).run Access.perform =
    AsePlusPlus.doubleIndirectBloc inumber inode fbloc doAllocate := by
  simp only [doubleIndirectBloc,run_bind,run_current,run_readBloc,run_writeBloc,run_writeInode,run_ite,run_pure,run_blocOrAllocate]
  rfl

theorem run_vblocOfFbloc : (vblocOfFbloc inumber fbloc doAllocate).run Access.perform =
    AsePlusPlus.vblocOfFbloc inumber fbloc doAllocate := by
  simp only [vblocOfFbloc,run_bind,run_readInode,run_ite,run_pure,run_directBloc,run_indirectBloc,run_doubleIndirectBloc]
  rfl

theorem run_loadBuffer : (loadBuffer fbloc).run Access.perform = AsePlusPlus.loadBuffer fbloc := by
  simp only [loadBuffer,run_bind,run_current,run_readBloc,run_ite,run_pure]
  rfl

theorem run_openIfile : (openIfile inumber).run Access.perform = AsePlusPlus.openIfile inumber := by
  simp only [openIfile,run_bind,run_readInode,run_vblocOfFbloc,run_loadBuffer,run_pure]
  rfl

theorem run_flushIfile : (flushIfile fd).run Access.perform = AsePlusPlus.flushIfile fd := by
  simp only [flushIfile,run_bind,run_current,run_vblocOfFbloc,run_writeBloc,run_ite,run_pure]
  rfl

theorem run_closeIfile : (closeIfile fd).run Access.perform = AsePlusPlus.closeIfile fd := by
  simp only [closeIfile,run_bind,run_flushIfile,run_readInode,run_writeInode,run_pure]
  rfl

theorem run_seekIfile (offset : Word) : (seekIfile fd offset).run Access.perform = AsePlusPlus.seekIfile fd offset := by
  simp only [seekIfile,run_bind,run_flushIfile,run_vblocOfFbloc,run_loadBuffer,run_ite,run_pure]
  rfl

theorem run_readcIfile : (readcIfile fd).run Access.perform = AsePlusPlus.readcIfile fd := by
  simp only [readcIfile,run_bind,run_seekIfile,run_ite,run_pure]
  rfl

theorem run_writecStore : (writecStore fd).run Access.perform = AsePlusPlus.writecStore fd := by
  simp only [writecStore,run_bind,run_current,run_vblocOfFbloc,run_writeBloc,run_loadBuffer,run_ite,run_pure]
  rfl

theorem run_writecIfile (c : Byte) : (writecIfile fd c).run Access.perform = AsePlusPlus.writecIfile fd c := by
  simp only [writecIfile,run_bind,run_vblocOfFbloc,run_writecStore,run_ite,run_pure]
  rfl

theorem run_readChars (count : Nat) : (readChars count fd).run Access.perform = AsePlusPlus.readChars count fd := by
  induction count generalizing fd with
  | zero => rfl
  | succ count ih =>
      simp only [readChars,run_bind,run_readcIfile,run_ite,run_pure,ih]
      rfl

theorem run_readIfile {nbyte : Nat} (buf : Vector Byte nbyte) : (readIfile fd buf).run Access.perform = AsePlusPlus.readIfile fd buf := by
  simp only [readIfile,run_bind,run_readChars,run_ite,run_pure]
  rfl

theorem run_writeChars (chars : List Byte) : (writeChars chars fd).run Access.perform = AsePlusPlus.writeChars chars fd := by
  induction chars generalizing fd with
  | nil => rfl
  | cons c rest ih =>
      simp only [writeChars,run_bind,run_writecIfile,run_ite,run_pure,ih]
      rfl

theorem run_writeIfile {nbyte : Nat} (buf : Vector Byte nbyte) : (writeIfile fd buf).run Access.perform = AsePlusPlus.writeIfile fd buf := by
  simp only [writeIfile,run_bind,run_writeChars,run_pure]
  rfl

theorem run_findEntryLoop (basename : List Byte) (fuel : Nat) (entry : Vector Byte 20) (ientry : Word) :
    (findEntryLoop basename fuel fd entry ientry).run Access.perform = AsePlusPlus.findEntryLoop basename fuel fd entry ientry := by
  induction fuel generalizing fd entry ientry with
  | zero => rfl
  | succ fuel ih =>
      simp only [findEntryLoop,run_bind,run_readIfile,run_ite,run_pure,ih]
      rfl

theorem run_findEntry (basename : List Byte) : (findEntry fd basename).run Access.perform = AsePlusPlus.findEntry fd basename := by
  simp only [findEntry,run_bind,run_frame,seek2Ifile,run_seekIfile,run_findEntryLoop]
  rfl

theorem run_inumberOfBasename (basename : List Byte) :
    (inumberOfBasename inumber basename).run Access.perform = AsePlusPlus.inumberOfBasename inumber basename := by
  simp only [inumberOfBasename,run_bind,run_frame,seek2Ifile,run_readInode,run_openIfile,run_findEntry,run_seekIfile,run_readIfile,
    run_closeIfile,run_ite,run_pure]
  rfl

theorem run_pathLoop (pathname : List Byte) : (pathLoop inumber pathname).run Access.perform = AsePlusPlus.pathLoop inumber pathname := by
  fun_induction AsePlusPlus.pathLoop inumber pathname with
  | case1 icurrent =>
      rw [pathLoop]
      rfl
  | case2 icurrent rest ih =>
      rw [pathLoop]
      simpa using ih
  | case3 icurrent c rest other ih =>
      rw [pathLoop,if_neg other]
      simp only [run_bind,run_inumberOfBasename,run_ite,run_pure,ih]

theorem run_inumberOfPath (pathname : List Byte) : (inumberOfPath pathname).run Access.perform = AsePlusPlus.inumberOfPath pathname := by
  simp only [inumberOfPath,run_bind,run_super,run_pathLoop,run_ite,run_pure]
  rfl

theorem run_openFile (pathname : List Byte) : (openFile fd pathname).run Access.perform = AsePlusPlus.openFile fd pathname := by
  simp only [openFile,run_bind,run_inumberOfPath,run_openIfile,run_ite,run_pure]
  rfl

theorem run_loadSuper (vol : Word) : (loadSuper vol).run Access.perform = AsePlusPlus.loadSuper vol := by
  simp only [loadSuper,run_bind,run_setVolume,run_readBloc,run_setSuper,run_super,run_ensure,run_pure]
  rfl

end whole

end Stepwise

end AsePlusPlus
