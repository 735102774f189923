import AsePlusPlus.Inode

namespace AsePlusPlus
open Words Program

def blocOfPos (pos : Word) : Word := pos / 512
def iblocOfPos (pos : Word) : Nat := pos.toNat % 512

-- ffatal(inumber, "unable to create inode") exits on 0.
def createIfile (type : FileType) : M Word := do
  let inumber ← createInode type
  ensure (inumber ≠ 0) .exit
  return inumber

-- The buffer of a descriptor for a bloc of the volume: zeros for bloc 0.
def loadBuffer (bloc : Word) : M Sector := do
  if bloc = 0 then
    return zeros 8 512
  else
    readBloc (← current) bloc

def openIfile (inumber : Word) : M (Word × FileDesc) := do
  let inode ← readInode inumber
  let firstBloc ← vblocOfFbloc inumber 0 false
  let buf ← loadBuffer firstBloc
  return (returnSuccess,⟨inumber,inode.size,0,buf,false⟩)

def flushIfile (fd : FileDesc) : M FileDesc := do
  if fd.fdsDirty then
    let fbloc := blocOfPos fd.fdsPos
    let vbloc ← vblocOfFbloc fd.fdsInumber fbloc true
    writeBloc (← current) vbloc fd.fdsBuf
    return {fd with fdsDirty := false}
  else
    return fd

def closeIfile (fd : FileDesc) : M FileDesc := do
  let fd ← flushIfile fd
  let inode ← readInode fd.fdsInumber
  writeInode fd.fdsInumber {inode with size := fd.fdsSize}
  return fd

-- The cursor has already moved when the buffer is flushed.
def seekIfile (fd : FileDesc) (offset : Word) : M FileDesc := do
  let oldPos := fd.fdsPos
  let fd := {fd with fdsPos := fd.fdsPos+offset}
  if blocOfPos fd.fdsPos ≠ blocOfPos oldPos then
    let fd ← flushIfile fd
    let vbloc ← vblocOfFbloc fd.fdsInumber (blocOfPos fd.fdsPos) false
    let buf ← loadBuffer vbloc
    return {fd with fdsBuf := buf}
  else
    return fd

def seek2Ifile (fd : FileDesc) (offset : Word) : M FileDesc := seekIfile fd (offset - fd.fdsPos)

-- The byte is returned through a signed char.
def readcIfile (fd : FileDesc) : M (Word × FileDesc) := do
  if fd.fdsSize < fd.fdsPos then
    return (readEof,fd)
  else
    let c := (cell fd.fdsBuf (iblocOfPos fd.fdsPos)).signExtend 32
    let fd ← seekIfile fd 1
    return (c,fd)

def writecAdvance (fd : FileDesc) : Word × FileDesc :=
  let fd := if fd.fdsSize < fd.fdsPos then {fd with fdsSize := fd.fdsPos} else fd
  let fd := {fd with fdsPos := fd.fdsPos+1}
  (fd.fdsPos-1,fd)

-- The tail of writec_ifile: write the buffer when it is full, then move on.
def writecStore (fd : FileDesc) : M (Word × FileDesc) := do
  if iblocOfPos fd.fdsPos = 512-1 then
    let ibloc ← vblocOfFbloc fd.fdsInumber (blocOfPos fd.fdsPos) false
    writeBloc (← current) ibloc fd.fdsBuf
    let ibloc ← vblocOfFbloc fd.fdsInumber (blocOfPos (fd.fdsPos+1)) false
    let buf ← loadBuffer ibloc
    return writecAdvance {fd with fdsBuf := buf,fdsDirty := false}
  else
    return writecAdvance fd

def writecIfile (fd : FileDesc) (c : Byte) : M (Word × FileDesc) := do
  let fd := {fd with fdsBuf := put fd.fdsBuf (iblocOfPos fd.fdsPos) c}
  if fd.fdsDirty = false then
    let ibloc ← vblocOfFbloc fd.fdsInumber (blocOfPos fd.fdsPos) true
    if ibloc = 0 then
      return (returnFailure,fd)
    else
      writecStore {fd with fdsDirty := true}
  else
    writecStore fd

-- The bytes delivered before the count is met or READ_EOF is seen.
def readChars : Nat → FileDesc → M (List Byte × FileDesc)
  | 0,fd => return ([],fd)
  | count+1,fd => do
    let (c,fd) ← readcIfile fd
    if c = readEof then
      return ([],fd)
    else
      let (rest,fd) ← readChars count fd
      return (c.setWidth 8 :: rest,fd)

def readIfile (fd : FileDesc) (buf : Vector Byte nbyte) : M (Word × Vector Byte nbyte × FileDesc) := do
  if fd.fdsSize ≤ fd.fdsPos then
    return (readEof,buf,fd)
  else
    let (chars,fd) ← readChars nbyte fd
    return (BitVec.ofNat 32 chars.length,build nbyte fun i => chars[i]?.getD (cell buf i),fd)

def writeChars : List Byte → FileDesc → M (Bool × FileDesc)
  | [],fd => return (true,fd)
  | c :: rest,fd => do
    let (status,fd) ← writecIfile fd c
    if status = returnFailure then
      return (false,fd)
    else
      writeChars rest fd

def writeIfile (fd : FileDesc) (buf : Vector Byte nbyte) : M (Word × FileDesc) := do
  let (written,fd) ← writeChars buf.toList fd
  return (if written then BitVec.ofNat 32 nbyte else returnFailure,fd)

end AsePlusPlus
