import Mathlib.Algebra.Group.Nat.Defs
import AsePlusPlus.Ifile

namespace AsePlusPlus
open Words Program

def slash : Byte := 47

-- No scan of a directory runs longer: every round moves the cursor on, below
-- a size of 32 bits.
def scanFuel : Nat := 2^32

def newEntryLoop : Nat → FileDesc → Vector Byte 20 → Word → M (Word × FileDesc)
  | 0,_,_,_ => stop .loop
  | fuel+1,fd,entry,ientry => do
    let (status,entry,fd) ← readIfile fd entry
    if status = readEof then
      return (ientry,fd)
    else if (Entry.decode entry).entInumber = 0 then
      return (ientry,fd)
    else
      newEntryLoop fuel fd entry (ientry+1)

def newEntry (fd : FileDesc) : M (Word × FileDesc) := do
  let m ← get
  let fd ← seek2Ifile fd 0
  newEntryLoop scanFuel fd m.frame.entry 0

def findEntryLoop (basename : List Byte) : Nat → FileDesc → Vector Byte 20 → Word → M (Word × FileDesc)
  | 0,_,_,_ => stop .loop
  | fuel+1,fd,entry,ientry => do
    let (status,entry,fd) ← readIfile fd entry
    if status = readEof then
      return (returnFailure,fd)
    else if (Entry.decode entry).entInumber ≠ 0 ∧ cstring (Entry.decode entry).entBasename = basename then
      return (ientry,fd)
    else
      findEntryLoop basename fuel fd entry (ientry+1)

def findEntry (fd : FileDesc) (basename : List Byte) : M (Word × FileDesc) := do
  let m ← get
  let fd ← seek2Ifile fd 0
  findEntryLoop basename scanFuel fd m.frame.entry 0

-- strncpy into 16 bytes, the last one then set to NUL.
def entryName (basename : List Byte) : Vector Byte 16 := put (strncpy 16 basename) 15 0

def addEntry (idir inumber : Word) (basename : List Byte) : M Word := do
  let inode ← readInode idir
  if inode.type ≠ FileType.directory.code then
    return returnFailure
  else
    let (_,fd) ← openIfile idir
    let (ientry,fd) ← newEntry fd
    let entry : Entry := ⟨inumber,entryName basename⟩
    let fd ← seek2Ifile fd (ientry*20)
    let (nbyte,fd) ← writeIfile fd entry.encode
    let _ ← closeIfile fd
    return if nbyte = 20 then returnSuccess else returnFailure

def delEntry (idir : Word) (basename : List Byte) : M Word := do
  let inode ← readInode idir
  if inode.type ≠ FileType.directory.code then
    return returnFailure
  else
    let (_,fd) ← openIfile idir
    let (status,fd) ← findEntry fd basename
    if status = returnFailure then
      let _ ← closeIfile fd
      return returnFailure
    else
      let fd ← seek2Ifile fd (status*20)
      let (status,fd) ← writeIfile fd (zeros 8 20)
      let _ ← closeIfile fd
      return status

def inumberOfBasename (idir : Word) (basename : List Byte) : M Word := do
  let inode ← readInode idir
  if inode.type ≠ FileType.directory.code then
    return 0
  else
    let (_,fd) ← openIfile idir
    let (status,fd) ← findEntry fd basename
    if status = returnFailure then
      return 0
    else
      let fd ← seek2Ifile fd (status*20)
      let m ← get
      let (_,entry,fd) ← readIfile fd m.frame.entry
      let _ ← closeIfile fd
      return (Entry.decode entry).entInumber

-- The loop of inumber_of_path. The basename is cut to 16 characters; its NUL is
-- then stored one byte behind the buffer, taken here to reach nothing else.
def pathLoop (icurrent : Word) (pathname : List Byte) : M Word :=
  match pathname with
  | [] => return icurrent
  | c :: rest =>
    if c = slash then
      pathLoop icurrent rest
    else do
      let icurrent ← inumberOfBasename icurrent (((c :: rest).takeWhile (· ≠ slash)).take 16)
      if icurrent = 0 then
        return 0
      else
        pathLoop icurrent ((c :: rest).dropWhile (· ≠ slash)).tail
  termination_by pathname.length
  decreasing_by
    · simp
    · have dropped := (List.dropWhile_sublist (p := (· ≠ slash)) (l := c :: rest)).length_le
      simp only [List.length_tail,List.length_cons] at dropped ⊢
      omega

def inumberOfPath (pathname : List Byte) : M Word := do
  if pathname.head? ≠ some slash then
    return 0
  else
    let m ← get
    pathLoop m.super.rootInumber pathname

-- strrchr(pathname, '/') + 1
def lastBasename (pathname : List Byte) : List Byte := (pathname.reverse.takeWhile (· ≠ slash)).reverse
def dirname (pathname : List Byte) : List Byte := pathname.take (pathname.length - (lastBasename pathname).length)

-- The basename is only set, and only used, for an absolute pathname.
def dinumberOfPath (pathname : List Byte) : M (Word × List Byte) := do
  if pathname.head? ≠ some slash then
    return (0,[])
  else
    let idirname ← inumberOfPath (dirname pathname)
    if idirname = 0 then
      return (0,lastBasename pathname)
    else
      let inode ← readInode idirname
      return (if inode.type ≠ FileType.directory.code then 0 else idirname,lastBasename pathname)

end AsePlusPlus
