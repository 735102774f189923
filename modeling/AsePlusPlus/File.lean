import AsePlusPlus.Dir

namespace AsePlusPlus
open Words Program

def createFile (pathname : List Byte) (type : FileType) : M Word := do
  let (idir,basename) ← dinumberOfPath pathname
  if idir = 0 then
    return returnFailure
  else
    let inumber ← inumberOfPath pathname
    if inumber ≠ 0 then
      return returnFailure
    else
      let inumber ← createIfile type
      if inumber = 0 then
        return returnFailure
      else
        let status ← addEntry idir inumber basename
        if status ≠ returnSuccess then
          return returnFailure
        else
          return inumber

def deleteFile (pathname : List Byte) : M Word := do
  let (idir,basename) ← dinumberOfPath pathname
  if idir = 0 then
    return returnFailure
  else
    delEntry idir basename

-- On failure the descriptor keeps whatever it held.
def openFile (fd : FileDesc) (pathname : List Byte) : M (Word × FileDesc) := do
  let inumber ← inumberOfPath pathname
  if inumber = 0 then
    return (returnFailure,fd)
  else
    openIfile inumber

def closeFile (fd : FileDesc) : M FileDesc := closeIfile fd
def flushFile (fd : FileDesc) : M FileDesc := flushIfile fd
def seekFile (fd : FileDesc) (offset : Word) : M FileDesc := seekIfile fd offset
def readcFile (fd : FileDesc) : M (Word × FileDesc) := readcIfile fd
def writecFile (fd : FileDesc) (c : Byte) : M (Word × FileDesc) := writecIfile fd c
def readFile (fd : FileDesc) (buf : Vector Byte nbyte) : M (Word × Vector Byte nbyte × FileDesc) := readIfile fd buf
def writeFile (fd : FileDesc) (buf : Vector Byte nbyte) : M (Word × FileDesc) := writeIfile fd buf

-- while (counter < size && read_ifile(...) != READ_EOF), with the room left as count.
def listLoop : Nat → FileDesc → Vector Byte 20 → M (List (List Byte) × FileDesc)
  | 0,fd,_ => return ([],fd)
  | count+1,fd,entry => do
    let (status,entry,fd) ← readIfile fd entry
    if status = readEof then
      return ([],fd)
    else
      let inode ← readInode (Entry.decode entry).entInumber
      let name := cstring (Entry.decode entry).entBasename
      let (names,fd) ← listLoop count fd entry
      return ((if inode.type = FileType.directory.code then name ++ [slash] else name) :: names,fd)

-- Neither the status of open_file nor, then, the descriptor is looked at.
def listDirectory (size : Nat) (pathname : List Byte) : M (List (List Byte)) := do
  let m ← get
  let (_,current) ← openFile m.frame.desc pathname
  let (names,current) ← listLoop size current m.frame.entry
  let _ ← closeFile current
  return names

end AsePlusPlus
