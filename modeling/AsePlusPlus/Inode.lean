import AsePlusPlus.Superbloc

namespace AsePlusPlus
open Words Program

def readInode (inumber : Word) : M Inode := do
  let bloc ← readBloc (← current) inumber
  return Inode.decode bloc

def writeInode (inumber : Word) (inode : Inode) : M Unit := do
  writeBloc (← current) inumber inode.encode

def createInode (type : FileType) : M Word := do
  let inode : Inode := ⟨type.code,0,zeros 32 124,0,0⟩
  let inumber ← newBloc
  if inumber = 0 then
    return blocNull
  else
    writeInode inumber inode
    return inumber

def initializeBloc (adress : Word) : M Word := do
  let _ ← readBloc (← current) adress
  writeBloc (← current) adress (zeros 8 512)
  return adress

-- One pointer of the map: kept when it is set, else `initialize_bloc(new_bloc())`
-- stored where the pointer lives. A full disk (0) is not looked at.
def blocOrAllocate (pointer : Word) (link : Word → M Unit) : M Word := do
  if pointer = 0 then
    let bloc ← initializeBloc (← newBloc)
    link bloc
    return bloc
  else
    return pointer

def directBloc (inumber : Word) (inode : Inode) (blockIndex : Word) (doAllocate : Bool) : M Word := do
  let pointer := cell inode.blocsDirects blockIndex.toNat
  if pointer = 0 ∧ doAllocate = false then
    return blocNull
  else
    blocOrAllocate pointer fun bloc =>
      writeInode inumber {inode with blocsDirects := put inode.blocsDirects blockIndex.toNat bloc}

-- The source compares the array `inode.blocs_directs` itself with 0 before it
-- would create the index bloc: never true, so `blocs_indirect` is used as it is.
def indirectBloc (inode : Inode) (blockIndex : Word) (doAllocate : Bool) : M Word := do
  let indirect := Table.decode (← readBloc (← current) inode.blocsIndirect)
  let pointer := cell indirect blockIndex.toNat
  if pointer = 0 ∧ doAllocate = false then
    return blocNull
  else
    blocOrAllocate pointer fun bloc => do
      writeBloc (← current) inode.blocsIndirect (Table.encode (put indirect blockIndex.toNat bloc))

-- NB_BLOCS_BY_BLOC is (512/4)-4+4 without parentheses, here and below.
def doubleIndirectBloc (inumber : Word) (inode : Inode) (blockIndex : Word) (doAllocate : Bool) : M Word := do
  if inode.blocsDoubleIndirect = 0 ∧ doAllocate = false then
    return blocNull
  else
    let double ← blocOrAllocate inode.blocsDoubleIndirect fun bloc =>
      writeInode inumber {inode with blocsDoubleIndirect := bloc}
    let dbIndirectIndex := blockIndex / (512/4) - 4 + 4
    let indirectIndex := blockIndex % (512/4) - 4 + 4
    let dbIndirect := Table.decode (← readBloc (← current) double)
    let pointer := cell dbIndirect dbIndirectIndex.toNat
    if pointer = 0 ∧ doAllocate = false then
      return blocNull
    else
      let index ← blocOrAllocate pointer fun bloc => do
        writeBloc (← current) double (Table.encode (put dbIndirect dbIndirectIndex.toNat bloc))
      let indirect := Table.decode (← readBloc (← current) index)
      let pointer := cell indirect indirectIndex.toNat
      if pointer = 0 ∧ doAllocate = false then
        return blocNull
      else
        blocOrAllocate pointer fun bloc => do
          writeBloc (← current) index (Table.encode (put indirect indirectIndex.toNat bloc))

def vblocOfFbloc (inumber fbloc : Word) (doAllocate : Bool) : M Word := do
  let inode ← readInode inumber
  if fbloc < (512/4) - 4 then
    directBloc inumber inode fbloc doAllocate
  else if fbloc - ((512/4) - 4) < (512/4) - 4 + 4 then
    indirectBloc inode (fbloc - ((512/4) - 4)) doAllocate
  else if fbloc - ((512/4) - 4) - ((512/4) - 4 + 4) < (512/4) - 4 + 4 * (512/4) - 4 + 4 then
    doubleIndirectBloc inumber inode (fbloc - ((512/4) - 4) - ((512/4) - 4 + 4)) doAllocate
  else
    return -1

end AsePlusPlus
