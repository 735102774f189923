import AsePlusPlus.Drive

namespace AsePlusPlus
open Words Program

def readMbr : M Unit := do
  let buff ← readSector 0 0
  modify fun m => {m with mbr := Mbr.decode buff}
  let m ← get
  if m.mbr.magicNumber ≠ mbrMagic then
    modify fun m => {m with mbr := {mbrVol := Vector.replicate 8 .empty,nbvols := 0,magicNumber := mbrMagic}}

def writeMbr : M Unit := do
  let m ← get
  ensure (m.mbr.magicNumber = mbrMagic) .abort
  writeSector 0 0 (overlay m.mbr.encode (zeros 8 512))

def nsecOfNbloc (nvol nbloc : Word) : M Word := do
  let m ← get
  ensure (m.mbr.magicNumber = mbrMagic) .abort
  ensure (nvol.toNat < maxvol) .abort
  return ((m.mbr.vol nvol.toNat).volSector + nbloc) % 32

def ncylOfNbloc (nvol nbloc : Word) : M Word := do
  let m ← get
  ensure (m.mbr.magicNumber = mbrMagic) .abort
  ensure (nvol.toNat < maxvol) .abort
  return (m.mbr.vol nvol.toNat).volCylinder + ((m.mbr.vol nvol.toNat).volSector + nbloc) / 32

def readNbloc (vol nbloc : Word) (size : Nat) : M (Vector Byte size) := do
  let cylinder ← ncylOfNbloc vol nbloc
  let sector ← nsecOfNbloc vol nbloc
  readNsector cylinder sector size

def readBloc (vol nbloc : Word) : M Sector := do
  let cylinder ← ncylOfNbloc vol nbloc
  let sector ← nsecOfNbloc vol nbloc
  readSector cylinder sector

def writeBloc (vol nbloc : Word) (buffer : Sector) : M Unit := do
  modify fun m => {m with journal := .bloc vol nbloc :: m.journal}
  let cylinder ← ncylOfNbloc vol nbloc
  let sector ← nsecOfNbloc vol nbloc
  writeSector cylinder sector buffer

def writeNbloc (vol nbloc : Word) (buffer : Vector Byte size) : M Unit := do
  modify fun m => {m with journal := .nbloc vol nbloc size :: m.journal}
  let cylinder ← ncylOfNbloc vol nbloc
  let sector ← nsecOfNbloc vol nbloc
  writeNsector cylinder sector buffer

-- `current_volume`, as the callers of the functions above pass it.
def current : M Word := do
  let m ← get
  return m.currentVolume

@[simp] theorem runs_current {Q : Word → Machine → Prop} {E : Stop → Machine → Prop} :
    Runs current m Q E ↔ Q m.currentVolume m := Iff.rfl

end AsePlusPlus
