import AsePlusPlus.Volume

namespace AsePlusPlus
open Words Program

def loadSuper (vol : Word) : M Word := do
  modify fun m => {m with currentVolume := vol}
  let buf ← readBloc vol 0
  modify fun m => {m with super := Super.decode buf}
  let m ← get
  ensure (m.super.magic = superMagic) .exit
  return 0

def saveSuper : M Unit := do
  let m ← get
  ensure (m.super.magic = superMagic) .abort
  writeNbloc (← current) 0 m.super.encode

-- An unallocated bloc from the list of the superbloc, 0 when the disk is full.
def newBloc : M Word := do
  let m ← get
  if m.super.premierLibre = blocNull then
    return 0
  else
    let premierLibre := m.super.premierLibre
    let buffer ← readNbloc (← current) premierLibre 8
    let freeBloc := FreeBloc.decode buffer
    ensure (freeBloc.magic = blocMagic) .abort
    if freeBloc.nextFree ≠ blocNull then
      modify fun m => {m with super := {m.super with premierLibre := freeBloc.nextFree}}
    else
      modify fun m => {m with super := {m.super with premierLibre := blocNull}}
    modify fun m => {m with super := {m.super with nbBlocLibre := m.super.nbBlocLibre-1}}
    saveSuper
    return premierLibre

-- The bloc is linked in a buffer that is then written over the previous head
-- of the list, not over the bloc itself.
def freeBloc (bloc : Word) : M Unit := do
  if bloc = 0 then
    return ()
  else
    let buf ← readBloc (← current) bloc
    let m ← get
    let fb := putWord buf 1 m.super.premierLibre
    writeBloc (← current) m.super.premierLibre fb
    modify fun m => {m with super := {m.super with premierLibre := bloc}}
    modify fun m => {m with super := {m.super with nbBlocLibre := m.super.nbBlocLibre+1}}
    saveSuper

end AsePlusPlus
