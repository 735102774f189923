import AsePlusPlus.Ifile

namespace AsePlusPlus
open Words Program

-- for (i = 1; i < vol_nsectors; i++), with the blocs still to chain as count.
def chainBlocs : Nat → Word → M Unit
  | 0,_ => return ()
  | count+1,i => do
    let m ← get
    let nsectors := m.vol.volNsectors
    let block : FreeBloc := ⟨blocMagic,if i < nsectors-1 then i+1 else blocNull⟩
    writeNbloc (← current) i block.encode
    modify fun m => {m with super := {m.super with nbBlocLibre := m.super.nbBlocLibre+1}}
    chainBlocs count (i+1)

def initSuper (vol numSerie : Word) (nom : Vector Byte 32) : M Unit := do
  readMbr
  modify fun m => {m with
    super := ⟨superMagic,numSerie,strncpy 32 (cstring nom),0,1,0,-1⟩
    currentVolume := vol}
  let m ← get
  chainBlocs (m.vol.volNsectors.toNat-1) 1
  saveSuper
  let root ← createIfile .directory
  modify fun m => {m with super := {m.super with rootInumber := root}}
  saveSuper
  let m ← get
  ensure (m.super.magic = superMagic) .abort

end AsePlusPlus
