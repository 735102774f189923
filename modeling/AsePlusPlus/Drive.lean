import AsePlusPlus.Lib.Program
import AsePlusPlus.Records

namespace AsePlusPlus
open Words Program

-- The disk of the simulator: sectors by linear position (32 a cylinder), the
-- shared MASTERBUFFER and the position reached by the last SEEK.
structure Hda where
  sectors : Nat → Sector
  master : Sector
  head : Nat

-- The calls that reach write_bloc and write_nbloc, newest first; nothing reads it.
inductive WriteCall where
  | bloc (vol nbloc : Word)
  | nbloc (vol nbloc : Word) (size : Nat)
  deriving DecidableEq

-- What the uninitialised locals of a call happen to hold.
structure Frame where
  entry : Vector Byte 20
  desc : FileDesc
  text : List Byte

-- The globals of the program (mbr, super, current_volume, cwd) and the device.
structure Machine where
  hda : Hda
  mbr : Mbr
  super : Super
  currentVolume : Word
  cwd : List Byte
  frame : Frame
  journal : List WriteCall

-- Ways of not returning: a failed assert, exit(), a SEEK that never reaches its
-- position (the head stops at the last cylinder), a loop that does not end.
inductive Stop where
  | abort
  | exit
  | seek
  | loop
  deriving DecidableEq, Repr

abbrev M (α : Type) := Prog Machine Stop α

-- _out keeps eight bits of the value.
def out (value : Word) : Nat := (value &&& 0xFF).toNat

def seekSector (cylinder sector : Word) : M Unit := do
  let c := out (cylinder >>> 8) * 256 + out cylinder
  let s := out (sector >>> 8) * 256 + out sector
  ensure (c < hdaMaxcylinder ∧ s < hdaMaxsector) .seek
  modify fun m => {m with hda := {m.hda with head := c*hdaMaxsector+s}}

-- CMD_READ and CMD_WRITE move one sector between MASTERBUFFER and the head.
def cmdRead : M Unit :=
  modify fun m => {m with hda := {m.hda with master := m.hda.sectors m.hda.head}}

def cmdWrite : M Unit :=
  modify fun m => {m with hda := {m.hda with
    sectors := fun p => if p = m.hda.head then m.hda.master else m.hda.sectors p}}

def readNsector (cylinder sector : Word) (size : Nat) : M (Vector Byte size) := do
  ensure (size ≠ 0) .abort
  seekSector cylinder sector
  cmdRead
  let m ← get
  return build size (cell m.hda.master)

-- CMD_DSKINFO answers 512 for this drive.
def readSector (cylinder sector : Word) : M Sector := readNsector cylinder sector 512

def writeNsector (cylinder sector : Word) (buffer : Vector Byte size) : M Unit := do
  ensure (size ≠ 0) .abort
  modify fun m => {m with hda := {m.hda with master := overlay buffer m.hda.master}}
  seekSector cylinder sector
  cmdWrite

def writeSector (cylinder sector : Word) (buffer : Sector) : M Unit := writeNsector cylinder sector buffer

theorem out_eq (value : Word) : out value = value.toNat % 256 := by
  have mask : (0xFF : Word).toNat = 2^8-1 := by decide
  rw [out,BitVec.toNat_and,mask,Nat.and_two_pow_sub_one_eq_mod]

-- The two register bytes hold the low sixteen bits of a coordinate.
theorem out_pair (value : Word) : out (value >>> 8) * 256 + out value = value.toNat % 65536 := by
  rw [out_eq,out_eq,BitVec.toNat_ushiftRight,Nat.shiftRight_eq_div_pow]
  omega

theorem runs_seekSector {Q : Unit → Machine → Prop} {E : Stop → Machine → Prop}
    (cylinder : c.toNat % 65536 < 1024) (sector : s.toNat % 65536 < 32) :
    Runs (seekSector c s) m Q E ↔
      Q () {m with hda := {m.hda with head := c.toNat % 65536 * 32 + s.toNat % 65536}} := by
  have inside : c.toNat % 65536 < hdaMaxcylinder ∧ s.toNat % 65536 < hdaMaxsector := ⟨cylinder,sector⟩
  simp only [seekSector,runs_bind,runs_ensure,runs_modify,out_pair,if_pos inside]
  rfl

theorem runs_seekSector_out {Q : Unit → Machine → Prop} {E : Stop → Machine → Prop}
    (beyond : 1024 ≤ c.toNat % 65536) : Runs (seekSector c s) m Q E ↔ E .seek m := by
  have outside : ¬ (c.toNat % 65536 < hdaMaxcylinder ∧ s.toNat % 65536 < hdaMaxsector) :=
    fun both => absurd both.1 (Nat.not_lt.mpr beyond)
  simp only [seekSector,runs_bind,runs_ensure,out_pair,if_neg outside]

end AsePlusPlus
