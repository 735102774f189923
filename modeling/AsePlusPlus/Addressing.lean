import Mathlib.Logic.Equiv.Fin.Basic
import Mathlib.Data.Set.Function
import Mathlib.Order.Interval.Set.Defs
import AsePlusPlus.FormatVol
import AsePlusPlus.Regions

namespace AsePlusPlus
open Words Program

variable {v : Vol} {b nvol cylinder sector : Word} {m : Machine} {p : Fin hdaMaxcylinder × Fin hdaMaxsector}

-- The positions of the disk, and their order along it.
def linear : Fin hdaMaxcylinder × Fin hdaMaxsector ≃ Fin (hdaMaxcylinder*hdaMaxsector) := finProdFinEquiv

theorem linear_val (p : Fin hdaMaxcylinder × Fin hdaMaxsector) : (linear p).val = p.1.val*hdaMaxsector+p.2.val := by
  have value : (linear p).val = p.2.val+hdaMaxsector*p.1.val := rfl
  rw [value,Nat.mul_comm,Nat.add_comm]

-- What seek_sector sends to HDA_DATAREGS and the three registers behind it.
def seekRegs (cylinder sector : Word) : Vector Byte 4 :=
  #v[((cylinder >>> 8) &&& 0xFF).setWidth 8,(cylinder &&& 0xFF).setWidth 8,
    ((sector >>> 8) &&& 0xFF).setWidth 8,(sector &&& 0xFF).setWidth 8]

-- CMD_SEEK takes them for two numbers, the high byte first. The head never gets
-- to a position that is not on the disk.
def cmdSeek (regs : Vector Byte 4) : Option (Fin hdaMaxcylinder × Fin hdaMaxsector) :=
  let cylinder := (cell regs 0).toNat*256+(cell regs 1).toNat
  let sector := (cell regs 2).toNat*256+(cell regs 3).toNat
  if on : cylinder < hdaMaxcylinder ∧ sector < hdaMaxsector then some (⟨cylinder,on.1⟩,⟨sector,on.2⟩) else none

-- read_bloc, read_nbloc, write_bloc and write_nbloc up to their command.
def seekBloc (nvol nbloc : Word) : M Unit := do
  let cylinder ← ncylOfNbloc nvol nbloc
  let sector ← nsecOfNbloc nvol nbloc
  seekSector cylinder sector

-- A byte of a register is what _out keeps of the value.
theorem register_out (value : Word) : ((value &&& 0xFF).setWidth 8 : Byte).toNat = out value := by
  have small := out_eq value
  rw [BitVec.toNat_setWidth]
  exact Nat.mod_eq_of_lt (by unfold out at small; omega)

theorem cmdSeek_regs (cylinder sector : Word) : cmdSeek (seekRegs cylinder sector) =
    if on : cylinder.toNat%65536 < hdaMaxcylinder ∧ sector.toNat%65536 < hdaMaxsector
    then some (⟨cylinder.toNat%65536,on.1⟩,⟨sector.toNat%65536,on.2⟩) else none := by
  have high : (cell (seekRegs cylinder sector) 0).toNat*256+(cell (seekRegs cylinder sector) 1).toNat = cylinder.toNat%65536 := by
    rw [← out_pair,← register_out,← register_out]
    rfl
  have low : (cell (seekRegs cylinder sector) 2).toNat*256+(cell (seekRegs cylinder sector) 3).toNat = sector.toNat%65536 := by
    rw [← out_pair,← register_out,← register_out]
    rfl
  unfold cmdSeek
  simp only [high,low]

-- The head goes where the registers say.
theorem seekSector_regs (cylinder sector : Word) (m : Machine) : seekSector cylinder sector m =
    match cmdSeek (seekRegs cylinder sector) with
    | some p => (.ok (),{m with hda := {m.hda with head := linear p}})
    | none => (.error .seek,m) := by
  rw [cmdSeek_regs]
  by_cases on : cylinder.toNat%65536 < hdaMaxcylinder ∧ sector.toNat%65536 < hdaMaxsector
  · rw [dif_pos on]
    dsimp only
    rw [linear_val]
    exact Runs.equal fun Q => runs_seekSector on.1 on.2
  · rw [dif_neg on]
    refine Runs.stops fun E => ?_
    simp only [seekSector,runs_bind,runs_ensure,out_pair,if_neg on]

-- A volume on the disk, in exact integers.
def Vol.OnDisk (v : Vol) : Prop :=
  v.volCylinder.toNat*32+v.volSector.toNat+v.volNsectors.toNat ≤ 1024*32

instance Vol.decidableOnDisk (v : Vol) : Decidable v.OnDisk := inferInstanceAs (Decidable (_ ≤ _))

-- No sum wraps, and what the sectors carry goes to the cylinder.
theorem Vol.OnDisk.address (onDisk : v.OnDisk) (inside : b.toNat < v.volNsectors.toNat) :
    (v.cylinderAt b).toNat < hdaMaxcylinder ∧ (v.sectorAt b).toNat < hdaMaxsector ∧
    (v.cylinderAt b).toNat*32+(v.sectorAt b).toNat = v.first+b.toNat := by
  rw [cylinderAt_toNat,sectorAt_toNat]
  unfold Vol.OnDisk at onDisk
  unfold Vol.first hdaMaxcylinder hdaMaxsector
  omega

-- The pair that is computed for a bloc, as a position of the disk.
structure Addressed (m : Machine) (nvol nbloc cylinder sector : Word) (p : Fin hdaMaxcylinder × Fin hdaMaxsector) : Prop where
  ncyl : ncylOfNbloc nvol nbloc m = (.ok cylinder,m)
  nsec : nsecOfNbloc nvol nbloc m = (.ok sector,m)
  valid : p.1.val = cylinder.toNat ∧ p.2.val = sector.toNat
  linear : cylinder.toNat*32+sector.toNat = (m.mbr.vol nvol.toNat).first+nbloc.toNat
  decoded : cmdSeek (seekRegs cylinder sector) = some p
  sought : seekBloc nvol nbloc m = (.ok (),{m with hda := {m.hda with head := AsePlusPlus.linear p}})

theorem addressed (magic : m.mbr.magicNumber = mbrMagic) (slot : nvol.toNat < maxvol) (onDisk : (m.mbr.vol nvol.toNat).OnDisk)
    (inside : b.toNat < (m.mbr.vol nvol.toNat).volNsectors.toNat) : ∃ cylinder sector p, Addressed m nvol b cylinder sector p := by
  obtain ⟨ncyl,nsec⟩ := place_exact magic slot b
  obtain ⟨low,small,sum⟩ := onDisk.address inside
  unfold Mbr.place at ncyl nsec
  generalize (m.mbr.vol nvol.toNat).cylinderAt b = cylinder at ncyl low sum
  generalize (m.mbr.vol nvol.toNat).sectorAt b = sector at nsec small sum
  have below : cylinder.toNat%65536 = cylinder.toNat := Nat.mod_eq_of_lt (by unfold hdaMaxcylinder at low; omega)
  have below' : sector.toNat%65536 = sector.toNat := Nat.mod_eq_of_lt (by unfold hdaMaxsector at small; omega)
  have decoded : cmdSeek (seekRegs cylinder sector) = some (⟨cylinder.toNat,low⟩,⟨sector.toNat,small⟩) := by
    simp only [cmdSeek_regs,below,below']
    rw [dif_pos ⟨low,small⟩]
  have sought := seekSector_regs cylinder sector m
  rw [decoded] at sought
  refine ⟨cylinder,sector,_,ncyl,nsec,⟨rfl,rfl⟩,sum,decoded,?_⟩
  unfold seekBloc
  rw [bind_ok ncyl,bind_ok nsec]
  exact sought

theorem Addressed.head (addressed : Addressed m nvol b cylinder sector p) :
    (seekBloc nvol b m).2.hda.head = (m.mbr.vol nvol.toNat).first+b.toNat := by
  rw [addressed.sought,← addressed.linear,← addressed.valid.1,← addressed.valid.2]
  exact linear_val p

-- Each bloc of a volume on the disk is at a position of its own: they take the
-- sectors from the first on, one after the other.
theorem bloc_addresses (m : Machine) (nvol : Word) (magic : m.mbr.magicNumber = mbrMagic) (slot : nvol.toNat < maxvol)
    (onDisk : (m.mbr.vol nvol.toNat).OnDisk) :
    (∀ nbloc : Word, nbloc.toNat < (m.mbr.vol nvol.toNat).volNsectors.toNat →
      ∃ cylinder sector p, Addressed m nvol nbloc cylinder sector p) ∧
    Set.BijOn (fun nbloc => (seekBloc nvol nbloc m).2.hda.head)
      {nbloc | nbloc.toNat < (m.mbr.vol nvol.toNat).volNsectors.toNat}
      (Set.Ico (m.mbr.vol nvol.toNat).first ((m.mbr.vol nvol.toNat).first+(m.mbr.vol nvol.toNat).volNsectors.toNat)) := by
  have head : ∀ nbloc : Word, nbloc.toNat < (m.mbr.vol nvol.toNat).volNsectors.toNat →
      (seekBloc nvol nbloc m).2.hda.head = (m.mbr.vol nvol.toNat).first+nbloc.toNat := by
    intro nbloc inside
    obtain ⟨cylinder,sector,p,here⟩ := addressed magic slot onDisk inside
    exact here.head
  refine ⟨fun nbloc inside => addressed magic slot onDisk inside,?_,?_,?_⟩
  · intro nbloc inside
    dsimp only
    rw [head nbloc inside]
    exact ⟨Nat.le_add_right _ _,Nat.add_lt_add_left inside _⟩
  · intro b inside c inside' same
    dsimp only at same
    rw [head b inside,head c inside'] at same
    exact BitVec.eq_of_toNat_eq (Nat.add_left_cancel same)
  · intro k member
    obtain ⟨low,high⟩ := member
    have bound := (m.mbr.vol nvol.toNat).volNsectors.isLt
    have value : (BitVec.ofNat 32 (k-(m.mbr.vol nvol.toNat).first)).toNat = k-(m.mbr.vol nvol.toNat).first := by
      rw [BitVec.toNat_ofNat]
      exact Nat.mod_eq_of_lt (by omega)
    have inside : (BitVec.ofNat 32 (k-(m.mbr.vol nvol.toNat).first)).toNat < (m.mbr.vol nvol.toNat).volNsectors.toNat := by
      rw [value]
      omega
    refine ⟨BitVec.ofNat 32 (k-(m.mbr.vol nvol.toNat).first),inside,?_⟩
    dsimp only
    rw [head _ inside,value]
    omega

-- A volume that starts at sector 40 of cylinder 1 and ends with the disk.
def lateDisk : Machine :=
  {recordedDisk .empty with mbr := ⟨Vector.replicate 8 ⟨1,40,32696,0,1⟩,8,mbrMagic⟩}

theorem bloc_addresses_late :
    (∃ cylinder sector p, Addressed lateDisk 7 32695 cylinder sector p) ∧
    Set.BijOn (fun nbloc => (seekBloc 7 nbloc lateDisk).2.hda.head)
      {nbloc | nbloc.toNat < (lateDisk.mbr.vol 7).volNsectors.toNat} (Set.Ico 72 32768) := by
  obtain ⟨each,together⟩ := bloc_addresses lateDisk 7 rfl (by decide) (by decide)
  exact ⟨each 32695 (by decide),together⟩

end AsePlusPlus
