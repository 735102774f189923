import Mathlib.Algebra.Group.Nat.Defs
import AsePlusPlus.Volumes

namespace AsePlusPlus
open Words Program Trace

-- Where a bloc of a volume is sent.
def Vol.cylinderAt (v : Vol) (nbloc : Word) : Word := v.volCylinder + (v.volSector+nbloc)/32
def Vol.sectorAt (v : Vol) (nbloc : Word) : Word := (v.volSector+nbloc) % 32
def Mbr.place (m : Mbr) (nvol : Nat) (nbloc : Word) : Word × Word := ((m.vol nvol).cylinderAt nbloc,(m.vol nvol).sectorAt nbloc)

theorem place_exact (magic : s.mbr.magicNumber = mbrMagic) (slot : nvol.toNat < 8) (nbloc : Word) :
    ncylOfNbloc nvol nbloc s = (.ok (s.mbr.place nvol.toNat nbloc).1,s) ∧
    nsecOfNbloc nvol nbloc s = (.ok (s.mbr.place nvol.toNat nbloc).2,s) := by
  have inside : nvol.toNat < maxvol := slot
  constructor
  · refine Runs.equal fun Q => ?_
    simp only [ncylOfNbloc,runs_bind,runs_get,runs_ensure,if_pos magic,if_pos inside,runs_pure]
    rfl
  · refine Runs.equal fun Q => ?_
    simp only [nsecOfNbloc,runs_bind,runs_get,runs_ensure,if_pos magic,if_pos inside,runs_pure]
    rfl

-- The linear position of a volume, and the sectors it claims from there on.
def Vol.start (v : Vol) : Nat := 32 * (v.volCylinder+v.volSector/32).toNat + v.volSector.toNat % 32

-- A volume without sectors, or one whose sectors neither wrap around nor leave
-- the disk nor include the first sector.
def Vol.Fits (v : Vol) : Prop := v.volNsectors = 0 ∨
  (v.volSector.toNat + v.volNsectors.toNat ≤ 2^32 ∧ 1 ≤ v.start ∧ v.start + v.volNsectors.toNat ≤ 32768)

-- No sector in common.
def Vol.Clear (v w : Vol) : Prop := v.volNsectors = 0 ∨ w.volNsectors = 0 ∨
  v.start + v.volNsectors.toNat ≤ w.start ∨ w.start + w.volNsectors.toNat ≤ v.start

instance (v : Vol) : Decidable v.Fits := inferInstanceAs (Decidable (_ ∨ _))
instance (v w : Vol) : Decidable (v.Clear w) := inferInstanceAs (Decidable (_ ∨ _))

section coordinates
variable {v w : Vol} {b c : Word}

theorem cylinderAt_toNat (v : Vol) (b : Word) :
    (v.cylinderAt b).toNat = (v.volCylinder.toNat + (v.volSector.toNat + b.toNat) % 2^32 / 32) % 2^32 := by
  unfold Vol.cylinderAt
  rw [BitVec.toNat_add,BitVec.toNat_udiv,BitVec.toNat_add]
  rfl

theorem sectorAt_toNat (v : Vol) (b : Word) : (v.sectorAt b).toNat = (v.volSector.toNat + b.toNat) % 2^32 % 32 := by
  unfold Vol.sectorAt
  rw [BitVec.toNat_umod,BitVec.toNat_add]
  rfl

theorem start_eq (v : Vol) :
    v.start = 32 * ((v.volCylinder.toNat + v.volSector.toNat / 32) % 2^32) + v.volSector.toNat % 32 := by
  unfold Vol.start
  rw [BitVec.toNat_add,BitVec.toNat_udiv]
  rfl

theorem Vol.Fits.position (fits : v.Fits) (inside : b.toNat < v.volNsectors.toNat) :
    (v.cylinderAt b).toNat < 1024 ∧ 32 * (v.cylinderAt b).toNat + (v.sectorAt b).toNat = v.start + b.toNat := by
  rcases fits with none | ⟨whole,_,disk⟩
  · rw [none] at inside
    exact absurd inside (Nat.not_lt_zero _)
  · rw [start_eq] at disk ⊢
    rw [cylinderAt_toNat,sectorAt_toNat]
    omega

-- A volume fits exactly when each of its blocs lies on the disk and off sector (0,0).
theorem fits_iff (v : Vol) : v.Fits ↔ ∀ b : Word, b.toNat < v.volNsectors.toNat →
    (v.cylinderAt b).toNat < 1024 ∧ (v.cylinderAt b,v.sectorAt b) ≠ (0,0) := by
  constructor
  · intro fits b inside
    obtain ⟨disk,linear⟩ := fits.position inside
    refine ⟨disk,fun zero => ?_⟩
    obtain ⟨cylinder,sector⟩ := Prod.mk.inj zero
    rw [cylinder,sector] at linear
    rcases fits with none | ⟨_,first,_⟩
    · rw [none] at inside
      exact absurd inside (Nat.not_lt_zero _)
    · have zeros : 32 * (0 : Word).toNat + (0 : Word).toNat = 0 := rfl
      omega
  · intro all
    by_cases none : v.volNsectors = 0
    · exact Or.inl none
    have some : 0 < v.volNsectors.toNat := Nat.pos_of_ne_zero fun zero => none (BitVec.eq_of_toNat_eq zero)
    have at' : ∀ k, k < v.volNsectors.toNat → (v.volCylinder.toNat + (v.volSector.toNat + k) % 2^32 / 32) % 2^32 < 1024 := by
      intro k inside
      have small : k < 2^32 := Nat.lt_trans inside v.volNsectors.isLt
      have here := (all (BitVec.ofNat 32 k) (by rw [BitVec.toNat_ofNat,Nat.mod_eq_of_lt small]; exact inside)).1
      rw [cylinderAt_toNat,BitVec.toNat_ofNat,Nat.mod_eq_of_lt small] at here
      exact here
    have whole : v.volSector.toNat + v.volNsectors.toNat ≤ 2^32 := by
      by_contra wraps
      have before := at' (2^32-v.volSector.toNat-1) (by omega)
      have after := at' (2^32-v.volSector.toNat) (by omega)
      have sector := v.volSector.isLt
      omega
    have first := at' 0 some
    refine Or.inr ⟨whole,?_,?_⟩
    · by_contra zero
      rw [start_eq] at zero
      have null : (0 : Word).toNat = 0 := rfl
      refine (all 0 some).2 (congrArg₂ Prod.mk (BitVec.eq_of_toNat_eq ?_) (BitVec.eq_of_toNat_eq ?_))
      · rw [cylinderAt_toNat,null]
        omega
      · rw [sectorAt_toNat,null]
        omega
    · by_contra beyond
      rw [start_eq] at beyond
      have edge := at' (32768-(32*((v.volCylinder.toNat+v.volSector.toNat/32)%2^32)+v.volSector.toNat%32)) (by omega)
      omega

-- Two volumes that fit share no place exactly when their sectors are apart.
theorem clear_iff (fits : v.Fits) (fits' : w.Fits) : v.Clear w ↔ ∀ b c : Word, b.toNat < v.volNsectors.toNat →
    c.toNat < w.volNsectors.toNat → (v.cylinderAt b,v.sectorAt b) ≠ (w.cylinderAt c,w.sectorAt c) := by
  constructor
  · intro clear b c inside inside' same
    obtain ⟨cylinder,sector⟩ := Prod.mk.inj same
    have linear := (fits.position inside).2
    have linear' := (fits'.position inside').2
    rw [cylinder,sector,linear'] at linear
    rcases clear with none | none | below | above
    · rw [none] at inside
      exact absurd inside (Nat.not_lt_zero _)
    · rw [none] at inside'
      exact absurd inside' (Nat.not_lt_zero _)
    · omega
    · omega
  · intro apart
    by_contra mixed
    unfold Vol.Clear at mixed
    simp only [not_or,Nat.not_le] at mixed
    obtain ⟨some,some',below,above⟩ := mixed
    have positive : v.volNsectors.toNat ≠ 0 := fun zero => some (BitVec.eq_of_toNat_eq zero)
    have positive' : w.volNsectors.toNat ≠ 0 := fun zero => some' (BitVec.eq_of_toNat_eq zero)
    have wide : (max v.start w.start)-v.start < 2^32 := by have bound := v.volNsectors.isLt; omega
    have wide' : (max v.start w.start)-w.start < 2^32 := by have bound := w.volNsectors.isLt; omega
    have value := Nat.mod_eq_of_lt wide
    have value' := Nat.mod_eq_of_lt wide'
    have inside : (BitVec.ofNat 32 (max v.start w.start-v.start)).toNat < v.volNsectors.toNat := by
      rw [BitVec.toNat_ofNat,value]
      omega
    have inside' : (BitVec.ofNat 32 (max v.start w.start-w.start)).toNat < w.volNsectors.toNat := by
      rw [BitVec.toNat_ofNat,value']
      omega
    refine apart _ _ inside inside' ?_
    have linear := (fits.position inside).2
    have linear' := (fits'.position inside').2
    rw [BitVec.toNat_ofNat,value] at linear
    rw [BitVec.toNat_ofNat,value'] at linear'
    have small := sectorAt_toNat v (BitVec.ofNat 32 (max v.start w.start-v.start))
    have small' := sectorAt_toNat w (BitVec.ofNat 32 (max v.start w.start-w.start))
    exact congrArg₂ Prod.mk (BitVec.eq_of_toNat_eq (by omega)) (BitVec.eq_of_toNat_eq (by omega))

theorem place_inj (fits : v.Fits) (inside : b.toNat < v.volNsectors.toNat) (inside' : c.toNat < v.volNsectors.toNat)
    (same : (v.cylinderAt b,v.sectorAt b) = (v.cylinderAt c,v.sectorAt c)) : b = c := by
  obtain ⟨cylinder,sector⟩ := Prod.mk.inj same
  have linear := (fits.position inside).2
  have linear' := (fits.position inside').2
  rw [cylinder,sector,linear'] at linear
  exact BitVec.eq_of_toNat_eq (by omega)

end coordinates

-- Every bloc of every volume has a place of its own on the disk, none of them
-- the sector of the MBR.
structure Apart (m : Mbr) : Prop where
  apart : ∀ i j (b c : Word), i < m.nbvols.toNat → j < m.nbvols.toNat → b.toNat < (m.vol i).volNsectors.toNat →
    c.toNat < (m.vol j).volNsectors.toNat → m.place i b = m.place j c → i = j ∧ b = c
  clear : ∀ i (b : Word), i < m.nbvols.toNat → b.toNat < (m.vol i).volNsectors.toNat → m.place i b ≠ (0,0)
  disk : ∀ i (b : Word), i < m.nbvols.toNat → b.toNat < (m.vol i).volNsectors.toNat →
    (m.place i b).1.toNat < hdaMaxcylinder

-- The same on the list of volumes.
structure Spread (live : List Vol) : Prop where
  fits : ∀ v ∈ live, v.Fits
  clear : live.Pairwise Vol.Clear

-- A volume is only created where there is room for it.
def Placed (s : Volumes) : VolumeCall → Prop
  | .create cylinder sector nsectors volType => s.table.mbr.nbvols.toNat = maxvol ∨
    (Vol.Fits ⟨cylinder,sector,nsectors,volType,0⟩ ∧
      ∀ i, i < s.table.mbr.nbvols.toNat → (s.table.mbr.vol i).Clear ⟨cylinder,sector,nsectors,volType,0⟩)
  | .delete _ => True

theorem apart_iff (listed : Listed m live) : Apart m ↔ Spread live := by
  have count := listed.count
  constructor
  · intro apart
    have fits : ∀ i (inside : i < live.length), live[i].Fits := by
      intro i inside
      rw [← listed.slots i inside,fits_iff]
      exact fun b below => ⟨apart.disk i b (by omega) below,apart.clear i b (by omega) below⟩
    refine ⟨fun v member => ?_,List.pairwise_iff_getElem.mpr fun i j inside inside' order => ?_⟩
    · obtain ⟨i,inside,equal⟩ := List.getElem_of_mem member
      rw [← equal]
      exact fits i inside
    · rw [clear_iff (fits i inside) (fits j inside'),← listed.slots i inside,← listed.slots j inside']
      intro b c below below' same
      have equal := (apart.apart i j b c (by omega) (by omega) below below' same).1
      omega
  · intro spread
    have fits : ∀ i, i < m.nbvols.toNat → (m.vol i).Fits := by
      intro i inside
      rw [listed.slots i (by omega)]
      exact spread.fits _ (List.getElem_mem _)
    have clear : ∀ i j, i < j → j < m.nbvols.toNat → (m.vol i).Clear (m.vol j) := by
      intro i j order inside
      rw [listed.slots i (by omega),listed.slots j (by omega)]
      exact List.pairwise_iff_getElem.mp spread.clear i j (by omega) (by omega) order
    refine ⟨?_,fun i b inside below => ((fits_iff _).mp (fits i inside) b below).2,
      fun i b inside below => ((fits_iff _).mp (fits i inside) b below).1⟩
    intro i j b c inside inside' below below' same
    rcases Nat.lt_trichotomy i j with less | equal | more
    · exact absurd same ((clear_iff (fits i inside) (fits j inside')).mp (clear i j less inside') b c below below')
    · subst equal
      exact ⟨rfl,place_inj (fits i inside) below below' same⟩
    · exact absurd same.symm ((clear_iff (fits j inside') (fits i inside)).mp (clear j i more inside) c b below' below)

theorem VolumeStep.spread (listed : Listed s.table.mbr s.live) (spread : Spread s.live) (taken : VolumeStep s c t) :
    Spread t.live ↔ Placed s c := by
  obtain ⟨_,live⟩ := taken
  have count := listed.count
  rw [live]
  cases c with
  | delete number =>
      refine iff_of_true ⟨fun v member => spread.fits v (List.mem_of_mem_eraseIdx member),?_⟩ trivial
      exact spread.clear.sublist (List.eraseIdx_sublist _ _)
  | create cylinder sector nsectors volType =>
      dsimp only [VolumeCall.apply]
      unfold Placed
      rw [count]
      by_cases full : s.live.length = maxvol
      · rw [if_pos full]
        exact iff_of_true spread (Or.inl full)
      · rw [if_neg full]
        constructor
        · intro after
          refine Or.inr ⟨after.fits _ (by simp),fun i inside => ?_⟩
          rw [listed.slots i inside]
          exact (List.pairwise_append.mp after.clear).2.2 _ (List.getElem_mem _) _ (by simp)
        · intro placed
          obtain ⟨fits,clear⟩ := placed.resolve_left full
          refine ⟨fun v member => ?_,List.pairwise_append.mpr ⟨spread.clear,List.pairwise_singleton _ _,?_⟩⟩
          · rcases List.mem_append.mp member with old | new
            · exact spread.fits v old
            · rw [List.mem_singleton.mp new]
              exact fits
          · intro v member w member'
            obtain ⟨i,inside,equal⟩ := List.getElem_of_mem member
            have here := clear i inside
            rw [listed.slots i inside,equal] at here
            rw [List.mem_singleton.mp member']
            exact here

-- Over every history of the table, the volumes are apart after each call exactly
-- when every volume was created on sectors of the disk that were free.
theorem volumes_apart_exact (run : Run VolumeStep noVolumes past t) :
    (Apart t.table.mbr ∧ ∀ entry ∈ past, Apart entry.1.table.mbr) ↔ Met Placed past := by
  have first : Listed noVolumes.table.mbr noVolumes.live ∧ Spread noVolumes.live :=
    ⟨Kept.first.listed,by simp [noVolumes],List.Pairwise.nil⟩
  have keep : ∀ t c u, Listed t.table.mbr t.live ∧ Spread t.live → Placed t c → VolumeStep t c u →
      Listed u.table.mbr u.live ∧ Spread u.live :=
    fun _ _ _ both placed taken => ⟨taken.listed both.1,(taken.spread both.1 both.2).mpr placed⟩
  have force : ∀ t c u, Listed t.table.mbr t.live ∧ Spread t.live → VolumeStep t c u → Apart u.table.mbr → Placed t c :=
    fun _ _ _ both taken after => (taken.spread both.1 both.2).mp ((apart_iff (taken.listed both.1)).mp after)
  exact run.exact Placed keep first (fun _ both => (apart_iff both.1).mpr both.2) force

-- Two volumes, the second on the sectors right behind the first.
theorem volumes_apart_exact_two : ∃ past t, Run VolumeStep noVolumes past t ∧ past.map Prod.snd = [.create 1 1 64 0,.create 3 1 64 0] ∧
    t.live = [⟨1,1,64,0,0⟩,⟨3,1,64,0,0⟩] ∧ Apart t.table.mbr := by
  have one : VolumeStep noVolumes (.create 1 1 64 0) (VolumeCall.next (fun _ => 0) noVolumes (.create 1 1 64 0)) :=
    ⟨⟨fun _ => 0,rfl⟩,rfl⟩
  have two : VolumeStep (VolumeCall.next (fun _ => 0) noVolumes (.create 1 1 64 0)) (.create 3 1 64 0)
      (VolumeCall.next (fun _ => 0) (VolumeCall.next (fun _ => 0) noVolumes (.create 1 1 64 0)) (.create 3 1 64 0)) :=
    ⟨⟨fun _ => 0,rfl⟩,rfl⟩
  have first : Placed noVolumes (.create 1 1 64 0) := Or.inr ⟨by decide,fun i inside => absurd inside (Nat.not_lt_zero i)⟩
  have second : Placed (VolumeCall.next (fun _ => 0) noVolumes (.create 1 1 64 0)) (.create 3 1 64 0) := by
    refine Or.inr ⟨by decide,fun i inside => ?_⟩
    have zero : i = 0 := Nat.lt_one_iff.mp inside
    rw [zero]
    decide
  have run := (Run.single one).next two
  exact ⟨_,_,run,rfl,by decide,((volumes_apart_exact run).mpr (met_snoc.mpr ⟨met_snoc.mpr ⟨met_nil,first⟩,second⟩)).1⟩

-- Nothing stops a second volume on the sectors of the first, nor one on the sector of the MBR.
theorem volumes_overlap : ∃ past t, Run VolumeStep noVolumes past t ∧
    past.map Prod.snd = [.create 0 0 64 0,.create 0 0 64 0] ∧ t.table.mbr.nbvols = 2 ∧
    t.table.mbr.place 0 5 = t.table.mbr.place 1 5 ∧ t.table.mbr.place 0 0 = (0,0) ∧ ¬ Apart t.table.mbr := by
  obtain ⟨past,run,same⟩ := run_calls (fun _ => 0) [.create 0 0 64 0,.create 0 0 64 0] noVolumes
  refine ⟨past,_,run,same,by decide,by decide,by decide,fun apart => ?_⟩
  exact absurd (apart.apart 0 1 5 5 (by decide) (by decide) (by decide) (by decide) (by decide)).1 (by decide)

end AsePlusPlus
