import AsePlusPlus.Formatting
import AsePlusPlus.Volumes

namespace AsePlusPlus
open Words Program

-- CMD_FORMAT on `count` sectors from the head on, as far as there are any; `blank`
-- is what a sector holds once it is formatted with a value.
def cmdFormat (blank : Word → Sector) (count : Nat) (value : Word) : M Unit :=
  modify fun m => {m with hda := {m.hda with
    sectors := fun p =>
      if m.hda.head ≤ p ∧ p < m.hda.head + count ∧ p < hdaMaxcylinder * hdaMaxsector then blank value else m.hda.sectors p}}

def formatSector (blank : Word → Sector) (cylinder sector nsector value : Word) : M Unit := do
  seekSector cylinder sector
  cmdFormat blank (out (nsector >>> 8) * 256 + out nsector) value

-- for (i = 0; i < vol_nsectors; i++), with the rounds left as count.
def formatLoop (blank : Word → Sector) (nvol nsector : Word) : Nat → Word → M Unit
  | 0,_ => pure ()
  | count+1,i => do
      let cylinder ← ncylOfNbloc nvol i
      let sector ← nsecOfNbloc nvol i
      formatSector blank cylinder sector nsector 0
      formatLoop blank nvol nsector count (i+1)

def formatVol (blank : Word → Sector) (behind : Nat → Word) (nvol : Word) : M Unit := do
  let m ← get
  let nsector := (m.mbr.slot behind nvol.toNat).volNsectors
  formatLoop blank nvol nsector nsector.toNat 0

-- The sectors that a slot of the table claims.
def Vol.first (v : Vol) : Nat := 32 * v.volCylinder.toNat + v.volSector.toNat
def Vol.Owns (v : Vol) (p : Nat) : Prop := v.first ≤ p ∧ p < v.first + v.volNsectors.toNat

instance (v : Vol) (p : Nat) : Decidable (v.Owns p) := inferInstanceAs (Decidable (_ ∧ _))

def Machine.holding (s : Machine) (d : Nat → Sector) : Machine := {s with hda := {s.hda with sectors := d}}

-- Whatever the disk holds, the sectors of the volume are cleared and no other is.
def ClearsVolume (blank : Word → Sector) (behind : Nat → Word) (nvol : Word) (s : Machine) : Prop :=
  ∀ d, Returns (formatVol blank behind nvol) (s.holding d) fun _ t =>
    ∀ p, t.hda.sectors p = if (s.mbr.slot behind nvol.toNat).Owns p then blank 0 else d p

section effect
variable {blank : Word → Sector} {nvol nsector i : Word} {s : Machine} {count : Nat}

-- The round that starts on sector `head`.
def Machine.wiped (s : Machine) (x : Sector) (head count : Nat) : Machine :=
  {s with hda := {s.hda with
    sectors := fun p => if head ≤ p ∧ p < head + count ∧ p < 32768 then x else s.hda.sectors p
    head := head}}

theorem runs_formatRound {Q : Unit → Machine → Prop} {E : Stop → Machine → Prop} (magic : s.mbr.magicNumber = mbrMagic)
    (slot : nvol.toNat < 8) (inside : (s.mbr.vol nvol.toNat).first + i.toNat < 32768) :
    Runs (formatLoop blank nvol nsector (count+1) i) s Q E ↔
      Runs (formatLoop blank nvol nsector count (i+1))
        (s.wiped (blank 0) ((s.mbr.vol nvol.toNat).first + i.toNat) (nsector.toNat % 65536)) Q E := by
  obtain ⟨cylinder,sector,linear⟩ := position (s.mbr.vol nvol.toNat).volCylinder (s.mbr.vol nvol.toNat).volSector i inside
  have slot' : nvol.toNat < maxvol := slot
  simp only [formatLoop,ncylOfNbloc,nsecOfNbloc,formatSector,cmdFormat,runs_bind,runs_get,runs_ensure,if_pos magic,
    if_pos slot',runs_pure,runs_seekSector cylinder sector,runs_modify,linear,out_pair]
  rfl

-- The rounds from `i` on, together.
theorem runs_formatLoop (slot : nvol.toNat < 8) (counted : 0 < nsector.toNat % 65536) (count : Nat) : ∀ (i : Word) (s : Machine),
    s.mbr.magicNumber = mbrMagic → i.toNat + count < 2^32 → (s.mbr.vol nvol.toNat).first + i.toNat + count ≤ 32768 →
    Returns (formatLoop blank nvol nsector count i) s fun _ t => ∀ p, t.hda.sectors p =
      if 0 < count ∧ (s.mbr.vol nvol.toNat).first + i.toNat ≤ p ∧
        p + 1 < (s.mbr.vol nvol.toNat).first + i.toNat + count + nsector.toNat % 65536 ∧ p < 32768
      then blank 0 else s.hda.sectors p := by
  induction count with
  | zero =>
      intro i s _ _ _ p
      exact (if_neg fun cleared => Nat.lt_irrefl 0 cleared.1).symm
  | succ count ih =>
      intro i s magic word fits
      have next : (i+1).toNat = i.toNat+1 := by
        rw [BitVec.toNat_add]
        exact Nat.mod_eq_of_lt (show i.toNat+1 < 2^32 by omega)
      apply (runs_formatRound magic slot (by omega)).mpr
      have rest := ih (i+1) (s.wiped (blank 0) ((s.mbr.vol nvol.toNat).first + i.toNat) (nsector.toNat % 65536)) magic
        (by omega) (show (s.mbr.vol nvol.toNat).first + (i+1).toNat + count ≤ 32768 by omega)
      apply rest.mono _ fun _ _ => id
      intro _ t cleared p
      have here := cleared p
      simp only [next,Machine.wiped] at here
      rw [here]
      split
      · rw [if_pos (by omega)]
      · split
        · rw [if_pos (by omega)]
        · rw [if_neg (by omega)]

-- A volume on the disk: what is cleared reaches one length beyond its last sector.
theorem runs_formatVol (blank : Word → Sector) (behind : Nat → Word) (magic : s.mbr.magicNumber = mbrMagic) (slot : nvol.toNat < 8)
    (fits : (s.mbr.vol nvol.toNat).first + (s.mbr.vol nvol.toNat).volNsectors.toNat ≤ 32768) :
    Returns (formatVol blank behind nvol) s fun _ t => ∀ p, t.hda.sectors p =
      if 0 < (s.mbr.vol nvol.toNat).volNsectors.toNat ∧ (s.mbr.vol nvol.toNat).first ≤ p ∧
        p + 1 < (s.mbr.vol nvol.toNat).first + 2 * (s.mbr.vol nvol.toNat).volNsectors.toNat ∧ p < 32768
      then blank 0 else s.hda.sectors p := by
  simp only [formatVol,runs_bind,runs_get,slot_inside s.mbr behind slot]
  have zero : (0 : Word).toNat = 0 := rfl
  generalize small : (s.mbr.vol nvol.toNat).volNsectors = nsector at fits ⊢
  have few : nsector.toNat % 65536 = nsector.toNat := Nat.mod_eq_of_lt (by omega)
  by_cases none : nsector.toNat = 0
  · rw [none]
    intro p
    exact (if_neg fun cleared => Nat.lt_irrefl 0 cleared.1).symm
  · refine (runs_formatLoop slot (by omega) nsector.toNat 0 s magic (by omega) (by omega)).mono ?_ fun _ _ => id
    intro _ t cleared p
    have here := cleared p
    rw [few,zero,Nat.add_zero] at here
    rw [here]
    split
    · rw [if_pos (by omega)]
    · rw [if_neg (by omega)]

end effect

-- No command reaches a position that the disk does not have.
def OnlyDisk (_ : Nat) (s t : Machine) : Prop := ∀ p, 32768 ≤ p → t.hda.sectors p = s.hda.sectors p

theorem onlyDisk : Graded OnlyDisk where
  refl _ _ _ := rfl
  trans one two p beyond := (two p beyond).trans (one p beyond)
  mono _ same := same

theorem formatSector_disk (blank : Word → Sector) (c s nsector value : Word) :
    Spends OnlyDisk 0 (formatSector blank c s nsector value) := by
  have sought : Spends OnlyDisk 0 (seekSector c s) :=
    onlyDisk.bind (b := 0) (onlyDisk.ensure _ _) fun _ m p _ => rfl
  refine onlyDisk.bind (b := 0) sought fun _ => ?_
  · intro m p beyond
    exact if_neg fun cleared => Nat.lt_irrefl p (Nat.lt_of_lt_of_le cleared.2.2 beyond)

theorem formatLoop_disk (blank : Word → Sector) (nvol nsector : Word) (count : Nat) :
    ∀ i, Spends OnlyDisk 0 (formatLoop blank nvol nsector count i) := by
  induction count with
  | zero => exact fun _ => onlyDisk.pure ()
  | succ count ih =>
      intro i
      have addressed : ∀ f : Machine → Word, Spends OnlyDisk 0 (do
          let m ← get
          ensure (m.mbr.magicNumber = mbrMagic) .abort
          ensure (nvol.toNat < maxvol) .abort
          return f m : M Word) := fun f =>
        onlyDisk.bind (b := 0) onlyDisk.get fun _ => onlyDisk.bind (b := 0) (onlyDisk.ensure _ _) fun _ =>
          onlyDisk.bind (b := 0) (onlyDisk.ensure _ _) fun _ => onlyDisk.pure _
      exact onlyDisk.bind (b := 0) (addressed _) fun cylinder => onlyDisk.bind (b := 0) (addressed _) fun sector =>
        onlyDisk.bind (b := 0) (formatSector_disk blank cylinder sector nsector 0) fun _ => ih (i+1)

theorem formatVol_disk (blank : Word → Sector) (behind : Nat → Word) (nvol : Word) :
    Spends OnlyDisk 0 (formatVol blank behind nvol) :=
  onlyDisk.bind (b := 0) onlyDisk.get fun _ => formatLoop_disk blank nvol _ _ _

-- A sector that tells whether it was cleared.
theorem dirty_sector (x : Sector) : ∃ y : Sector, y ≠ x := by
  by_cases zero : x = zeros 8 512
  · refine ⟨Vector.replicate 512 1,fun same => ?_⟩
    have first := congrArg (fun v => cell v 0) (same.trans zero)
    simp [cell,zeros] at first
  · exact ⟨zeros 8 512,Ne.symm zero⟩

-- The assertions of ncyl_of_nbloc stop the first round.
theorem formatVol_aborts (blank : Word → Sector) (behind : Nat → Word)
    (sectors : 0 < (s.mbr.slot behind nvol.toNat).volNsectors.toNat)
    (unfit : ¬ (s.mbr.magicNumber = mbrMagic ∧ nvol.toNat < 8)) : formatVol blank behind nvol s = (.error .abort,s) := by
  obtain ⟨rounds,more⟩ : ∃ rounds, (s.mbr.slot behind nvol.toNat).volNsectors.toNat = rounds+1 :=
    ⟨_,(Nat.succ_pred_eq_of_pos sectors).symm⟩
  refine Runs.stops fun E => ?_
  simp only [formatVol,runs_bind,runs_get,more,formatLoop,ncylOfNbloc,runs_ensure]
  by_cases magic : s.mbr.magicNumber = mbrMagic
  · have beyond : ¬ nvol.toNat < maxvol := fun slot => unfit ⟨magic,slot⟩
    rw [if_pos magic,if_neg beyond]
  · rw [if_neg magic]

-- A volume that leaves the disk has a sector that stays as it is.
theorem formatVol_misses (blank : Word → Sector) (behind : Nat → Word)
    (leaves : 32768 < (s.mbr.slot behind nvol.toNat).first + (s.mbr.slot behind nvol.toNat).volNsectors.toNat)
    (sectors : 0 < (s.mbr.slot behind nvol.toNat).volNsectors.toNat) : ¬ ClearsVolume blank behind nvol s := by
  intro clears
  obtain ⟨x,dirty⟩ := dirty_sector (blank 0)
  obtain ⟨_,t,equal,cleared⟩ := returns_iff.mp (clears fun _ => x)
  have owned : (s.mbr.slot behind nvol.toNat).Owns (max (s.mbr.slot behind nvol.toNat).first 32768) :=
    ⟨Nat.le_max_left _ _,Nat.max_lt.mpr ⟨by omega,leaves⟩⟩
  have kept := (formatVol_disk blank behind nvol).result equal (max (s.mbr.slot behind nvol.toNat).first 32768)
    (Nat.le_max_right _ _)
  exact dirty (kept.symm.trans ((cleared _).trans (if_pos owned)))

-- The sector behind a volume of several sectors is cleared by the second round.
theorem formatVol_overruns (blank : Word → Sector) (behind : Nat → Word) (magic : s.mbr.magicNumber = mbrMagic)
    (slot : nvol.toNat < 8) (several : 2 ≤ (s.mbr.slot behind nvol.toNat).volNsectors.toNat)
    (room : (s.mbr.slot behind nvol.toNat).first + (s.mbr.slot behind nvol.toNat).volNsectors.toNat < 32768) :
    ¬ ClearsVolume blank behind nvol s := by
  intro clears
  obtain ⟨x,dirty⟩ := dirty_sector (blank 0)
  obtain ⟨_,t,equal,exactly⟩ := returns_iff.mp (clears fun _ => x)
  have there := exactly ((s.mbr.slot behind nvol.toNat).first + (s.mbr.slot behind nvol.toNat).volNsectors.toNat)
  rw [if_neg fun owned => Nat.lt_irrefl _ owned.2] at there
  rw [slot_inside s.mbr behind slot] at several room there
  have reach := (runs_formatVol (s := s.holding fun _ => x) blank behind magic slot (Nat.le_of_lt room)).result equal
    ((s.mbr.vol nvol.toNat).first + (s.mbr.vol nvol.toNat).volNsectors.toNat)
  have cleared := reach.trans (if_pos ⟨Nat.lt_of_lt_of_le (by decide) several,Nat.le_add_right _ _,
    show (s.mbr.vol nvol.toNat).first + (s.mbr.vol nvol.toNat).volNsectors.toNat + 1 <
      (s.mbr.vol nvol.toNat).first + 2 * (s.mbr.vol nvol.toNat).volNsectors.toNat by omega,room⟩)
  exact dirty (there.symm.trans cleared)

theorem formatVol_clears (blank : Word → Sector) (behind : Nat → Word) (magic : s.mbr.magicNumber = mbrMagic)
    (slot : nvol.toNat < 8)
    (fits : (s.mbr.slot behind nvol.toNat).first + (s.mbr.slot behind nvol.toNat).volNsectors.toNat ≤ 32768)
    (whole : (s.mbr.slot behind nvol.toNat).volNsectors.toNat = 1 ∨
      (s.mbr.slot behind nvol.toNat).first + (s.mbr.slot behind nvol.toNat).volNsectors.toNat = 32768) :
    ClearsVolume blank behind nvol s := by
  intro d
  rw [slot_inside s.mbr behind slot] at fits whole ⊢
  apply (runs_formatVol (s := s.holding d) blank behind magic slot fits).mono _ fun _ _ => id
  intro _ t exactly p
  have bounds : (s.mbr.vol nvol.toNat).Owns p ↔ 0 < (s.mbr.vol nvol.toNat).volNsectors.toNat ∧
      (s.mbr.vol nvol.toNat).first ≤ p ∧
      p + 1 < (s.mbr.vol nvol.toNat).first + 2 * (s.mbr.vol nvol.toNat).volNsectors.toNat ∧ p < 32768 := by
    unfold Vol.Owns
    omega
  rw [exactly p]
  exact (if_congr bounds rfl rfl).symm

theorem formatVol_empty (blank : Word → Sector) (behind : Nat → Word)
    (none : (s.mbr.slot behind nvol.toNat).volNsectors = 0) : ClearsVolume blank behind nvol s := by
  intro d
  have rounds : (s.mbr.slot behind nvol.toNat).volNsectors.toNat = 0 := congrArg BitVec.toNat none
  have equal : formatVol blank behind nvol (s.holding d) = (.ok (),s.holding d) := by
    refine Runs.equal fun Q => ?_
    simp only [formatVol,runs_bind,runs_get]
    rw [show ((s.holding d).mbr.slot behind nvol.toNat).volNsectors.toNat = 0 from rounds]
    rfl
  refine Runs.of_eq equal fun p => (if_neg fun owned => ?_).symm
  unfold Vol.Owns at owned
  omega

theorem formatVol_exact (blank : Word → Sector) (behind : Nat → Word) (nvol : Word) (s : Machine) :
    ClearsVolume blank behind nvol s ↔
      (s.mbr.slot behind nvol.toNat).volNsectors = 0 ∨
      (s.mbr.magicNumber = mbrMagic ∧ nvol.toNat < 8 ∧
        (s.mbr.slot behind nvol.toNat).first + (s.mbr.slot behind nvol.toNat).volNsectors.toNat ≤ 32768 ∧
        ((s.mbr.slot behind nvol.toNat).volNsectors = 1 ∨
          (s.mbr.slot behind nvol.toNat).first + (s.mbr.slot behind nvol.toNat).volNsectors.toNat = 32768)) := by
  have one : (s.mbr.slot behind nvol.toNat).volNsectors = 1 ↔ (s.mbr.slot behind nvol.toNat).volNsectors.toNat = 1 :=
    ⟨fun same => congrArg BitVec.toNat same,fun same => BitVec.eq_of_toNat_eq same⟩
  constructor
  · intro clears
    by_cases none : (s.mbr.slot behind nvol.toNat).volNsectors = 0
    · exact .inl none
    have sectors : 0 < (s.mbr.slot behind nvol.toNat).volNsectors.toNat :=
      Nat.pos_of_ne_zero fun zero => none (BitVec.eq_of_toNat_eq zero)
    by_cases fit : s.mbr.magicNumber = mbrMagic ∧ nvol.toNat < 8
    · refine .inr ⟨fit.1,fit.2,Nat.le_of_not_lt fun leaves => formatVol_misses blank behind leaves sectors clears,?_⟩
      rw [one]
      by_contra neither
      have overruns := formatVol_overruns blank behind fit.1 fit.2
      exact (Nat.lt_or_ge 32768 _).elim (fun leaves => formatVol_misses blank behind leaves sectors clears)
        fun fits => overruns (by omega) (by omega) clears
    · have stops := formatVol_aborts (s := s.holding fun _ => zeros 8 512) blank behind sectors fit
      obtain ⟨_,_,equal,_⟩ := returns_iff.mp (clears fun _ => zeros 8 512)
      rw [stops] at equal
      cases equal
  · intro condition
    rcases condition with none | ⟨magic,slot,fits,whole⟩
    · exact formatVol_empty blank behind none
    · exact formatVol_clears blank behind magic slot fits (whole.imp_left one.mp)

-- Two neighbours: the volume that is formatted takes the first sector of the other with it.
def neighbours : Machine :=
  {recordedDisk .empty with mbr := {emptyMbr with
    mbrVol := emptyMbr.mbrVol.setIfInBounds 0 ⟨0,1,2,0,0⟩ |>.setIfInBounds 1 ⟨0,3,5,0,0⟩
    nbvols := 2}}

theorem neighbour_formatted : (0 : Word) < neighbours.mbr.nbvols ∧
    ∀ blank behind, ¬ ClearsVolume blank behind 0 neighbours := by
  refine ⟨by decide,fun blank behind => ?_⟩
  have vol : neighbours.mbr.slot behind (0 : Word).toNat = ⟨0,1,2,0,0⟩ :=
    slot_inside neighbours.mbr behind (show (0 : Word).toNat < 8 by decide)
  refine formatVol_overruns blank behind rfl (by decide) ?_ ?_
  · rw [vol]; decide
  · rw [vol]; decide

end AsePlusPlus
