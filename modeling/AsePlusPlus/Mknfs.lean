import AsePlusPlus.Format
import AsePlusPlus.Formatting
import AsePlusPlus.Regions

namespace AsePlusPlus
open Words Program Trace

-- mbr_vol[vol].vol_nsectors as volume_loop reads it; a number outside of the
-- table reads whatever memory is there.
def Mbr.sectorsAt (m : Mbr) (outside : Int → Word) (vol : Int) : Word :=
  if 0 ≤ vol ∧ vol < 8 then (m.vol vol.toNat).volNsectors else outside vol

def Mbr.Refuses (m : Mbr) (outside : Int → Word) (vol : Word) : Prop :=
  (maxvol : Int) < vol.toInt ∨ m.sectorsAt outside vol.toInt = 0

instance (m : Mbr) (outside : Int → Word) (vol : Word) : Decidable (m.Refuses outside vol) := inferInstanceAs (Decidable (_ ∨ _))

-- The numbers typed at the prompt; fscanf fails when there are none left.
def volumeLoop (outside : Int → Word) : List Word → M Word
  | [] => stop .exit
  | vol :: typed => do
    let m ← get
    if m.mbr.Refuses outside vol then
      volumeLoop outside typed
    else
      return vol

-- `vol` and `serial` are -1 without their option, `typedSerial` is what scanf leaves.
def mknfs (outside : Int → Word) (vol serial : Word) (name : List Byte) (typed : List Word) (typedSerial : Word) : M Unit := do
  readMbr
  let vol ← if vol.toInt < 0 then volumeLoop outside typed else pure vol
  let serial := if serial.toInt < 0 then typedSerial else serial
  initSuper vol serial (strncpy 32 name)

-- The linear sector that the drive reaches for a bloc: its registers keep the
-- low sixteen bits of both coordinates.
def Vol.seek (v : Vol) (b : Nat) : Nat := (32 * v.volCylinder.toNat + v.volSector.toNat + b) % 2097152

theorem seek_linear (v : Vol) (b : Word) :
    (v.cylinderAt b).toNat % 65536 * 32 + (v.sectorAt b).toNat % 65536 = v.seek b.toNat := by
  rw [cylinderAt_toNat,sectorAt_toNat]
  unfold Vol.seek
  omega

theorem seek_sector (v : Vol) (b : Word) : (v.sectorAt b).toNat % 65536 < 32 := by
  rw [sectorAt_toNat]
  omega

def WriteCall.volume : WriteCall → Word
  | .bloc vol _ => vol
  | .nbloc vol _ _ => vol

def WriteCall.target : WriteCall → Nat
  | .bloc _ b => b.toNat
  | .nbloc _ b _ => b.toNat

-- From `s` to `t` exactly the blocs of `T` are written, all of the current volume.
structure Writes (s t : Machine) (T : Nat → Prop) : Prop where
  mbr : t.mbr = s.mbr
  volume : t.currentVolume = s.currentVolume
  journal : ∃ calls, t.journal = calls ++ s.journal ∧ (∀ call ∈ calls, call.volume = s.currentVolume) ∧
    ∀ b, T b ↔ ∃ call ∈ calls, call.target = b
  disk : ∀ p, (∀ b, T b → s.vol.seek b ≠ p) → t.hda.sectors p = s.hda.sectors p

-- A machine whose volume number passes the assertions of mbr.c.
structure Selected (s : Machine) : Prop where
  magic : s.mbr.magicNumber = mbrMagic
  slot : s.currentVolume.toNat < 8

variable {r s t : Machine} {T U : Nat → Prop} {b : Word}

theorem Writes.vol (writes : Writes s t T) : t.vol = s.vol := by
  unfold Machine.vol
  rw [writes.mbr,writes.volume]

theorem Writes.slotted (writes : Writes s t T) (slotted : Selected s) : Selected t :=
  ⟨by rw [writes.mbr]; exact slotted.magic,by rw [writes.volume]; exact slotted.slot⟩

theorem Writes.congr (writes : Writes s t T) (same : ∀ b, T b ↔ U b) : Writes s t U := by
  have equal : T = U := funext fun b => propext (same b)
  rwa [equal] at writes

theorem Writes.none (mbr : t.mbr = s.mbr) (volume : t.currentVolume = s.currentVolume) (journal : t.journal = s.journal)
    (disk : t.hda.sectors = s.hda.sectors) : Writes s t (fun _ => False) :=
  ⟨mbr,volume,⟨[],journal,by simp,by simp⟩,fun p _ => congrFun disk p⟩

theorem Writes.trans (one : Writes r s T) (two : Writes s t U) : Writes r t (fun b => T b ∨ U b) := by
  obtain ⟨early,first,volumes,exact⟩ := one.journal
  obtain ⟨late,second,volumes',exact'⟩ := two.journal
  refine ⟨two.mbr.trans one.mbr,two.volume.trans one.volume,
    ⟨late++early,by rw [second,first,List.append_assoc],?_,?_⟩,?_⟩
  · intro call member
    rcases List.mem_append.mp member with new | old
    · exact (volumes' call new).trans one.volume
    · exact volumes call old
  · intro b
    rw [exact b,exact' b]
    constructor
    · intro found
      rcases found with ⟨call,member,equal⟩ | ⟨call,member,equal⟩
      · exact ⟨call,List.mem_append_right _ member,equal⟩
      · exact ⟨call,List.mem_append_left _ member,equal⟩
    · intro found
      obtain ⟨call,member,equal⟩ := found
      rcases List.mem_append.mp member with new | old
      · exact Or.inr ⟨call,new,equal⟩
      · exact Or.inl ⟨call,old,equal⟩
  · intro p away
    rw [two.disk p (fun b member => by rw [one.vol]; exact away b (Or.inr member)),one.disk p (fun b member => away b (Or.inl member))]

theorem seek_reaches (v : Vol) (b : Word) : v.seek b.toNat < 32768 ↔ (v.cylinderAt b).toNat % 65536 < 1024 := by
  have linear := seek_linear v b
  have small := seek_sector v b
  omega

theorem Selected.ncyl (slotted : Selected s) (b : Word) : ncylOfNbloc s.currentVolume b s = (.ok (s.vol.cylinderAt b),s) :=
  (place_exact slotted.magic slotted.slot b).1

theorem Selected.nsec (slotted : Selected s) (b : Word) : nsecOfNbloc s.currentVolume b s = (.ok (s.vol.sectorAt b),s) :=
  (place_exact slotted.magic slotted.slot b).2

-- One sector written to the place of a bloc, or a SEEK that never gets there.
theorem runs_writeNsector_at (positive : size ≠ 0) (buffer : Vector Byte size) (call : WriteCall)
    (volume : call.volume = s.currentVolume) (target : call.target = b.toNat) :
    Runs (writeNsector (s.vol.cylinderAt b) (s.vol.sectorAt b) buffer) {s with journal := call :: s.journal}
      (fun _ t => s.vol.seek b.toNat < 32768 ∧ Writes s t (· = b.toNat) ∧ t.super = s.super ∧
        t.hda.sectors (s.vol.seek b.toNat) = overlay buffer s.hda.master)
      (fun _ t => ¬ s.vol.seek b.toNat < 32768 ∧ Writes s t (· = b.toNat)) := by
  have journal : ∃ calls, call :: s.journal = calls ++ s.journal ∧ (∀ call ∈ calls, call.volume = s.currentVolume) ∧
      ∀ k, k = b.toNat ↔ ∃ call ∈ calls, call.target = k :=
    ⟨[call],rfl,by simp [volume],by simp [target,eq_comm]⟩
  have small := seek_sector s.vol b
  simp only [writeNsector,runs_bind,runs_ensure,if_pos positive,runs_modify]
  by_cases reach : s.vol.seek b.toNat < 32768
  · rw [runs_seekSector ((seek_reaches _ _).mp reach) small,seek_linear]
    exact ⟨reach,⟨rfl,rfl,journal,fun p away => if_neg (Ne.symm (away _ rfl))⟩,rfl,if_pos rfl⟩
  · have beyond : 1024 ≤ (s.vol.cylinderAt b).toNat % 65536 := Nat.le_of_not_lt fun less => reach ((seek_reaches _ _).mpr less)
    rw [runs_seekSector_out beyond]
    exact ⟨reach,rfl,rfl,journal,fun p _ => rfl⟩

theorem Selected.logged (slotted : Selected s) (call : WriteCall) : Selected {s with journal := call :: s.journal} :=
  ⟨slotted.magic,slotted.slot⟩

theorem runs_writeNbloc_at (slotted : Selected s) (positive : size ≠ 0) (buffer : Vector Byte size) :
    Runs (writeNbloc s.currentVolume b buffer) s
      (fun _ t => s.vol.seek b.toNat < 32768 ∧ Writes s t (· = b.toNat) ∧ t.super = s.super ∧
        t.hda.sectors (s.vol.seek b.toNat) = overlay buffer s.hda.master)
      (fun _ t => ¬ s.vol.seek b.toNat < 32768 ∧ Writes s t (· = b.toNat)) := by
  have logged := slotted.logged (.nbloc s.currentVolume b size)
  unfold writeNbloc
  rw [runs_bind,runs_modify,runs_bind,runs_eq (logged.ncyl b),runs_bind,runs_eq (logged.nsec b)]
  exact runs_writeNsector_at positive buffer _ rfl rfl

theorem runs_writeBloc_at (slotted : Selected s) (buffer : Sector) :
    Runs (writeBloc s.currentVolume b buffer) s
      (fun _ t => s.vol.seek b.toNat < 32768 ∧ Writes s t (· = b.toNat) ∧ t.super = s.super ∧
        t.hda.sectors (s.vol.seek b.toNat) = overlay buffer s.hda.master)
      (fun _ t => ¬ s.vol.seek b.toNat < 32768 ∧ Writes s t (· = b.toNat)) := by
  have logged := slotted.logged (.bloc s.currentVolume b)
  unfold writeBloc
  rw [runs_bind,runs_modify,runs_bind,runs_eq (logged.ncyl b),runs_bind,runs_eq (logged.nsec b)]
  exact runs_writeNsector_at (by decide) buffer (.bloc s.currentVolume b) rfl rfl

theorem runs_readNbloc_at (slotted : Selected s) (positive : size ≠ 0) :
    Runs (readNbloc s.currentVolume b size) s
      (fun r t => s.vol.seek b.toNat < 32768 ∧ r = build size (cell (s.hda.sectors (s.vol.seek b.toNat))) ∧
        Writes s t (fun _ => False) ∧ t.super = s.super)
      (fun _ t => ¬ s.vol.seek b.toNat < 32768 ∧ Writes s t (fun _ => False)) := by
  have small := seek_sector s.vol b
  unfold readNbloc readNsector
  rw [runs_bind,runs_eq (slotted.ncyl b),runs_bind,runs_eq (slotted.nsec b)]
  simp only [runs_bind,runs_ensure,if_pos positive]
  by_cases reach : s.vol.seek b.toNat < 32768
  · rw [runs_seekSector ((seek_reaches _ _).mp reach) small,seek_linear]
    simp only [cmdRead,runs_modify,runs_get,runs_pure]
    exact ⟨reach,trivial,.none rfl rfl rfl rfl,trivial⟩
  · have beyond : 1024 ≤ (s.vol.cylinderAt b).toNat % 65536 := Nat.le_of_not_lt fun less => reach ((seek_reaches _ _).mpr less)
    rw [runs_seekSector_out beyond]
    exact ⟨reach,.none rfl rfl rfl rfl⟩

-- The blocs below `i+count` that the drive reaches in turn from `i` on, and the
-- one where it stalls.
def Machine.Chained (s : Machine) (i count : Nat) (b : Nat) : Prop :=
  i ≤ b ∧ b < i+count ∧ ∀ k, i ≤ k → k < b → s.vol.seek k < 32768

theorem chainBlocs_writes (count : Nat) : ∀ (i : Word) (s : Machine), Selected s → i.toNat+count < 2^32 →
    Runs (chainBlocs count i) s
      (fun _ t => (∀ k, i.toNat ≤ k → k < i.toNat+count → s.vol.seek k < 32768) ∧ Writes s t (s.Chained i.toNat count) ∧
        t.super.magic = s.super.magic ∧ t.super.premierLibre = s.super.premierLibre)
      (fun _ t => (∃ k, i.toNat ≤ k ∧ k < i.toNat+count ∧ ¬ s.vol.seek k < 32768) ∧ Writes s t (s.Chained i.toNat count)) := by
  induction count with
  | zero =>
      intro i s slotted _
      refine ⟨fun k low high => absurd high (by omega),?_,rfl,rfl⟩
      refine (Writes.none rfl rfl rfl rfl).congr fun b => ⟨False.elim,fun chained => ?_⟩
      obtain ⟨low,high,_⟩ := chained
      omega
  | succ count ih =>
      intro i s slotted bound
      have one : (1 : Word).toNat = 1 := rfl
      have next : (i+1).toNat = i.toNat+1 := by
        rw [BitVec.toNat_add]
        omega
      have same : ∀ t : Machine, t.vol = s.vol → s.vol.seek i.toNat < 32768 → ∀ b,
          (b = i.toNat ∨ t.Chained (i+1).toNat count b) ↔ s.Chained i.toNat (count+1) b := by
        intro t vol reach b
        unfold Machine.Chained
        rw [vol,next]
        constructor
        · intro either
          rcases either with first | ⟨low,high,before⟩
          · exact ⟨by omega,by omega,fun k low high => absurd high (by omega)⟩
          · refine ⟨by omega,by omega,fun k low' high' => ?_⟩
            by_cases head : k = i.toNat
            · rw [head]
              exact reach
            · exact before k (by omega) high'
        · intro chained
          obtain ⟨low,high,before⟩ := chained
          by_cases head : b = i.toNat
          · exact Or.inl head
          · exact Or.inr ⟨by omega,by omega,fun k low' high' => before k (by omega) high'⟩
      rw [chainBlocs,runs_bind,runs_get,runs_bind,runs_current,runs_bind]
      refine (runs_writeNbloc_at slotted (by decide) _).mono ?_ ?_
      · intro _ t wrote
        obtain ⟨reach,writes,super,_⟩ := wrote
        have after : Writes s {t with super := {t.super with nbBlocLibre := t.super.nbBlocLibre+1}} (· = i.toNat) :=
          ⟨writes.mbr,writes.volume,writes.journal,writes.disk⟩
        have ran := ih (i+1) _ (after.slotted slotted) (by omega)
        have vol := after.vol
        have magic' : t.super.magic = s.super.magic := congrArg Super.magic super
        have premier' : t.super.premierLibre = s.super.premierLibre := congrArg Super.premierLibre super
        rw [next] at ran
        rw [runs_bind,runs_modify]
        refine ran.mono (fun _ u rest => ?_) fun _ u rest => ?_
        · obtain ⟨reaches,writes',magic,premier⟩ := rest
          refine ⟨fun k low high => ?_,(after.trans writes').congr fun b => ?_,?_,?_⟩
          · by_cases head : k = i.toNat
            · rw [head]
              exact reach
            · rw [← vol]
              exact reaches k (by omega) (by omega)
          · have both := same _ vol reach b
            rwa [next] at both
          · exact magic.trans magic'
          · exact premier.trans premier'
        · obtain ⟨⟨k,low,high,stuck⟩,writes'⟩ := rest
          refine ⟨⟨k,by omega,by omega,by rwa [vol] at stuck⟩,(after.trans writes').congr fun b => ?_⟩
          have both := same _ vol reach b
          rwa [next] at both
      · intro _ t wrote
        obtain ⟨stuck,writes⟩ := wrote
        refine ⟨⟨i.toNat,by omega,by omega,stuck⟩,writes.congr fun b => ?_⟩
        constructor
        · intro first
          exact ⟨by omega,by omega,fun k low high => absurd high (by omega)⟩
        · intro chained
          obtain ⟨low,_,before⟩ := chained
          by_contra later
          exact stuck (before i.toNat (Nat.le_refl _) (by omega))

theorem runs_saveSuper_at (slotted : Selected s) (magic : s.super.magic = superMagic) :
    Runs saveSuper s (fun _ t => s.vol.seek 0 < 32768 ∧ Writes s t (· = 0) ∧ t.super = s.super ∧
        t.hda.sectors (s.vol.seek 0) = overlay s.super.encode s.hda.master)
      (fun _ t => ¬ s.vol.seek 0 < 32768 ∧ Writes s t (· = 0)) := by
  unfold saveSuper
  rw [runs_bind,runs_get,runs_bind,runs_ensure,if_pos magic,runs_bind,runs_current]
  exact runs_writeNbloc_at (b := 0) slotted (by decide) _

theorem seek_apart (v : Vol) : v.seek 0 ≠ v.seek 1 := by
  unfold Vol.seek
  omega

-- The bloc that the new chain starts with can be taken.
def Machine.Ready (s : Machine) : Prop :=
  s.vol.seek 1 < 32768 ∧ wordAt (s.hda.sectors (s.vol.seek 1)) 0 = blocMagic

theorem newBloc_writes (slotted : Selected s) (magic : s.super.magic = superMagic) (first : s.super.premierLibre = 1)
    (reach : s.vol.seek 0 < 32768) :
    Runs newBloc s (fun r t => r = 1 ∧ s.Ready ∧ Writes s t (· = 0) ∧ t.super.magic = superMagic)
      (fun _ t => ¬ s.Ready ∧ Writes s t (fun _ => False)) := by
  have live : s.super.premierLibre ≠ blocNull := by rw [first]; decide
  have tail : ∀ v, Writes s v (fun _ => False) → v.super.magic = superMagic → s.Ready →
      Runs saveSuper v (fun _ t => (1 : Word) = 1 ∧ s.Ready ∧ Writes s t (· = 0) ∧ t.super.magic = superMagic)
        (fun _ t => ¬ s.Ready ∧ Writes s t (fun _ => False)) := by
    intro v writes magic ready
    refine (runs_saveSuper_at (writes.slotted slotted) magic).mono ?_ ?_
    · intro _ t saved
      obtain ⟨_,writes',super,_⟩ := saved
      exact ⟨rfl,ready,(writes.trans writes').congr fun b => by simp,by rw [super]; exact magic⟩
    · intro _ t stuck
      rw [writes.vol] at stuck
      exact absurd reach stuck.1
  unfold newBloc
  rw [runs_bind,runs_get,runs_ite,if_neg live,runs_bind,runs_current,runs_bind,first]
  refine (runs_readNbloc_at (b := 1) slotted (by decide)).mono ?_ ?_
  · intro r t read
    obtain ⟨reach',bytes,writes,super⟩ := read
    have word : (FreeBloc.decode r).magic = wordAt (s.hda.sectors (s.vol.seek 1)) 0 := by
      rw [bytes]
      exact wordAt_leading _ (by decide)
    have magic' : t.super.magic = superMagic := by rw [super]; exact magic
    rw [runs_bind,runs_ensure,word]
    split
    · rename_i marked
      rw [runs_ite]
      split
      · rw [runs_bind,runs_modify,runs_bind,runs_modify,runs_bind]
        exact tail _ ⟨writes.mbr,writes.volume,writes.journal,writes.disk⟩ magic' ⟨reach',marked⟩
      · rw [runs_bind,runs_modify,runs_bind,runs_modify,runs_bind]
        exact tail _ ⟨writes.mbr,writes.volume,writes.journal,writes.disk⟩ magic' ⟨reach',marked⟩
    · rename_i unmarked
      exact ⟨fun ready => unmarked ready.2,writes⟩
  · intro _ t stuck
    exact ⟨fun ready => stuck.1 ready.1,stuck.2⟩

-- new_bloc and write_inode on a chain that starts at bloc 1.
theorem createIfile_writes (slotted : Selected s) (magic : s.super.magic = superMagic) (first : s.super.premierLibre = 1)
    (reach : s.vol.seek 0 < 32768) (type : FileType) :
    Runs (createIfile type) s
      (fun _ t => s.Ready ∧ Writes s t (fun b => b = 0 ∨ b = 1) ∧ t.super.magic = superMagic)
      (fun _ t => ¬ s.Ready ∧ Writes s t (fun _ => False)) := by
  unfold createIfile createInode
  rw [runs_bind,runs_bind]
  refine (newBloc_writes slotted magic first reach).mono ?_ fun _ _ => id
  intro r t taken
  obtain ⟨equal,ready,writes,magic'⟩ := taken
  subst equal
  rw [runs_ite,if_neg (by decide),runs_bind]
  unfold writeInode
  rw [runs_bind,runs_current]
  refine (runs_writeBloc_at (b := 1) (writes.slotted slotted) _).mono ?_ ?_
  · intro _ u wrote
    obtain ⟨_,writes',super,_⟩ := wrote
    rw [runs_pure,runs_bind,runs_ensure,if_pos (by decide),runs_pure]
    exact ⟨ready,writes.trans writes',by rw [super]; exact magic'⟩
  · intro _ u stuck
    rw [writes.vol] at stuck
    exact absurd ready.1 stuck.1

-- The blocs that init_super writes: the free chain as far as the drive reaches
-- it, then the superbloc and the bloc of the root.
def Machine.Formatted (s : Machine) (b : Nat) : Prop :=
  s.Chained 1 (s.nsec-1) b ∨ ((∀ k, 1 ≤ k → k < s.nsec → s.vol.seek k < 32768) ∧
    (b = 0 ∨ (b = 1 ∧ s.nsec ≤ 1 ∧ s.vol.seek 0 < 32768 ∧ s.Ready)))

-- The machine in which init_super starts to write.
def Machine.opened (s : Machine) (vol : Word) : Machine := {s with mbr := s.recorded,currentVolume := vol}

-- init_super behind read_mbr and the fresh superbloc.
def formatTail (count : Nat) : M Unit := do
  chainBlocs count 1
  saveSuper
  let root ← createIfile .directory
  modify fun m => {m with super := {m.super with rootInumber := root}}
  saveSuper
  let m ← get
  ensure (m.super.magic = superMagic) .abort

section tail
variable (all : ∀ k, 1 ≤ k → k < s.nsec → s.vol.seek k < 32768)
include all

theorem formatted_short (short : ¬ (s.vol.seek 0 < 32768 ∧ s.nsec ≤ 1 ∧ s.Ready)) (b : Nat) :
    (s.Chained 1 (s.nsec-1) b ∨ b = 0) ↔ s.Formatted b := by
  constructor
  · intro written
    rcases written with chained | head
    · exact Or.inl chained
    · exact Or.inr ⟨all,Or.inl head⟩
  · intro formatted
    rcases formatted with chained | ⟨_,head | ⟨_,few,reach,ready⟩⟩
    · exact Or.inl chained
    · exact Or.inr head
    · exact absurd ⟨reach,few,ready⟩ short

theorem formatted_whole (reach : s.vol.seek 0 < 32768) (ready : s.nsec ≤ 1 → s.Ready) (b : Nat) :
    (((s.Chained 1 (s.nsec-1) b ∨ b = 0) ∨ b = 0 ∨ b = 1) ∨ b = 0) ↔ s.Formatted b := by
  constructor
  · intro written
    by_cases head : b = 0
    · exact Or.inr ⟨all,Or.inl head⟩
    by_cases root : b = 1
    · by_cases few : s.nsec ≤ 1
      · exact Or.inr ⟨all,Or.inr ⟨root,few,reach,ready few⟩⟩
      · exact Or.inl ⟨by omega,by omega,fun k low high => absurd high (by omega)⟩
    · simp only [head,root,or_false] at written
      exact Or.inl written
  · intro formatted
    rcases formatted with chained | ⟨_,head | ⟨root,_⟩⟩
    · exact Or.inl (Or.inl (Or.inl chained))
    · exact Or.inr head
    · exact Or.inl (Or.inr (Or.inr root))

end tail

-- The first bloc is as it was where the chain has none.
theorem ready_kept (writes : Writes s t (fun b => s.Chained 1 (s.nsec-1) b ∨ b = 0)) (few : s.nsec ≤ 1) : t.Ready ↔ s.Ready := by
  have same : t.hda.sectors (s.vol.seek 1) = s.hda.sectors (s.vol.seek 1) := by
    refine writes.disk _ fun b written => ?_
    rcases written with ⟨low,high,_⟩ | head
    · omega
    · rw [head]
      exact seek_apart _
  unfold Machine.Ready
  rw [writes.vol,same]

theorem formatTail_writes (slotted : Selected s) (magic : s.super.magic = superMagic) (first : s.super.premierLibre = 1) :
    Runs (formatTail (s.nsec-1)) s (fun _ t => Writes s t s.Formatted) (fun _ t => Writes s t s.Formatted) := by
  have one : (1 : Word).toNat = 1 := rfl
  have bound : (1 : Word).toNat+(s.nsec-1) < 2^32 := by
    have small := s.vol.volNsectors.isLt
    unfold Machine.nsec
    omega
  unfold formatTail
  rw [runs_bind]
  refine (chainBlocs_writes _ 1 s slotted bound).mono ?_ ?_
  · intro _ t chained
    obtain ⟨reaches,writes,magic',first'⟩ := chained
    rw [one] at reaches writes
    have all : ∀ k, 1 ≤ k → k < s.nsec → s.vol.seek k < 32768 := fun k low high => reaches k low (by omega)
    have vol := writes.vol
    rw [runs_bind]
    refine (runs_saveSuper_at (writes.slotted slotted) (magic'.trans magic)).mono ?_ ?_
    · intro _ u saved
      obtain ⟨reach,writes',super,_⟩ := saved
      rw [vol] at reach
      have both := writes.trans writes'
      have kept := ready_kept both
      rw [runs_bind]
      refine (createIfile_writes (both.slotted slotted) (by rw [super]; exact magic'.trans magic)
        (by rw [super]; exact first'.trans first) (by rw [both.vol]; exact reach) .directory).mono ?_ ?_
      · intro root v created
        obtain ⟨ready,writes'',magic''⟩ := created
        have three := both.trans writes''
        have rooted : Writes s {v with super := {v.super with rootInumber := root}}
            (fun b => (s.Chained 1 (s.nsec-1) b ∨ b = 0) ∨ b = 0 ∨ b = 1) := ⟨three.mbr,three.volume,three.journal,three.disk⟩
        rw [runs_bind,runs_modify,runs_bind]
        refine (runs_saveSuper_at (rooted.slotted slotted) magic'').mono ?_ ?_
        · intro _ w saved
          obtain ⟨_,last,super',_⟩ := saved
          have marked : w.super.magic = superMagic := by rw [super']; exact magic''
          rw [runs_bind,runs_get,runs_ensure,if_pos marked]
          exact (rooted.trans last).congr (formatted_whole all reach fun few => (kept few).mp ready)
        · intro _ w stuck
          rw [rooted.vol] at stuck
          exact absurd reach stuck.1
      · intro _ v stuck
        refine (both.trans stuck.2).congr fun b => ?_
        rw [or_false]
        exact formatted_short all (fun short => stuck.1 ((kept short.2.1).mpr short.2.2)) b
    · intro _ u stuck
      rw [vol] at stuck
      exact (writes.trans stuck.2).congr (formatted_short all fun short => stuck.1 short.1)
  · intro _ t stuck
    obtain ⟨⟨k,low,high,unreached⟩,writes⟩ := stuck
    rw [one] at writes low high
    refine writes.congr fun b => ?_
    constructor
    · exact Or.inl
    · intro formatted
      rcases formatted with chained | ⟨all,_⟩
      · exact chained
      · exact absurd (all k low (by omega)) unreached

theorem initSuper_writes (slotted : Selected (s.opened vol)) (serial : Word) (name : Vector Byte 32) :
    Runs (initSuper vol serial name) s (fun _ t => Writes (s.opened vol) t (s.opened vol).Formatted)
      (fun _ t => Writes (s.opened vol) t (s.opened vol).Formatted) := by
  have tail := formatTail_writes (s := {s.read with
      super := ⟨superMagic,serial,strncpy 32 (cstring name),0,1,0,-1⟩,currentVolume := vol}) ⟨slotted.magic,slotted.slot⟩ rfl rfl
  unfold initSuper
  rw [runs_bind,runs_eq (readMbr_exact s),runs_bind,runs_modify,runs_bind,runs_get]
  exact tail.mono (fun _ t writes => ⟨writes.mbr,writes.volume,writes.journal,writes.disk⟩)
    fun _ t writes => ⟨writes.mbr,writes.volume,writes.journal,writes.disk⟩

-- The number that init_super is called with, if any.
def Mbr.given (m : Mbr) (outside : Int → Word) (vol : Word) (typed : List Word) : Option Word :=
  if vol.toInt < 0 then typed.find? fun vol => ¬ m.Refuses outside vol else some vol

theorem runs_volumeLoop {Q : Word → Machine → Prop} {E : Stop → Machine → Prop} (outside : Int → Word) (typed : List Word) :
    Runs (volumeLoop outside typed) s Q E ↔ match typed.find? fun vol => ¬ s.mbr.Refuses outside vol with
      | some vol => Q vol s
      | none => E .exit s := by
  induction typed with
  | nil => exact runs_stop
  | cons vol typed ih =>
      rw [volumeLoop,runs_bind,runs_get,runs_ite]
      by_cases refused : s.mbr.Refuses outside vol
      · rw [List.find?_cons_of_neg (by simp [refused]),if_pos refused]
        exact ih
      · rw [List.find?_cons_of_pos (by simp [refused]),if_neg refused,runs_pure]

theorem runs_mknfs {Q : Unit → Machine → Prop} {E : Stop → Machine → Prop} (outside : Int → Word) (vol serial : Word)
    (name : List Byte) (typed : List Word) (typedSerial : Word) :
    Runs (mknfs outside vol serial name typed typedSerial) s Q E ↔ match s.recorded.given outside vol typed with
      | some vol => Runs (initSuper vol (if serial.toInt < 0 then typedSerial else serial) (strncpy 32 name)) s.read Q E
      | none => E .exit s.read := by
  unfold mknfs Mbr.given
  rw [runs_bind,runs_eq (readMbr_exact s),runs_ite]
  by_cases prompt : vol.toInt < 0
  · rw [if_pos prompt,if_pos prompt,runs_bind,runs_volumeLoop]
    rfl
  · rw [if_neg prompt,if_neg prompt,runs_bind,runs_pure]

theorem runs_mknfs_accepted {Q : Unit → Machine → Prop} {E : Stop → Machine → Prop} {name : List Byte}
    (accepted : s.recorded.given outside vol typed = some v)
    (ran : Runs (initSuper v (if serial.toInt < 0 then typedSerial else serial) (strncpy 32 name)) s.read Q E) :
    Runs (mknfs outside vol serial name typed typedSerial) s Q E := by
  rw [runs_mknfs,accepted]
  exact ran

-- init_super writes sectors of its volume only, and not the one of the MBR: each
-- call names a bloc of the volume, and the bloc lies on the disk.
structure OwnSectors (s t : Machine) : Prop where
  below : s.currentVolume.toNat < s.mbr.nbvols.toNat
  journal : ∃ calls, t.journal = calls ++ s.journal ∧ ∀ call ∈ calls, call.volume = s.currentVolume ∧
    call.target < s.nsec ∧ s.start+call.target < 32768 ∧ s.start+call.target ≠ 0
  disk : ∀ p, (∀ b, b < s.nsec → s.start+b ≠ p) → t.hda.sectors p = s.hda.sectors p
  mbr : t.hda.sectors 0 = s.hda.sectors 0

-- A volume of the table whose formatting stays inside: it has a sector, lies on
-- the disk and not on the sector of the MBR, and where it has one sector only,
-- there is no marked bloc behind it.
structure Formattable (s : Machine) : Prop where
  below : s.currentVolume.toNat < s.mbr.nbvols.toNat
  room : s.nsec ≠ 0
  inside : s.start+s.nsec ≤ 32768
  head : s.start ≠ 0
  lone : s.nsec = 1 → ¬ s.Ready

-- On the disk the registers of the drive hold the whole position.
theorem seek_inside (inside : s.start+k < 32768) : s.vol.seek k = s.start+k := Nat.mod_eq_of_lt (by unfold Machine.start at inside; omega)

theorem formatted_on_disk (own : ∀ b, s.Formatted b → b < s.nsec ∧ s.start+b < 32768 ∧ s.start+b ≠ 0) :
    ∀ b, b < s.nsec → s.start+b < 32768 := by
  intro b
  induction b using Nat.strongRecOn with
  | ind b ih =>
      intro few
      -- a bloc behind the first is reached when those before it are
      have chained : ∀ b, 1 ≤ b → b < s.nsec → (∀ k, 1 ≤ k → k < b → s.start+k < 32768) → s.start+b < 32768 := by
        intro b low high before
        refine (own b (Or.inl ⟨low,by omega,fun k low' high' => ?_⟩)).2.1
        rw [seek_inside (before k low' high')]
        exact before k low' high'
      rcases Nat.eq_zero_or_pos b with zero | later
      · by_cases single : s.nsec = 1
        · rw [zero]
          exact (own 0 (Or.inr ⟨fun k low high => absurd high (by omega),Or.inl rfl⟩)).2.1
        · have second := chained 1 (Nat.le_refl _) (by omega) fun k low high => absurd high (by omega)
          omega
      · exact chained b later few fun k low high => ih k high (by omega)

theorem formatted_own (below : s.currentVolume.toNat < s.mbr.nbvols.toNat) :
    (∀ b, s.Formatted b → b < s.nsec ∧ s.start+b < 32768 ∧ s.start+b ≠ 0) ↔ Formattable s := by
  constructor
  · intro own
    have inside := formatted_on_disk own
    have reached : ∀ k, 1 ≤ k → k < s.nsec → s.vol.seek k < 32768 := by
      intro k _ high
      rw [seek_inside (inside k high)]
      exact inside k high
    obtain ⟨room,start,head⟩ := own 0 (Or.inr ⟨reached,Or.inl rfl⟩)
    refine ⟨below,by omega,?_,head,fun lone ready => ?_⟩
    · have last := inside (s.nsec-1) (by omega)
      omega
    · have first : s.vol.seek 0 < 32768 := by
        rw [seek_inside start]
        exact start
      have second := (own 1 (Or.inr ⟨reached,Or.inr ⟨rfl,by omega,first,ready⟩⟩)).1
      omega
  · intro formattable b formatted
    have room := formattable.room
    have inside := formattable.inside
    have head := formattable.head
    rcases formatted with ⟨low,high,_⟩ | ⟨_,zero | ⟨_,few,_,ready⟩⟩
    · exact ⟨by omega,by omega,by omega⟩
    · exact ⟨by omega,by omega,by omega⟩
    · exact absurd ready (formattable.lone (by omega))

-- mknfs rejects its number and leaves the disk alone, or formats that volume only.
def Respects (s t : Machine) : Option Word → Prop
  | some vol => OwnSectors (s.opened vol) t
  | none => t.journal = s.journal ∧ t.hda.sectors = s.hda.sectors

theorem writes_own (writes : Writes s t s.Formatted) : OwnSectors s t ↔ Formattable s := by
  constructor
  · intro own
    refine (formatted_own own.below).mp fun b formatted => ?_
    obtain ⟨calls,equal,_,exact⟩ := writes.journal
    obtain ⟨calls',equal',all⟩ := own.journal
    have same : calls = calls' := List.append_cancel_right (equal.symm.trans equal')
    obtain ⟨call,member,target⟩ := (exact b).mp formatted
    rw [← target]
    exact (all call (same ▸ member)).2
  · intro formattable
    have own := (formatted_own formattable.below).mpr formattable
    have reached : ∀ b, s.Formatted b → s.vol.seek b = s.start+b := fun b formatted => seek_inside (own b formatted).2.1
    obtain ⟨calls,equal,volumes,exact⟩ := writes.journal
    refine ⟨formattable.below,⟨calls,equal,fun call member => ?_⟩,fun p away => writes.disk p fun b formatted => ?_,
      writes.disk 0 fun b formatted => ?_⟩
    · exact ⟨volumes call member,own _ ((exact _).mpr ⟨call,member,rfl⟩)⟩
    · rw [reached b formatted]
      exact away b (own b formatted).1
    · rw [reached b formatted]
      exact (own b formatted).2.2

-- For every table that calls lead to and every number, given on the command line
-- or typed, mknfs keeps to a volume of the table exactly when the number it
-- accepts names a volume that can be formatted in place.
theorem format_own_exact (run : Run VolumeStep noVolumes past w) (held : s.recorded = w.table.mbr) (outside : Int → Word)
    (vol serial : Word) (name : List Byte) (typed : List Word) (typedSerial : Word) :
    Respects s (mknfs outside vol serial name typed typedSerial s).2 (s.recorded.given outside vol typed) ↔
      ∀ v, s.recorded.given outside vol typed = some v → Formattable (s.opened v) := by
  obtain ⟨listed,magic⟩ := volumes_listed run
  rw [← held] at listed magic
  have rule := fun Q E => @runs_mknfs s Q E outside vol serial name typed typedSerial
  cases accepted : s.recorded.given outside vol typed with
  | none =>
      rw [accepted] at rule
      have rejected : Respects s (mknfs outside vol serial name typed typedSerial s).2 none :=
        ((rule (fun _ t => Respects s t none) fun _ t => Respects s t none).mpr ⟨rfl,rfl⟩).outcome
      exact iff_of_true rejected (by simp)
  | some v =>
      rw [accepted] at rule
      simp only [Option.some.injEq,forall_eq']
      by_cases slot : v.toNat < 8
      · have slotted : Selected (s.read.opened v) := ⟨magic,slot⟩
        have writes : Writes (s.opened v) (mknfs outside vol serial name typed typedSerial s).2 (s.opened v).Formatted := by
          refine ((rule (fun _ t => Writes (s.opened v) t (s.opened v).Formatted) fun _ t =>
            Writes (s.opened v) t (s.opened v).Formatted).mpr ?_).outcome
          exact (initSuper_writes slotted _ _).mono (fun _ t writes => ⟨writes.mbr,writes.volume,writes.journal,writes.disk⟩)
            fun _ t writes => ⟨writes.mbr,writes.volume,writes.journal,writes.disk⟩
        exact writes_own writes
      · have few : ¬ (s.opened v).currentVolume.toNat < (s.opened v).mbr.nbvols.toNat := by
          have count := listed.count
          have room := listed.room
          show ¬ v.toNat < s.recorded.nbvols.toNat
          omega
        exact iff_of_false (fun own => few own.below) fun formattable => few formattable.below

-- A disk to which write_mbr has written a table, and nothing else.
def tableSectors (m : Mbr) (p : Nat) : Sector := if p = 0 then overlay m.encode (zeros 8 512) else zeros 8 512
def tableDisk (m : Mbr) : Machine := {recordedDisk .empty with hda := ⟨tableSectors m,zeros 8 512,0⟩}

theorem tableDisk_recorded (magic : m.magicNumber = mbrMagic) : (tableDisk m).recorded = m := by
  have sector : (tableDisk m).hda.sectors 0 = tableSectors m 0 := rfl
  unfold Machine.recorded
  rw [sector,tableSectors,if_pos rfl,Mbr.decode_encode,if_neg (not_not.mpr magic)]

theorem format_own_exact_first : ∃ past w s, Run VolumeStep noVolumes past w ∧ s.recorded = w.table.mbr ∧
    w.live = [⟨1,1,16000,0,0⟩] ∧ Respects s (mknfs (fun _ => 0) 0 7 [120] [] 0 s).2 (some 0) := by
  have step : VolumeStep noVolumes (.create 1 1 16000 0) (VolumeCall.next (fun _ => 0) noVolumes (.create 1 1 16000 0)) :=
    ⟨⟨fun _ => 0,rfl⟩,rfl⟩
  have recorded := tableDisk_recorded (m := (VolumeCall.next (fun _ => 0) noVolumes (.create 1 1 16000 0)).table.mbr) rfl
  refine ⟨_,_,_,.single step,recorded,by decide,?_⟩
  have exact := format_own_exact (.single step) recorded (fun _ => 0) 0 7 [120] [] 0
  refine exact.mpr fun v given => ?_
  cases Option.some.inj given
  have slot : (tableDisk (VolumeCall.next (fun _ => 0) noVolumes (.create 1 1 16000 0)).table.mbr).opened 0 =
      {tableDisk (VolumeCall.next (fun _ => 0) noVolumes (.create 1 1 16000 0)).table.mbr with
        mbr := (VolumeCall.next (fun _ => 0) noVolumes (.create 1 1 16000 0)).table.mbr,currentVolume := 0} := by
    unfold Machine.opened
    rw [recorded]
  rw [slot]
  exact ⟨by decide,by decide,by decide,by decide,fun lone => absurd lone (by decide)⟩

-- The superbloc of an empty slot lands on the sector of the MBR.
theorem runs_initSuper_empty (slotted : Selected (s.opened vol)) (empty : (s.opened vol).vol = .empty)
    (unmarked : wordAt (s.hda.sectors 1) 0 ≠ blocMagic) (serial : Word) (name : Vector Byte 32) :
    Runs (initSuper vol serial name) s (fun _ _ => False) (fun _ t => wordAt (t.hda.sectors 0) 0 = superMagic) := by
  have seeks : ∀ b, b < 2 → Vol.seek .empty b = b := by decide
  unfold initSuper
  rw [runs_bind,runs_eq (readMbr_exact s),runs_bind,runs_modify,runs_bind,runs_get]
  have opened : Selected {s.read with
      super := ⟨superMagic,serial,strncpy 32 (cstring name),0,1,0,-1⟩,currentVolume := vol} := ⟨slotted.magic,slotted.slot⟩
  have vacant : Machine.vol {s.read with
      super := ⟨superMagic,serial,strncpy 32 (cstring name),0,1,0,-1⟩,currentVolume := vol} = .empty := empty
  have sector : ∀ p, Hda.sectors (Machine.hda {s.read with
      super := ⟨superMagic,serial,strncpy 32 (cstring name),0,1,0,-1⟩,currentVolume := vol}) p = s.hda.sectors p := fun _ => rfl
  have super : Machine.super {s.read with
      super := ⟨superMagic,serial,strncpy 32 (cstring name),0,1,0,-1⟩,currentVolume := vol} =
        ⟨superMagic,serial,strncpy 32 (cstring name),0,1,0,-1⟩ := rfl
  generalize ({s.read with super := ⟨superMagic,serial,strncpy 32 (cstring name),0,1,0,-1⟩,currentVolume := vol} : Machine) = o
    at opened vacant sector super ⊢
  dsimp only
  rw [vacant]
  show Runs (formatTail 0) o _ _
  unfold formatTail
  rw [runs_bind,chainBlocs,runs_pure,runs_bind]
  have magic : o.super.magic = superMagic := by rw [super]
  refine (runs_saveSuper_at opened magic).mono ?_ ?_
  · intro _ t saved
    obtain ⟨reach,writes,same,sector0⟩ := saved
    have first : t.super.premierLibre = 1 := by rw [same,super]
    rw [vacant,seeks 0 (by decide)] at sector0
    have kept : t.hda.sectors 1 = s.hda.sectors 1 := by
      rw [writes.disk 1 fun b head => by rw [head,vacant,seeks 0 (by decide)]; decide,sector]
    rw [runs_bind]
    refine (createIfile_writes (writes.slotted opened) (by rw [same]; exact magic) first
      (by rw [writes.vol]; exact reach) .directory).mono ?_ ?_
    · intro _ u created
      have ready := created.1.2
      rw [writes.vol,vacant,seeks 1 (by decide),kept] at ready
      exact absurd ready unmarked
    · intro _ u stuck
      rw [stuck.2.disk 0 (by simp),sector0,Super.wordAt_encode _ _ (by decide),super]
      rfl
  · intro _ t stuck
    rw [vacant,seeks 0 (by decide)] at stuck
    exact absurd (by decide : 0 < 32768) stuck.1

-- Without a volume in the table, any number below MAXVOL given on the command
-- line costs the MBR.
theorem mknfs_overwrites (recorded : s.recorded = emptyMbr) (unmarked : wordAt (s.hda.sectors 1) 0 ≠ blocMagic)
    (slot : vol.toNat < 8) (outside : Int → Word) (serial : Word) (name : List Byte) (typed : List Word) (typedSerial : Word) :
    wordAt ((mknfs outside vol serial name typed typedSerial s).2.hda.sectors 0) 0 = superMagic := by
  have opened : Selected (s.read.opened vol) := ⟨congrArg Mbr.magicNumber recorded,slot⟩
  have empty : (s.read.opened vol).vol = .empty := by
    show s.recorded.vol vol.toNat = .empty
    rw [recorded]
    simp [emptyMbr,Mbr.vol,slot]
  have positive : ¬ vol.toInt < 0 := by
    rw [BitVec.toInt_eq_toNat_cond]
    omega
  have accepted : s.recorded.given outside vol typed = some vol := if_neg positive
  have formatted := runs_initSuper_empty opened empty unmarked (if serial.toInt < 0 then typedSerial else serial) (strncpy 32 name)
  have ran : Runs (mknfs outside vol serial name typed typedSerial) s (fun _ t => wordAt (t.hda.sectors 0) 0 = superMagic)
      (fun _ t => wordAt (t.hda.sectors 0) 0 = superMagic) :=
    runs_mknfs_accepted accepted (formatted.mono (fun _ _ => False.elim) fun _ _ => id)
  generalize mknfs outside vol serial name typed typedSerial = p at ran ⊢
  exact ran.outcome

-- A disk that nothing has been written to.
def blankDisk : Machine := {recordedDisk .empty with hda := ⟨fun _ => zeros 8 512,zeros 8 512,0⟩}

theorem blankDisk_recorded : blankDisk.recorded = emptyMbr := by
  have blank : (Mbr.decode (blankDisk.hda.sectors 0)).magicNumber = 0 := wordAt_zeros 41
  unfold Machine.recorded
  rw [blank,if_pos (by decide)]

theorem format_overwrites_mbr : Run VolumeStep noVolumes [] noVolumes ∧ blankDisk.recorded = noVolumes.table.mbr ∧
    wordAt ((mknfs (fun _ => 0) 0 4242 [120] [] 0 blankDisk).2.hda.sectors 0) 0 = superMagic ∧
    ¬ Respects blankDisk (mknfs (fun _ => 0) 0 4242 [120] [] 0 blankDisk).2 (blankDisk.recorded.given (fun _ => 0) 0 []) := by
  have recorded := blankDisk_recorded
  have unmarked : wordAt (blankDisk.hda.sectors 1) 0 = 0 := wordAt_zeros 0
  refine ⟨.start _,recorded,mknfs_overwrites recorded (by rw [unmarked]; decide) (by decide) _ _ _ _ _,fun own => ?_⟩
  have below := OwnSectors.below (s := blankDisk.opened 0) own
  have few : (blankDisk.opened 0).mbr = emptyMbr := recorded
  rw [few] at below
  exact absurd below (by decide)

end AsePlusPlus
