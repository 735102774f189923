import AsePlusPlus.Mbr
import AsePlusPlus.Lib.Trace

namespace AsePlusPlus
open Words Program Trace

-- The words of memory from `mbr` on: the slots, `nbvols`, the magic number and
-- what the linker has put behind.
def Mbr.memory (m : Mbr) (behind : Nat → Word) (k : Nat) : Word :=
  if k < 40 then (m.vol (k/5)).word (k%5) else if k = 40 then m.nbvols else if k = 41 then m.magicNumber else behind (k-42)

-- mbr_vol[i], also for an index outside of the table.
def Mbr.slot (m : Mbr) (behind : Nat → Word) (i : Nat) : Vol :=
  ⟨m.memory behind (5*i),m.memory behind (5*i+1),m.memory behind (5*i+2),m.memory behind (5*i+3),m.memory behind (5*i+4)⟩

def Mbr.setVol (m : Mbr) (i : Nat) (v : Vol) : Mbr := {m with mbrVol := m.mbrVol.setIfInBounds i v}

-- The table with the indices of mbr_vol that the calls have read or written,
-- newest first; nothing reads them back.
structure VolTable where
  mbr : Mbr
  touched : List Nat

def createVolume (cylinder sector nsectors volType : Word) (t : VolTable) : VolTable :=
  if t.mbr.nbvols.toNat = maxvol then
    t
  else
    let new : Vol := ⟨cylinder,sector,nsectors,volType,0⟩
    ⟨{t.mbr.setVol t.mbr.nbvols.toNat new with nbvols := t.mbr.nbvols+1},t.mbr.nbvols.toNat :: t.touched⟩

-- for (i = number+1; i <= nbvols; i++), with the rounds left as count.
def shiftVols (behind : Nat → Word) : Nat → Nat → VolTable → VolTable
  | 0,_,t => t
  | count+1,i,t => shiftVols behind count (i+1) ⟨t.mbr.setVol (i-1) (t.mbr.slot behind i),(i-1) :: i :: t.touched⟩

def deleteVolume (behind : Nat → Word) (number : Word) (t : VolTable) : VolTable :=
  if t.mbr.nbvols ≤ number then
    t
  else
    let t := shiftVols behind (t.mbr.nbvols.toNat-number.toNat) (number.toNat+1) t
    {t with mbr := {t.mbr with nbvols := t.mbr.nbvols-1}}

-- What read_mbr builds when sector (0,0) does not carry the magic number.
def emptyMbr : Mbr := ⟨Vector.replicate 8 .empty,0,mbrMagic⟩

-- The table that read_mbr finds on the disk.
def Machine.recorded (s : Machine) : Mbr :=
  if (Mbr.decode (s.hda.sectors 0)).magicNumber ≠ mbrMagic then emptyMbr else Mbr.decode (s.hda.sectors 0)

def Machine.read (s : Machine) : Machine := {s with hda := {s.hda with master := s.hda.sectors 0,head := 0},mbr := s.recorded}

theorem readMbr_exact (s : Machine) : readMbr s = (.ok (),s.read) := by
  have positive : (512 : Nat) ≠ 0 := by decide
  have inside : (0 : Word).toNat % 65536 < 1024 ∧ (0 : Word).toNat % 65536 < 32 := by decide
  refine Runs.equal fun Q => ?_
  simp only [readMbr,readSector,readNsector,runs_bind,runs_ensure,if_pos positive,runs_seekSector inside.1 inside.2,
    cmdRead,runs_modify,runs_get,runs_pure,build_cell,runs_ite]
  unfold Machine.read Machine.recorded
  by_cases blank : (Mbr.decode (s.hda.sectors 0)).magicNumber ≠ mbrMagic
  · rw [if_pos blank]
    exact iff_of_eq (if_pos blank)
  · rw [if_neg blank]
    exact iff_of_eq (if_neg blank)

theorem slot_inside (m : Mbr) (behind : Nat → Word) (inside : i < 8) : m.slot behind i = m.vol i := by
  have word : ∀ f, f < 5 → m.memory behind (5*i+f) = (m.vol i).word f := by
    intro f bound
    have quotient : (5*i+f)/5 = i := by omega
    have remainder : (5*i+f)%5 = f := by omega
    unfold Mbr.memory
    rw [if_pos (by omega),quotient,remainder]
  unfold Mbr.slot
  rw [word 1 (by decide),word 2 (by decide),word 3 (by decide),word 4 (by decide)]
  have first := word 0 (by decide)
  rw [Nat.add_zero] at first
  rw [first]
  rfl

theorem vol_setVol (m : Mbr) (v : Vol) (inside : i < 8) (j : Nat) :
    (m.setVol i v).vol j = if j = i then v else m.vol j := by
  unfold Mbr.setVol Mbr.vol
  by_cases same : j = i
  · subst same
    simp [inside]
  · simp [same,Vector.getElem?_setIfInBounds_ne (Ne.symm same)]

theorem slot_setVol (m : Mbr) (behind : Nat → Word) (v : Vol) (inside : i < 8) (other : j ≠ i) :
    (m.setVol i v).slot behind j = m.slot behind j := by
  have word : ∀ f, f < 5 → (m.setVol i v).memory behind (5*j+f) = m.memory behind (5*j+f) := by
    intro f bound
    have quotient : (5*j+f)/5 = j := by omega
    unfold Mbr.memory
    rw [quotient,vol_setVol m v inside,if_neg other]
    rfl
  have first := word 0 (by decide)
  rw [Nat.add_zero] at first
  unfold Mbr.slot
  rw [first,word 1 (by decide),word 2 (by decide),word 3 (by decide),word 4 (by decide)]

-- The loop pulls every slot of its range one place down; the last round reads
-- the slot at nbvols.
theorem shiftVols_spec (behind : Nat → Word) (count : Nat) : ∀ i t, 0 < i → i+count ≤ 9 →
    (∀ j, (shiftVols behind count i t).mbr.vol j =
      if i ≤ j+1 ∧ j+1 < i+count then t.mbr.slot behind (j+1) else t.mbr.vol j) ∧
    (shiftVols behind count i t).mbr.nbvols = t.mbr.nbvols ∧
    (∀ k, k ∈ (shiftVols behind count i t).touched ↔ k ∈ t.touched ∨ (0 < count ∧ i ≤ k+1 ∧ k < i+count)) := by
  induction count with
  | zero =>
      intro i t _ _
      refine ⟨fun j => ?_,rfl,fun k => by simp [shiftVols]⟩
      rw [if_neg (by omega)]
      rfl
  | succ count ih =>
      intro i t positive bound
      obtain ⟨vols,nb,touched⟩ := ih (i+1) ⟨t.mbr.setVol (i-1) (t.mbr.slot behind i),(i-1) :: i :: t.touched⟩ (by omega) (by omega)
      refine ⟨fun j => ?_,nb,fun k => ?_⟩
      · rw [shiftVols,vols j]
        dsimp only
        by_cases later : i+1 ≤ j+1 ∧ j+1 < i+1+count
        · rw [if_pos later,if_pos (by omega),slot_setVol _ _ _ (by omega) (by omega)]
        · rw [if_neg later,vol_setVol _ _ (by omega)]
          by_cases now : j = i-1
          · rw [if_pos now,if_pos (by omega)]
            congr 1
            omega
          · rw [if_neg now,if_neg (by omega)]
      · rw [shiftVols,touched k,List.mem_cons,List.mem_cons]
        by_cases old : k ∈ t.touched
        · simp only [old,or_true,true_or]
        · simp only [old,or_false,false_or]
          omega

theorem shiftVols_magic (behind : Nat → Word) (count : Nat) :
    ∀ i t, (shiftVols behind count i t).mbr.magicNumber = t.mbr.magicNumber := by
  induction count with
  | zero => exact fun _ _ => rfl
  | succ count ih => exact fun i t => ih _ _

inductive VolumeCall where
  | create (cylinder sector nsectors volType : Word)
  | delete (number : Word)

def VolumeCall.run (behind : Nat → Word) : VolumeCall → VolTable → VolTable
  | .create cylinder sector nsectors volType,t => createVolume cylinder sector nsectors volType t
  | .delete number,t => deleteVolume behind number t

-- What the calls mean on the list of live volumes: append, refused at MAXVOL,
-- and erase at the given index.
def VolumeCall.apply (live : List Vol) : VolumeCall → List Vol
  | .create cylinder sector nsectors volType =>
    if live.length = maxvol then live else live ++ [⟨cylinder,sector,nsectors,volType,0⟩]
  | .delete number => live.eraseIdx number.toNat

-- The table in memory next to the list it should be. What lies behind `mbr`
-- may be different at every call.
structure Volumes where
  table : VolTable
  live : List Vol

def noVolumes : Volumes := ⟨⟨emptyMbr,[]⟩,[]⟩

def VolumeStep (s : Volumes) (c : VolumeCall) (t : Volumes) : Prop :=
  (∃ behind, t.table = c.run behind s.table) ∧ t.live = c.apply s.live

-- The first nbvols slots are the list.
structure Listed (m : Mbr) (live : List Vol) : Prop where
  count : m.nbvols.toNat = live.length
  room : live.length ≤ 8
  slots : ∀ i (inside : i < live.length), m.vol i = live[i]

theorem createVolume_listed (listed : Listed t.mbr live) (cylinder sector nsectors volType : Word) :
    Listed (createVolume cylinder sector nsectors volType t).mbr
      (VolumeCall.apply live (.create cylinder sector nsectors volType)) := by
  unfold createVolume
  rw [listed.count]
  dsimp only [VolumeCall.apply]
  by_cases full : live.length = maxvol
  · rwa [if_pos full,if_pos full]
  rw [if_neg full,if_neg full]
  have bound : live.length < 8 := Nat.lt_of_le_of_ne listed.room full
  have count := listed.count
  refine ⟨?_,?_,?_⟩
  · rw [List.length_append,List.length_singleton]
    show (t.mbr.nbvols+1).toNat = _
    rw [BitVec.toNat_add]
    have one : (1 : Word).toNat = 1 := rfl
    omega
  · rw [List.length_append,List.length_singleton]
    exact bound
  · intro i inside
    rw [List.length_append,List.length_singleton] at inside
    refine (vol_setVol t.mbr _ bound i).trans ?_
    by_cases last : i = live.length
    · rw [if_pos last,List.getElem_append_right (by omega)]
      simp
    · rw [if_neg last,List.getElem_append_left (by omega)]
      exact listed.slots i (by omega)

theorem deleteVolume_listed (listed : Listed t.mbr live) (behind : Nat → Word) (number : Word) :
    Listed (deleteVolume behind number t).mbr (live.eraseIdx number.toNat) := by
  have count := listed.count
  have room := listed.room
  unfold deleteVolume
  by_cases missing : t.mbr.nbvols ≤ number
  · have beyond : live.length ≤ number.toNat := by rw [← count]; exact missing
    rwa [if_pos missing,List.eraseIdx_of_length_le beyond]
  have present : number.toNat < live.length := by
    rw [← count]
    exact BitVec.not_le.mp missing
  rw [if_neg missing]
  obtain ⟨vols,nb,_⟩ := shiftVols_spec behind (t.mbr.nbvols.toNat-number.toNat) (number.toNat+1) t (by omega) (by omega)
  have shorter := List.length_eraseIdx_of_lt present
  refine ⟨?_,by omega,?_⟩
  · dsimp only
    rw [nb,shorter,BitVec.toNat_sub]
    have one : (1 : Word).toNat = 1 := rfl
    omega
  · intro i inside
    rw [shorter] at inside
    refine (vols i).trans ?_
    rw [List.getElem_eraseIdx]
    by_cases before : i < number.toNat
    · rw [if_neg (by omega),dif_pos before]
      exact listed.slots i (by omega)
    · rw [if_pos (by omega),dif_neg before,slot_inside _ _ (by omega)]
      exact listed.slots (i+1) (by omega)

theorem VolumeStep.listed (taken : VolumeStep s c t) (listed : Listed s.table.mbr s.live) : Listed t.table.mbr t.live := by
  obtain ⟨⟨behind,table⟩,live⟩ := taken
  rw [table,live]
  cases c with
  | create cylinder sector nsectors volType => exact createVolume_listed listed cylinder sector nsectors volType
  | delete number => exact deleteVolume_listed listed behind number

theorem VolumeStep.magic (taken : VolumeStep s c t) :
    t.table.mbr.magicNumber = s.table.mbr.magicNumber := by
  obtain ⟨⟨behind,table⟩,_⟩ := taken
  rw [table]
  cases c with
  | create cylinder sector nsectors volType =>
      show (createVolume cylinder sector nsectors volType s.table).mbr.magicNumber = _
      unfold createVolume
      split <;> rfl
  | delete number =>
      show (deleteVolume behind number s.table).mbr.magicNumber = _
      unfold deleteVolume
      split
      · rfl
      · exact shiftVols_magic behind _ _ _

-- The tables that any history of calls leads to.
theorem volumes_listed (run : Run VolumeStep noVolumes past t) :
    Listed t.table.mbr t.live ∧ t.table.mbr.magicNumber = mbrMagic := by
  have first : Listed noVolumes.table.mbr noVolumes.live ∧ noVolumes.table.mbr.magicNumber = mbrMagic :=
    ⟨⟨rfl,by decide,fun i inside => absurd inside (Nat.not_lt_zero i)⟩,rfl⟩
  have keep : ∀ t c u, Listed t.table.mbr t.live ∧ t.table.mbr.magicNumber = mbrMagic → True → VolumeStep t c u →
      Listed u.table.mbr u.live ∧ u.table.mbr.magicNumber = mbrMagic :=
    fun _ _ _ both _ taken => ⟨taken.listed both.1,taken.magic.trans both.2⟩
  exact (run.keeps (fun _ _ => True) keep first fun _ _ => trivial).1

-- The invariant of the table: it is the list, no call left mbr_vol, and a slot
-- that is not in use has no sectors.
structure Kept (s : Volumes) : Prop where
  listed : Listed s.table.mbr s.live
  inside : ∀ k ∈ s.table.touched, k < 8
  vacant : ∀ i, s.live.length ≤ i → i < 8 → (s.table.mbr.vol i).volNsectors = 0

-- The loop of delete_volume reads the slot at nbvols, and a full table has none.
def Spare (s : Volumes) : VolumeCall → Prop
  | .create .. => True
  | .delete number => s.table.mbr.nbvols ≤ number ∨ s.table.mbr.nbvols.toNat < maxvol

theorem Kept.first : Kept noVolumes := by
  refine ⟨⟨rfl,by decide,fun i inside => absurd inside (Nat.not_lt_zero i)⟩,by simp [noVolumes],?_⟩
  intro i _ inside
  simp [noVolumes,emptyMbr,Mbr.vol,Vol.empty,inside]

theorem createVolume_touched (t : VolTable) (cylinder sector nsectors volType : Word)
    (member : k ∈ (createVolume cylinder sector nsectors volType t).touched) :
    k ∈ t.touched ∨ (k = t.mbr.nbvols.toNat ∧ t.mbr.nbvols.toNat ≠ maxvol) := by
  unfold createVolume at member
  by_cases full : t.mbr.nbvols.toNat = maxvol
  · rw [if_pos full] at member
    exact Or.inl member
  · rw [if_neg full] at member
    rcases List.mem_cons.mp member with new | old
    · exact Or.inr ⟨new,full⟩
    · exact Or.inl old

theorem Kept.create (kept : Kept s) (cylinder sector nsectors volType : Word) (t : Volumes)
    (table : t.table = createVolume cylinder sector nsectors volType s.table)
    (live : t.live = VolumeCall.apply s.live (.create cylinder sector nsectors volType)) : Kept t := by
  have listed := createVolume_listed kept.listed cylinder sector nsectors volType
  have count := kept.listed.count
  have room := kept.listed.room
  refine ⟨by rw [table,live]; exact listed,?_,?_⟩
  · intro k member
    rw [table] at member
    rcases createVolume_touched _ _ _ _ _ member with old | ⟨new,full⟩
    · exact kept.inside k old
    · have bound : s.table.mbr.nbvols.toNat ≠ 8 := full
      omega
  · rw [table,live]
    unfold createVolume
    rw [count]
    dsimp only [VolumeCall.apply]
    by_cases full : s.live.length = maxvol
    · rw [if_pos full,if_pos full]
      exact kept.vacant
    · rw [if_neg full,if_neg full,List.length_append,List.length_singleton]
      have bound : s.live.length < 8 := Nat.lt_of_le_of_ne room full
      intro i beyond inside
      rw [← kept.vacant i (by omega) inside]
      refine congrArg Vol.volNsectors ((vol_setVol s.table.mbr _ bound i).trans ?_)
      exact if_neg (by omega)

theorem Kept.delete (kept : Kept s) (behind : Nat → Word) (number : Word) (spare : Spare s (.delete number)) (t : Volumes)
    (table : t.table = deleteVolume behind number s.table) (live : t.live = s.live.eraseIdx number.toNat) : Kept t := by
  have listed := deleteVolume_listed kept.listed behind number
  have count := kept.listed.count
  have room := kept.listed.room
  by_cases missing : s.table.mbr.nbvols ≤ number
  · have same : t = s := by
      have beyond : s.live.length ≤ number.toNat := by rw [← count]; exact missing
      cases s
      cases t
      unfold deleteVolume at table
      rw [if_pos missing] at table
      rw [List.eraseIdx_of_length_le beyond] at live
      cases table
      cases live
      rfl
    rw [same]
    exact kept
  have present : number.toNat < s.live.length := by
    rw [← count]
    exact BitVec.not_le.mp missing
  have free : s.table.mbr.nbvols.toNat < 8 := spare.resolve_left missing
  obtain ⟨vols,_,touched⟩ := shiftVols_spec behind (s.table.mbr.nbvols.toNat-number.toNat) (number.toNat+1) s.table
    (by omega) (by omega)
  refine ⟨by rw [table,live]; exact listed,?_,?_⟩
  · intro k member
    rw [table] at member
    unfold deleteVolume at member
    rw [if_neg missing] at member
    rcases (touched k).mp member with old | new
    · exact kept.inside k old
    · omega
  · rw [table,live,List.length_eraseIdx_of_lt present]
    intro i beyond inside
    unfold deleteVolume
    rw [if_neg missing]
    refine (congrArg Vol.volNsectors (vols i)).trans ?_
    by_cases pulled : number.toNat+1 ≤ i+1 ∧ i+1 < number.toNat+1+(s.table.mbr.nbvols.toNat-number.toNat)
    · rw [if_pos pulled,slot_inside _ _ (by omega)]
      exact kept.vacant (i+1) (by omega) (by omega)
    · rw [if_neg pulled]
      exact kept.vacant i (by omega) inside

theorem VolumeStep.keeps (kept : Kept s) (spare : Spare s c) (taken : VolumeStep s c t) : Kept t := by
  obtain ⟨⟨behind,table⟩,live⟩ := taken
  cases c with
  | create cylinder sector nsectors volType => exact kept.create cylinder sector nsectors volType t table live
  | delete number => exact kept.delete behind number spare t table live

-- Deleting from a full table reads mbr_vol[8].
theorem VolumeStep.spare (kept : Kept s) (taken : VolumeStep s c t) (after : Kept t) : Spare s c := by
  obtain ⟨⟨behind,table⟩,_⟩ := taken
  cases c with
  | create => trivial
  | delete number =>
      by_cases missing : s.table.mbr.nbvols ≤ number
      · exact Or.inl missing
      refine Or.inr (Nat.lt_of_not_le fun full => ?_)
      have count := kept.listed.count
      have room := kept.listed.room
      have eight : maxvol = 8 := rfl
      have present : number.toNat < s.table.mbr.nbvols.toNat := BitVec.not_le.mp missing
      obtain ⟨_,_,touched⟩ := shiftVols_spec behind (s.table.mbr.nbvols.toNat-number.toNat) (number.toNat+1) s.table
        (by omega) (by omega)
      have member : 8 ∈ t.table.touched := by
        rw [table]
        show 8 ∈ (deleteVolume behind number s.table).touched
        unfold deleteVolume
        rw [if_neg missing]
        exact (touched 8).mpr (Or.inr ⟨by omega,by omega,by omega⟩)
      exact absurd (after.inside 8 member) (by decide)

def VolumeCall.next (behind : Nat → Word) (s : Volumes) (c : VolumeCall) : Volumes := ⟨c.run behind s.table,c.apply s.live⟩

theorem run_calls (behind : Nat → Word) (calls : List VolumeCall) :
    ∀ s, ∃ past, Run VolumeStep s past (calls.foldl (VolumeCall.next behind) s) ∧ past.map Prod.snd = calls := by
  induction calls with
  | nil => exact fun s => ⟨[],.start s,rfl⟩
  | cons c rest ih =>
      intro s
      obtain ⟨past,run,same⟩ := ih (c.next behind s)
      have first : Run VolumeStep s [(s,c)] (c.next behind s) := .single ⟨⟨behind,rfl⟩,rfl⟩
      exact ⟨_,first.trans run,by rw [List.map_append,same]; rfl⟩

-- Over every history of the table, the invariant holds after each call exactly
-- when no volume was ever deleted from a full table.
theorem volume_table_exact (run : Run VolumeStep noVolumes past t) :
    (Kept t ∧ ∀ entry ∈ past, Kept entry.1) ↔ Met Spare past :=
  run.exact Spare (fun _ _ _ kept spare taken => taken.keeps kept spare) Kept.first (fun _ => id)
    (fun _ _ _ kept taken after => taken.spare kept after)

theorem volume_table_exact_two : ∃ past t, Run VolumeStep noVolumes past t ∧ t.live = [⟨1,1,16000,0,0⟩] ∧ Kept t := by
  let one := VolumeCall.next (fun _ => 1) noVolumes (.create 0 8 2 1)
  let two := VolumeCall.next (fun _ => 1) one (.create 1 1 16000 0)
  have step : ∀ s c, VolumeStep s c (VolumeCall.next (fun _ => 1) s c) := fun _ _ => ⟨⟨_,rfl⟩,rfl⟩
  have run := ((Run.single (step noVolumes (.create 0 8 2 1))).next (step one (.create 1 1 16000 0))).next
    (step two (.delete 0))
  have met : Met Spare ([(noVolumes,.create 0 8 2 1)] ++ [(one,.create 1 1 16000 0)] ++ [(two,.delete 0)]) := by
    refine met_snoc.mpr ⟨met_snoc.mpr ⟨?_,trivial⟩,Or.inr (by decide)⟩
    intro entry member
    cases List.mem_singleton.mp member
    trivial
  exact ⟨_,_,run,by decide,((volume_table_exact run).mpr met).1⟩

-- Deleting the first of eight volumes fills the last slot from behind the table.
theorem volume_table_overruns : ∃ past t, Run VolumeStep noVolumes past t ∧
    past.map Prod.snd = List.replicate 8 (.create 1 1 4 0) ++ [.delete 0] ∧
    t.table.mbr.nbvols = 7 ∧ 8 ∈ t.table.touched ∧ (t.table.mbr.vol 7).volNsectors = 1 ∧ ¬ Kept t := by
  obtain ⟨past,run,same⟩ := run_calls (fun _ => 1) (List.replicate 8 (.create 1 1 4 0) ++ [VolumeCall.delete 0]) noVolumes
  have reads : 8 ∈ ((List.replicate 8 (VolumeCall.create 1 1 4 0) ++ [VolumeCall.delete 0]).foldl
    (VolumeCall.next fun _ => 1) noVolumes).table.touched := by decide
  exact ⟨past,_,run,same,by decide,reads,by decide,fun kept => absurd (kept.inside 8 reads) (by decide)⟩

end AsePlusPlus
