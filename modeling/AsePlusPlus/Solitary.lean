import AsePlusPlus.Formatting
import AsePlusPlus.Serial

namespace AsePlusPlus
open Words Program Trace

-- What the context that has the processor changes while the others stand still.
def Station.place (k : Station) (machine : Machine) (mutex : Sem) (buffer : Nat → List Byte) (point : Point) : Station :=
  {k with machine := machine,mutex := mutex,buffer := buffer,point := Function.update k.point k.current point}

variable {k t u : Station} {point next : Point} {m m' : Machine} {s s' : Sem} {b b' : Nat → List Byte} {job : Job} {stage stage' : Stage}
  {size : Nat} {cylinder sector vol nbloc : Word} {e : Turnover} {machine : Machine}

theorem place_self (here : k.point k.current = point) : k.place k.machine k.mutex k.buffer point = k := by
  unfold Station.place
  rw [← here,Function.update_eq_self]

theorem place_point : (k.place m s b point).point (k.place m s b point).current = point := Function.update_self _ _ _

theorem place_goto : goto next (k.place m s b point) = (.ok (),k.place m s b next) := by
  simp [goto,Station.place,Program.modify]

theorem lift_place {α : Type} {x : M α} {a : α} (ran : x m = (.ok a,m')) :
    lift x (k.place m s b point) = (.ok a,k.place m' s b point) :=
  Runs.equal fun _ => runs_lift.trans (runs_eq (s := m) ran)

-- Its steps, until it gives the processor away.
def Own (k t : Station) (e : Turnover) (u : Station) : Prop := StationStep t e u ∧ ∃ m s b point, t = k.place m s b point

theorem reaches_next (busy : point ≠ .idle) (ran : nextStatement (k.place m s b point) = (.ok (),k.place m' s' b' next)) :
    Reaches (Own k) (k.place m s b point) (k.place m' s' b' next) := by
  have enabled : Turnover.statement.Enabled (k.place m s b point) := by
    change (k.place m s b point).point (k.place m s b point).current ≠ .idle
    rwa [place_point]
  have taken : StationStep (k.place m s b point) .statement (k.place m' s' b' next) := ⟨enabled,ran⟩
  exact Reaches.next ⟨taken,_,_,_,_,rfl⟩

-- The parts of a transaction do to the machine what the drive's functions do.
theorem read_seek (whole : size ≠ 0) (ran : seekSector cylinder sector m = (.ok (),m')) :
    (Job.read cylinder sector size).perform .seek (k.place m s b point) = (.ok (some .transfer),k.place m' s b point) :=
  Runs.equal fun Q => by simp only [Job.perform,runs_bind,runs_ensure,if_pos whole,runs_eq (lift_place ran),runs_pure]

theorem read_transfer (cylinder sector : Word) (size : Nat) (ran : cmdRead m = (.ok (),m')) :
    (Job.read cylinder sector size).perform .transfer (k.place m s b point) = (.ok (some .copy),k.place m' s b point) :=
  Runs.equal fun Q => by simp only [Job.perform,runs_bind,runs_eq (lift_place ran),runs_pure]

theorem read_copy (cylinder sector : Word) (size : Nat) : (Job.read cylinder sector size).perform .copy (k.place m s b point) =
    (.ok none,k.place m s (Function.update b k.current (build size (cell m.hda.master)).toList) point) := rfl

theorem write_fill (cylinder sector : Word) (buffer : Vector Byte size) (whole : size ≠ 0) :
    (Job.write size cylinder sector buffer).perform .fill (k.place m s b point) =
      (.ok (some .seek),k.place {m with hda := {m.hda with master := overlay buffer m.hda.master}} s b point) :=
  Runs.equal fun Q => by simp only [Job.perform,runs_bind,runs_ensure,if_pos whole,runs_lift,runs_modify,runs_pure]; rfl

theorem write_seek (buffer : Vector Byte size) (ran : seekSector cylinder sector m = (.ok (),m')) :
    (Job.write size cylinder sector buffer).perform .seek (k.place m s b point) = (.ok (some .transfer),k.place m' s b point) :=
  Runs.equal fun Q => by simp only [Job.perform,runs_bind,runs_eq (lift_place ran),runs_pure]

theorem write_transfer (cylinder sector : Word) (buffer : Vector Byte size) (ran : cmdWrite m = (.ok (),m')) :
    (Job.write size cylinder sector buffer).perform .transfer (k.place m s b point) = (.ok none,k.place m' s b point) :=
  Runs.equal fun Q => by simp only [Job.perform,runs_bind,runs_eq (lift_place ran),runs_pure]

theorem reaches_disk (part : job.perform stage (k.place m s b (.disk job stage)) = (.ok (some stage'),k.place m' s b' (.disk job stage))) :
    Reaches (Own k) (k.place m s b (.disk job stage)) (k.place m' s b' (.disk job stage')) := by
  refine reaches_next (fun no => by cases no) (Runs.equal fun Q => ?_)
  unfold nextStatement
  simp only [runs_bind,runs_get,place_point,runs_eq part,runs_eq place_goto]

theorem reaches_raise (part : job.perform stage (k.place m s b (.disk job stage)) = (.ok none,k.place m' s b' (.disk job stage))) :
    Reaches (Own k) (k.place m s b (.disk job stage)) (k.place m' s b' .raise) := by
  refine reaches_next (fun no => by cases no) (Runs.equal fun Q => ?_)
  unfold nextStatement
  simp only [runs_bind,runs_get,place_point,runs_eq part,runs_eq place_goto]

theorem reaches_reading (part : mbrJob.perform stage (k.place m s b (.reading stage)) =
    (.ok (some stage'),k.place m' s b' (.reading stage))) :
    Reaches (Own k) (k.place m s b (.reading stage)) (k.place m' s b' (.reading stage')) := by
  refine reaches_next (fun no => by cases no) (Runs.equal fun Q => ?_)
  unfold nextStatement
  simp only [runs_bind,runs_get,place_point,runs_eq part,runs_eq place_goto]

theorem reaches_memcpy (part : mbrJob.perform stage (k.place m s b (.reading stage)) = (.ok none,k.place m' s b' (.reading stage))) :
    Reaches (Own k) (k.place m s b (.reading stage)) (k.place m' s b' .memcpy) := by
  refine reaches_next (fun no => by cases no) (Runs.equal fun Q => ?_)
  unfold nextStatement
  simp only [runs_bind,runs_get,place_point,runs_eq part,runs_eq place_goto]

-- The statements of read_mbr behind its read_sector.
theorem reaches_initMagic : Reaches (Own k) (k.place m s b .memcpy)
    (k.place {m with mbr := Mbr.decode (build 512 fun i => (b k.current).getD i 0)} s b .initMagic) := by
  refine reaches_next (fun no => by cases no) (Runs.equal fun Q => ?_)
  unfold nextStatement
  simp only [runs_bind,runs_get,place_point,runs_lift,runs_modify]
  exact runs_eq (place_goto (k := k))

theorem reaches_initCompteur : Reaches (Own k) (k.place m s b .initMagic) (k.place m {s with semMagicNumber := semMagic} b .initCompteur) := by
  refine reaches_next (fun no => by cases no) (Runs.equal fun Q => ?_)
  unfold nextStatement
  simp only [runs_bind,runs_get,place_point,runs_setMutex]
  exact runs_eq (place_goto (k := k))

theorem reaches_initBlocked : Reaches (Own k) (k.place m s b .initCompteur) (k.place m {s with semCompteur := 1} b .initBlocked) := by
  refine reaches_next (fun no => by cases no) (Runs.equal fun Q => ?_)
  unfold nextStatement
  simp only [runs_bind,runs_get,place_point,runs_setMutex]
  exact runs_eq (place_goto (k := k))

theorem reaches_check : Reaches (Own k) (k.place m s b .initBlocked) (k.place m {s with semCtxBlocked := none} b .check) := by
  refine reaches_next (fun no => by cases no) (Runs.equal fun Q => ?_)
  unfold nextStatement
  simp only [runs_bind,runs_get,place_point,runs_setMutex]
  exact runs_eq (place_goto (k := k))

def Mbr.checked (m : Mbr) : Mbr := if m.magicNumber ≠ mbrMagic then emptyMbr else m

theorem reaches_checked : Reaches (Own k) (k.place m s b .check) (k.place {m with mbr := m.mbr.checked} s b .idle) := by
  refine reaches_next (fun no => by cases no) (Runs.equal fun Q => ?_)
  have machine : (k.place m s b .check).machine = m := rfl
  unfold nextStatement Mbr.checked
  simp only [runs_bind,runs_get,place_point,machine]
  split
  · simp only [runs_bind,runs_lift,runs_modify]
    exact runs_eq (place_goto (k := k))
  · exact runs_eq (place_goto (k := k))

theorem reaches_initialised :
    Reaches (Own k) (k.place m s b .initMagic) (k.place {m with mbr := m.mbr.checked} (semInit 1) b .idle) :=
  reaches_initCompteur.trans (reaches_initBlocked.trans (reaches_check.trans reaches_checked))

theorem buffer_sector (v : Sector) : (build 512 fun i => (build 512 (cell v)).toList.getD i 0) = v := by
  rw [build_cell]
  apply ext_cell
  intro i small
  rw [cell_build _ small]
  simp [cell,List.getD,small]

theorem sought_origin (m : Machine) : seekSector 0 0 m = (.ok (),{m with hda := {m.hda with head := 0}}) := by
  have origin : (0 : Word).toNat % 65536 < 1024 ∧ (0 : Word).toNat % 65536 < 32 := by decide
  exact Runs.equal fun Q => runs_seekSector origin.1 origin.2

-- read_mbr, while nobody else runs, is the read_mbr of the machine and leaves
-- mbr_mutex as sem_init does.
theorem reaches_readMbr : Reaches (Own k) (k.place m s b (.reading .seek))
    (k.place (readMbr m).2 (semInit 1) (Function.update b k.current (m.hda.sectors 0).toList) .idle) := by
  have sought := reaches_reading (k := k) (s := s) (b := b) (read_seek (by decide) (sought_origin m))
  have moved := reaches_reading (k := k) (s := s) (b := b)
    (read_transfer 0 0 512 (m := {m with hda := {m.hda with head := 0}}) rfl)
  have copied := reaches_memcpy (k := k) (s := s) (b := b) (read_copy 0 0 512 (m := {m with hda := ⟨m.hda.sectors,m.hda.sectors 0,0⟩}))
  have decoded := reaches_initMagic (k := k) (m := {m with hda := ⟨m.hda.sectors,m.hda.sectors 0,0⟩}) (s := s)
    (b := Function.update b k.current (build 512 (cell (m.hda.sectors 0))).toList)
  rw [Function.update_self,buffer_sector,build_cell] at decoded
  have initialised := reaches_initialised (k := k) (m := {m with hda := ⟨m.hda.sectors,m.hda.sectors 0,0⟩,mbr := Mbr.decode (m.hda.sectors 0)})
    (s := s) (b := Function.update b k.current (m.hda.sectors 0).toList)
  rw [readMbr_exact]
  rw [build_cell] at copied
  exact sought.trans (moved.trans (copied.trans (decoded.trans initialised)))

-- sem_down and sem_up of a mutex that nobody holds or waits on.
def taken : Sem := {semInit 1 with semCompteur := 0}

theorem reaches_take : Reaches (Own k) (k.place m (semInit 1) b (.test job)) (k.place m (semInit 1) b (.take job)) := by
  refine reaches_next (fun no => by cases no) (Runs.equal fun Q => ?_)
  have mutex : (k.place m (semInit 1) b (.test job)).mutex = semInit 1 := rfl
  have magic : (semInit 1).semMagicNumber = semMagic := rfl
  have free : 0 < (semInit 1).semCompteur.toInt := by decide
  unfold nextStatement
  simp only [runs_bind,runs_get,place_point,mutex,runs_ensure,if_pos magic,if_pos free]
  exact runs_eq (place_goto (k := k))

theorem reaches_begin : Reaches (Own k) (k.place m (semInit 1) b (.take job)) (k.place m taken b (.disk job job.first)) := by
  refine reaches_next (fun no => by cases no) (Runs.equal fun Q => ?_)
  have gone : (semInit 1).semCompteur-1 = taken.semCompteur := by decide
  have mutex : (k.place m (semInit 1) b (.take job)).mutex = semInit 1 := rfl
  unfold nextStatement
  simp only [runs_bind,runs_get,place_point,runs_setMutex,mutex,gone]
  exact runs_eq (place_goto (k := k))

theorem reaches_look : Reaches (Own k) (k.place m taken b .raise) (k.place m (semInit 1) b .look) := by
  refine reaches_next (fun no => by cases no) (Runs.equal fun Q => ?_)
  have mutex : (k.place m taken b .raise).mutex = taken := rfl
  have magic : taken.semMagicNumber = semMagic := rfl
  unfold nextStatement
  simp only [runs_bind,runs_get,place_point,mutex,runs_ensure,if_pos magic,runs_setMutex]
  exact runs_eq (place_goto (k := k))

theorem reaches_idle : Reaches (Own k) (k.place m (semInit 1) b .look) (k.place m (semInit 1) b .idle) := by
  refine reaches_next (fun no => by cases no) (Runs.equal fun Q => ?_)
  unfold nextStatement
  simp only [runs_bind,runs_get,place_point]
  exact runs_eq (place_goto (k := k))

-- A transaction, while nobody else runs, is the drive's function.
theorem reaches_read {v : Vector Byte size} (ran : readNsector cylinder sector size m = (.ok v,m')) :
    Reaches (Own k) (k.place m (semInit 1) b (.test (.read cylinder sector size)))
      (k.place m' (semInit 1) (Function.update b k.current v.toList) .idle) := by
  have whole : size ≠ 0 := by
    intro zero
    simp [readNsector,ensure,stop,bind,zero] at ran
  rcases sought : seekSector cylinder sector m with ⟨_ | _,m₁⟩
  · simp [readNsector,ensure,whole,bind,pure,sought] at ran
  · have moved := reaches_disk (k := k) (s := taken) (b := b) (read_seek whole sought)
    have read := reaches_disk (k := k) (s := taken) (b := b) (read_transfer cylinder sector size (m := m₁) rfl)
    have copied := reaches_raise (k := k) (s := taken) (b := b) (read_copy cylinder sector size (m := {m₁ with hda := {m₁.hda with master := m₁.hda.sectors m₁.hda.head}}))
    have spec : ∀ Q : Vector Byte size → Machine → Prop, Returns (readNsector cylinder sector size) m Q ↔
        Q (build size (cell (m₁.hda.sectors m₁.hda.head))) {m₁ with hda := {m₁.hda with master := m₁.hda.sectors m₁.hda.head}} := by
      intro Q
      simp only [readNsector,runs_bind,runs_ensure,if_pos whole,runs_eq sought,cmdRead,runs_modify,runs_get,runs_pure]
    obtain ⟨value,machine⟩ := Runs.exact spec ran
    rw [value,machine]
    exact reaches_take.trans (reaches_begin.trans (moved.trans (read.trans (copied.trans (reaches_look.trans reaches_idle)))))

theorem reaches_write {v : Vector Byte size} (ran : writeNsector cylinder sector v m = (.ok (),m')) :
    Reaches (Own k) (k.place m (semInit 1) b (.test (.write size cylinder sector v))) (k.place m' (semInit 1) b .idle) := by
  have whole : size ≠ 0 := by
    intro zero
    subst zero
    simp [writeNsector,ensure,stop,bind] at ran
  rcases sought : seekSector cylinder sector {m with hda := {m.hda with master := overlay v m.hda.master}} with ⟨_ | _,m₁⟩
  · simp [writeNsector,ensure,whole,bind,pure,Program.modify,sought] at ran
  · have filled := reaches_disk (k := k) (s := taken) (b := b) (write_fill (m := m) cylinder sector v whole)
    have moved := reaches_disk (k := k) (s := taken) (b := b) (write_seek v sought)
    have written := reaches_raise (k := k) (s := taken) (b := b) (write_transfer cylinder sector v (m := m₁) rfl)
    have spec : ∀ Q : Unit → Machine → Prop, Returns (writeNsector cylinder sector v) m Q ↔ Q () (cmdWrite m₁).2 := by
      intro Q
      simp only [writeNsector,runs_bind,runs_ensure,if_pos whole,runs_modify,runs_eq sought]
      rfl
    rw [(Runs.exact spec ran).2]
    exact reaches_take.trans (reaches_begin.trans (filled.trans (moved.trans (written.trans (reaches_look.trans reaches_idle)))))

section place
variable (magic : m.mbr.magicNumber = mbrMagic) (slot : vol.toNat < 8) (nbloc : Word)
include magic slot

-- The calls look the place up and come to sem_down.
theorem read_called (size : Nat) : StationStep (k.place m s b .idle) (.call (.read vol nbloc size))
    (k.place m s b (.test (.read (m.mbr.place vol.toNat nbloc).1 (m.mbr.place vol.toNat nbloc).2 size))) := by
  obtain ⟨cylinder,sector⟩ := place_exact magic slot nbloc
  refine ⟨place_point,Runs.equal fun Q => ?_⟩
  simp only [Turnover.act,Command.call,runs_bind,runs_eq (lift_place cylinder),runs_eq (lift_place sector)]
  exact runs_eq (place_goto (k := k))

theorem reaches_test (size : Nat) : Reaches (Own k) (k.place m s b .idle)
    (k.place m s b (.test (.read (m.mbr.place vol.toNat nbloc).1 (m.mbr.place vol.toNat nbloc).2 size))) :=
  Reaches.next ⟨read_called magic slot nbloc size,_,_,_,_,rfl⟩

theorem reaches_test_write (buffer : Vector Byte size) : Reaches (Own k) (k.place m s b .idle)
    (k.place {m with journal := .nbloc vol nbloc size :: m.journal} s b
      (.test (.write size (m.mbr.place vol.toNat nbloc).1 (m.mbr.place vol.toNat nbloc).2 buffer))) := by
  obtain ⟨cylinder,sector⟩ := place_exact (s := {m with journal := .nbloc vol nbloc size :: m.journal}) magic slot nbloc
  have noted : lift (modify fun m => {m with journal := .nbloc vol nbloc size :: m.journal}) (k.place m s b .idle) =
      (.ok (),k.place {m with journal := .nbloc vol nbloc size :: m.journal} s b .idle) := lift_place rfl
  have called : StationStep (k.place m s b .idle) (.call (.write vol nbloc size buffer))
      (k.place {m with journal := .nbloc vol nbloc size :: m.journal} s b
        (.test (.write size (m.mbr.place vol.toNat nbloc).1 (m.mbr.place vol.toNat nbloc).2 buffer))) := by
    refine ⟨place_point,Runs.equal fun Q => ?_⟩
    simp only [Turnover.act,Command.call,runs_bind,runs_eq noted,runs_eq (lift_place cylinder),runs_eq (lift_place sector)]
    exact runs_eq (place_goto (k := k))
  exact Reaches.next ⟨called,_,_,_,_,rfl⟩

theorem readNbloc_alone {v : Vector Byte size} (ran : readNbloc vol nbloc size m = (.ok v,m')) :
    Reaches (Own k) (k.place m (semInit 1) b .idle) (k.place m' (semInit 1) (Function.update b k.current v.toList) .idle) := by
  obtain ⟨cylinder,sector⟩ := place_exact magic slot nbloc
  have spec : readNbloc vol nbloc size m = readNsector (m.mbr.place vol.toNat nbloc).1 (m.mbr.place vol.toNat nbloc).2 size m := by
    simp only [readNbloc,bind,cylinder,sector]
  rw [spec] at ran
  exact (reaches_test magic slot nbloc size).trans (reaches_read ran)

theorem writeNbloc_alone {v : Vector Byte size} (ran : writeNbloc vol nbloc v m = (.ok (),m')) :
    Reaches (Own k) (k.place m (semInit 1) b .idle) (k.place m' (semInit 1) b .idle) := by
  obtain ⟨cylinder,sector⟩ := place_exact (s := {m with journal := .nbloc vol nbloc size :: m.journal}) magic slot nbloc
  have spec : writeNbloc vol nbloc v m = writeNsector (m.mbr.place vol.toNat nbloc).1 (m.mbr.place vol.toNat nbloc).2 v
      {m with journal := .nbloc vol nbloc size :: m.journal} := by
    simp only [writeNbloc,bind,Program.modify,cylinder,sector]
  rw [spec] at ran
  exact (reaches_test_write magic slot nbloc v).trans (reaches_write ran)

end place

-- While nobody else is busy, they are steps that the mutex allows.
theorem own_serialised (lone : ∀ p, p ≠ k.current → ¬ (k.point p).Busy) (took : Own k t e u) : Serialised t e := by
  obtain ⟨taken,m,s,b,point,rfl⟩ := took
  have other : ∀ p, p ≠ k.current → ¬ ((k.place m s b point).point p).Busy := by
    intro p away
    show ¬ (Function.update k.point k.current point p).Busy
    rw [Function.update_of_ne away]
    exact lone p away
  have here : (k.place m s b point).point k.current = point := Function.update_self _ _ _
  cases e with
  | switch p => trivial
  | call command =>
      cases command with
      | readMbr =>
          intro p busy
          by_cases mine : p = k.current
          · have idle : (k.place m s b point).point k.current = .idle := taken.1
            rw [mine,idle] at busy
            rcases busy with no | no | no <;> exact no.elim
          · exact other p mine busy
      | _ => trivial
  | statement =>
      intro test _ p
      by_cases mine : p = k.current
      · obtain ⟨job,test⟩ := test
        have there : (k.place m s b point).point k.current = .test job := test
        rw [mine,there]
        exact ⟨id,id⟩
      · exact ⟨fun takes => other p mine (.inl takes),fun mounts => other p mine (.inr (.inr mounts))⟩

theorem own_run (reached : Reaches (Own k) t u) :
    ∃ past, Run StationStep t past u ∧ ((∀ p, p ≠ k.current → ¬ (k.point p).Busy) → Met Serialised past) := by
  obtain ⟨past,run⟩ := reached
  induction run with
  | start => exact ⟨[],.start _,fun _ => met_nil⟩
  | next _ took ih =>
      obtain ⟨past,run,met⟩ := ih
      exact ⟨_,run.next took.1,fun lone => met_snoc.mpr ⟨met lone,own_serialised lone took⟩⟩

-- In a run of such steps, whatever the schedule, one context at most is in a
-- transaction.
theorem transactions_serialised (run : Run StationStep (bootStation machine) past k) (met : Met Serialised past) :
    ∀ p q, (k.point p).InTransaction → (k.point q).InTransaction → p = q := by
  have exclusive := (run.keeps Serialised (fun _ _ _ exclusive serialised taken => taken.keeps exclusive serialised) (boot_exclusive machine) met).1
  have busy : ∀ p, (k.point p).InTransaction → (k.point p).Busy := by
    intro p inside
    cases here : k.point p with
    | disk job stage => exact .inr (.inl trivial)
    | reading stage => exact .inr (.inr trivial)
    | _ =>
        rw [here] at inside
        exact inside.elim
  intro p q one two
  exact exclusive.one p q (busy p one) (busy q two)

-- Context 0 has mounted the drive and is behind the SEEK of a read_bloc; an
-- interrupt gives the processor to context 1.
theorem seek_interrupted : ∃ past u, Run StationStep (bootStation (recordedDisk (volumeOf 64))) past u ∧ Met Serialised past ∧
    (u.point 0).InTransaction ∧ u.current = 1 ∧ u.point 1 = .idle ∧ u.mutex = taken ∧ u.machine.mbr.magicNumber = mbrMagic := by
  generalize disk : recordedDisk (volumeOf 64) = m
  have mbr : (readMbr m).2.mbr = ⟨Vector.replicate 8 (volumeOf 64),1,mbrMagic⟩ := by
    rw [readMbr_exact]
    change m.recorded = _
    unfold Machine.recorded
    rw [← disk,recordedDisk_mbr]
    rfl
  have magic : (readMbr m).2.mbr.magicNumber = mbrMagic := by rw [mbr]
  have first : (0 : Word).toNat < 8 := by decide
  have booted : bootStation m = (bootStation m).place m ⟨0,none,0⟩ (fun _ => []) .idle := (place_self rfl).symm
  have mounting : Reaches (Own (bootStation m)) (bootStation m) ((bootStation m).place m ⟨0,none,0⟩ (fun _ => []) (.reading .seek)) :=
    Reaches.next (c := .call .readMbr) ⟨⟨rfl,rfl⟩,_,_,_,_,booted⟩
  have mounted := mounting.trans reaches_readMbr
  generalize Function.update (fun _ => []) (bootStation m).current (m.hda.sectors 0).toList = b at mounted
  have tested := mounted.trans (reaches_test magic first 0 512)
  have place : (readMbr m).2.mbr.place (0 : Word).toNat 0 = (1,0) := by
    rw [mbr]
    rfl
  rw [place] at tested
  generalize (readMbr m).2 = n at tested magic
  have sought : seekSector 1 0 n = (.ok (),{n with hda := {n.hda with head := 32}}) := Runs.equal fun Q =>
    runs_seekSector (by decide) (by decide)
  have inside := tested.trans (reaches_take.trans (reaches_begin.trans (reaches_disk (read_seek (by decide) sought))))
  obtain ⟨past,run,met⟩ := own_run inside
  have nobody : ∀ p, p ≠ (bootStation m).current → ¬ ((bootStation m).point p).Busy := by
    intro p _ busy
    rcases busy with no | no | no <;> exact no.elim
  generalize before : (bootStation m).place {n with hda := {n.hda with head := 32}} taken b _ = t at run
  have switched : StationStep t (.switch 1)
      {t with current := 1,state := Function.update t.state 1 .ready,point := Function.update t.point 1 .idle} := by
    subst before
    have waiting : CtxState.activable ≠ .blocked := by decide
    exact ⟨waiting,rfl⟩
  have holder : (t.point 0).InTransaction := by
    subst before
    rw [show (0 : Nat) = (bootStation m).current from rfl]
    simp [Station.place,Point.InTransaction]
  refine ⟨_,_,run.next switched,met_snoc.mpr ⟨met nobody,trivial⟩,?_,rfl,Function.update_self 1 Point.idle t.point,?_,?_⟩
  · dsimp only
    rwa [Function.update_of_ne (by decide)]
  · subst before
    rfl
  · subst before
    exact magic

-- A statement that is not the test of sem_down needs no leave.
theorem statement_serialised (here : t.point t.current = point) (other : ∀ job, point ≠ .test job) : Serialised t .statement := by
  intro test
  obtain ⟨job,test⟩ := test
  exact absurd (here.symm.trans test) (other job)

def Station.sets (t : Station) (point : Point) : Station := {t with point := Function.update t.point t.current point}

theorem sets_point : (t.sets point).point (t.sets point).current = point := Function.update_self _ _ _

theorem test_marks (here : t.point t.current = .test job) (magic : t.mutex.semMagicNumber = semMagic)
    (held : ¬ 0 < t.mutex.semCompteur.toInt) : StationStep t .statement (t.sets (.mark job)) := by
  refine ⟨fun idle => (nomatch here.symm.trans idle),Runs.equal fun Q => ?_⟩
  simp only [Turnover.act,nextStatement,Returns,runs_bind,runs_get,here,runs_ensure,if_pos magic,if_neg held]
  exact runs_goto

theorem mark_blocks (here : t.point t.current = .mark job) :
    StationStep t .statement ({t with state := Function.update t.state t.current .blocked}.sets (.link job)) := by
  refine ⟨fun idle => (nomatch here.symm.trans idle),Runs.equal fun Q => ?_⟩
  simp only [Turnover.act,nextStatement,Returns,runs_bind,runs_get,here,runs_setState]
  exact runs_goto

theorem link_points (here : t.point t.current = .link job) :
    StationStep t .statement ({t with nextSemaphoreContext := Function.update t.nextSemaphoreContext t.current t.mutex.semCtxBlocked}.sets
      (.hang job)) := by
  refine ⟨fun idle => (nomatch here.symm.trans idle),Runs.equal fun Q => ?_⟩
  simp only [Turnover.act,nextStatement,Returns,runs_bind,runs_get,here,runs_modify]
  exact runs_goto

theorem hang_waits (here : t.point t.current = .hang job) :
    StationStep t .statement ({t with mutex := {t.mutex with semCtxBlocked := some t.current}}.sets (.waiting job)) := by
  refine ⟨fun idle => (nomatch here.symm.trans idle),Runs.equal fun Q => ?_⟩
  simp only [Turnover.act,nextStatement,Returns,runs_bind,runs_get,here,runs_setMutex]
  exact runs_goto

-- sem_down of a mutex that is held: the caller is blocked and linked into the list.
theorem parks (here : t.point t.current = .test job) (magic : t.mutex.semMagicNumber = semMagic) (held : ¬ 0 < t.mutex.semCompteur.toInt) :
    ∃ past u, Run StationStep t past u ∧ Met Serialised past ∧ (∀ p, p ≠ t.current → u.point p = t.point p) ∧
      u.point t.current = .waiting job ∧ u.state t.current = .blocked ∧ u.mutex.semCtxBlocked = some t.current := by
  have refused : Serialised t .statement := fun _ free => absurd free held
  have run := (((Run.single (test_marks here magic held)).next (mark_blocks sets_point)).next (link_points sets_point)).next
    (hang_waits sets_point)
  have first := (show Met Serialised [] from met_nil).append (met_snoc.mpr ⟨met_nil,refused⟩)
  refine ⟨_,_,run,?_,fun p other => by simp only [Station.sets,Function.update_of_ne other],sets_point,Function.update_self _ _ _,rfl⟩
  refine met_snoc.mpr ⟨met_snoc.mpr ⟨met_snoc.mpr ⟨first,?_⟩,?_⟩,?_⟩
  · exact statement_serialised sets_point (by simp)
  · exact statement_serialised sets_point (by simp)
  · exact statement_serialised sets_point (by simp)

-- While context 0 is in its transaction, context 1 calls read_bloc and waits.
theorem transactions_serialised_waits : ∃ past t, Run StationStep (bootStation (recordedDisk (volumeOf 64))) past t ∧
    (t.point 0).InTransaction ∧ (∃ job, t.point 1 = .waiting job) ∧ t.state 1 = .blocked ∧
    ∀ p q, (t.point p).InTransaction → (t.point q).InTransaction → p = q := by
  obtain ⟨early,u,run,met,holder,current,idle,mutex,magic⟩ := seek_interrupted
  have placed := place_self (show u.point u.current = .idle by rw [current]; exact idle)
  have called := read_called (k := u) (s := u.mutex) (b := u.buffer) magic (show (0 : Word).toNat < 8 by decide) 0 512
  rw [placed] at called
  generalize Job.read _ _ 512 = job at called
  have other : (0 : Nat) ≠ u.current := by
    rw [current]
    decide
  obtain ⟨late,t,parked,met',others,waiting,blocked,_⟩ := parks (t := u.place u.machine u.mutex u.buffer (.test job)) place_point
    (by rw [show (u.place u.machine u.mutex u.buffer (.test job)).mutex = taken from mutex]; rfl)
    (by rw [show (u.place u.machine u.mutex u.buffer (.test job)).mutex = taken from mutex]; decide)
  have whole := (run.next called).trans parked
  have allowed : Serialised u (.call (.read 0 0 512)) := trivial
  refine ⟨_,t,whole,?_,⟨job,?_⟩,?_,transactions_serialised whole ((met_snoc.mpr ⟨met,allowed⟩).append met')⟩
  · rw [others 0 other]
    show ((Function.update u.point u.current _) 0).InTransaction
    rwa [Function.update_of_ne other]
  · rw [← current]
    exact waiting
  · rw [← current]
    exact blocked

-- Context 1 calls mount_volume instead.
theorem transactions_overlap : ∃ past k, Run StationStep (bootStation (recordedDisk (volumeOf 64))) past k ∧
    (k.point 0).InTransaction ∧ (k.point 1).InTransaction := by
  obtain ⟨early,u,run,_,holder,current,idle,_,_⟩ := seek_interrupted
  have placed := place_self (show u.point u.current = .idle by rw [current]; exact idle)
  have here : u.point u.current = .idle := by rw [current,idle]
  have called : StationStep u (.call .readMbr) (u.place u.machine u.mutex u.buffer (.reading .seek)) := ⟨here,rfl⟩
  obtain ⟨late,sought,_⟩ := own_run (reaches_reading (k := u) (s := u.mutex) (b := u.buffer) (read_seek (by decide) (sought_origin u.machine)))
  refine ⟨_,_,(run.next called).trans sought,?_,?_⟩
  · simp [Station.place,current,holder]
  · simp [Station.place,current,Point.InTransaction]

end AsePlusPlus
