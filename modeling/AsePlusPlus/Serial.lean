import AsePlusPlus.Lib.Trace
import AsePlusPlus.Kernel
import AsePlusPlus.Regions

namespace AsePlusPlus
open Words Program Trace

-- A transaction between sem_down and sem_up, with what its caller has computed.
inductive Job where
  | read (cylinder sector : Word) (size : Nat)
  | write (size : Nat) (cylinder sector : Word) (buffer : Vector Byte size)

-- The parts of read_nsector and write_nsector between two waits.
inductive Stage where
  | fill
  | seek
  | transfer
  | copy
  deriving DecidableEq

-- Where a context is: before the statements of sem_down, in the drive, before
-- those of sem_up, or before those of read_mbr and of the sem_init in it.
inductive Point where
  | idle
  | test (job : Job)
  | take (job : Job)
  | mark (job : Job)
  | link (job : Job)
  | hang (job : Job)
  | waiting (job : Job)
  | disk (job : Job) (stage : Stage)
  | raise
  | look
  | wake (p : Nat)
  | unhang (p : Nat)
  | reading (stage : Stage)
  | memcpy
  | initMagic
  | initCompteur
  | initBlocked
  | check

-- One core: the machine, mbr_mutex, the context that has the processor and of
-- every context its state, its link in the waiting list, where it is and what it
-- has read last.
structure Station where
  machine : Machine
  mutex : Sem
  current : Nat
  state : Nat → CtxState
  nextSemaphoreContext : Nat → Option Nat
  point : Nat → Point
  buffer : Nat → List Byte

abbrev D (α : Type) := Prog Station Stop α

def lift (p : M α) : D α := fun k => match p k.machine with
  | (.ok a,m) => (.ok a,{k with machine := m})
  | (.error e,m) => (.error e,{k with machine := m})

def goto (point : Point) : D Unit := modify fun k => {k with point := Function.update k.point k.current point}

def setMutex (f : Sem → Sem) : D Unit := modify fun k => {k with mutex := f k.mutex}

def setState (p : Nat) (state : CtxState) : D Unit := modify fun k => {k with state := Function.update k.state p state}

def Job.first : Job → Stage
  | .read _ _ _ => .seek
  | .write _ _ _ _ => .fill

-- One part of a transaction, and the one behind it.
def Job.perform : Job → Stage → D (Option Stage)
  | .read cylinder sector size,.seek => do
    ensure (size ≠ 0) .abort
    lift (seekSector cylinder sector)
    return some .transfer
  | .read _ _ _,.transfer => do
    lift cmdRead
    return some .copy
  | .read _ _ size,.copy => do
    modify fun k => {k with buffer := Function.update k.buffer k.current (build size (cell k.machine.hda.master)).toList}
    return none
  | .write size _ _ buffer,.fill => do
    ensure (size ≠ 0) .abort
    lift (modify fun m => {m with hda := {m.hda with master := overlay buffer m.hda.master}})
    return some .seek
  | .write _ cylinder sector _,.seek => do
    lift (seekSector cylinder sector)
    return some .transfer
  | .write _ _ _ _,.transfer => do
    lift cmdWrite
    return none
  | .read _ _ _,.fill => return none
  | .write _ _ _ _,.copy => return none

-- What a context calls: read_bloc is the read of a whole sector, as write_bloc is
-- the write of one, and mount_volume is read_mbr and a read_bloc.
inductive Command where
  | read (vol nbloc : Word) (size : Nat)
  | write (vol nbloc : Word) (size : Nat) (buffer : Vector Byte size)
  | readMbr

def Command.call : Command → D Unit
  | .read vol nbloc size => do
    let cylinder ← lift (ncylOfNbloc vol nbloc)
    let sector ← lift (nsecOfNbloc vol nbloc)
    goto (.test (.read cylinder sector size))
  | .write vol nbloc size buffer => do
    lift (modify fun m => {m with journal := .nbloc vol nbloc size :: m.journal})
    let cylinder ← lift (ncylOfNbloc vol nbloc)
    let sector ← lift (nsecOfNbloc vol nbloc)
    goto (.test (.write size cylinder sector buffer))
  | .readMbr => goto (.reading .seek)

-- read_sector(0,0,buff) of read_mbr.
def mbrJob : Job := .read 0 0 512

-- The next statement of the context that has the processor.
def nextStatement : D Unit := do
  let k ← get
  match k.point k.current with
  | .idle => stop .loop
  -- sem_down
  | .test job =>
    ensure (k.mutex.semMagicNumber = semMagic) .abort
    if 0 < k.mutex.semCompteur.toInt then
      goto (.take job)
    else
      goto (.mark job)
  | .take job =>
    setMutex fun s => {s with semCompteur := s.semCompteur-1}
    goto (.disk job job.first)
  | .mark job =>
    setState k.current .blocked
    goto (.link job)
  | .link job =>
    modify fun k => {k with nextSemaphoreContext := Function.update k.nextSemaphoreContext k.current k.mutex.semCtxBlocked}
    goto (.hang job)
  | .hang job =>
    setMutex fun s => {s with semCtxBlocked := some k.current}
    goto (.waiting job)
  -- yield does not come back to a blocked context
  | .waiting job =>
    ensure (k.state k.current ≠ .blocked) .loop
    goto (.disk job job.first)
  | .disk job stage =>
    match ← job.perform stage with
    | some next => goto (.disk job next)
    | none => goto .raise
  -- sem_up
  | .raise =>
    ensure (k.mutex.semMagicNumber = semMagic) .abort
    setMutex fun s => {s with semCompteur := s.semCompteur+1}
    goto .look
  | .look =>
    match k.mutex.semCtxBlocked with
    | some p =>
      if 1 ≤ k.mutex.semCompteur.toInt then
        goto (.wake p)
      else
        goto .idle
    | none => goto .idle
  | .wake p =>
    setState p .activable
    goto (.unhang p)
  | .unhang p =>
    setMutex fun s => {s with semCtxBlocked := k.nextSemaphoreContext p}
    goto .idle
  -- read_mbr
  | .reading stage =>
    match ← mbrJob.perform stage with
    | some next => goto (.reading next)
    | none => goto .memcpy
  | .memcpy =>
    lift (modify fun m => {m with mbr := Mbr.decode (build 512 fun i => (k.buffer k.current).getD i 0)})
    goto .initMagic
  | .initMagic =>
    setMutex fun s => {s with semMagicNumber := semMagic}
    goto .initCompteur
  | .initCompteur =>
    setMutex fun s => {s with semCompteur := 1}
    goto .initBlocked
  | .initBlocked =>
    setMutex fun s => {s with semCtxBlocked := none}
    goto .check
  | .check =>
    if k.machine.mbr.magicNumber ≠ mbrMagic then
      lift (modify fun m => {m with mbr := {mbrVol := Vector.replicate 8 .empty,nbvols := 0,magicNumber := mbrMagic}})
    goto .idle

-- A timer interrupt or a yield may give the processor to any context that is not
-- blocked, between any two statements; one that is ACTIVABLE begins its function.
inductive Turnover where
  | switch (p : Nat)
  | call (command : Command)
  | statement

def Turnover.Enabled (k : Station) : Turnover → Prop
  | .switch p => k.state p ≠ .blocked
  | .call _ => k.point k.current = .idle
  | .statement => k.point k.current ≠ .idle

def switchTo (p : Nat) : D Unit := do
  let k ← get
  if k.state p = .activable then
    setState p .ready
    modify fun k => {k with point := Function.update k.point p .idle}
  modify fun k => {k with current := p}

def Turnover.act : Turnover → D Unit
  | .switch p => switchTo p
  | .call command => command.call
  | .statement => nextStatement

def StationStep (k : Station) (e : Turnover) (t : Station) : Prop := e.Enabled k ∧ e.act k = (.ok (),t)

-- Context 0 runs, nobody has called anything, and mbr_mutex is static storage.
def bootStation (machine : Machine) : Station where
  machine := machine
  mutex := ⟨0,none,0⟩
  current := 0
  state := fun p => if p = 0 then .ready else .activable
  nextSemaphoreContext := fun _ => none
  point := fun _ => .idle
  buffer := fun _ => []

-- Between the start of the seek or transfer and the end of the copy.
def Point.InTransaction : Point → Prop
  | .disk _ _ => True
  | .reading _ => True
  | _ => False

-- Past the test of sem_down and not yet past its decrement; holding the unit; in
-- read_mbr up to the end of its sem_init; blocked on the way into the list.
def Point.Takes : Point → Prop
  | .take _ => True
  | _ => False

def Point.Holds : Point → Prop
  | .disk _ _ => True
  | .raise => True
  | _ => False

def Point.Mounts : Point → Prop
  | .reading _ => True
  | .memcpy => True
  | .initMagic => True
  | .initCompteur => True
  | .initBlocked => True
  | _ => False

def Point.Busy (point : Point) : Prop := point.Takes ∨ point.Holds ∨ point.Mounts

def Point.Queues : Point → Prop
  | .link _ => True
  | .hang _ => True
  | .waiting _ => True
  | _ => False

-- One context at most is past the test of sem_down or in read_mbr, and while it
-- holds the unit the counter is not positive.
structure Exclusive (k : Station) : Prop where
  one : ∀ p q, (k.point p).Busy → (k.point q).Busy → p = q
  held : ∀ p, (k.point p).Holds → k.mutex.semCompteur.toInt ≤ 0
  most : k.mutex.semCompteur.toInt ≤ 1
  taking : ∀ p, (k.point p).Takes → 0 < k.mutex.semCompteur.toInt
  parked : ∀ p, (k.point p).Queues → k.state p = .blocked ∨ k.state p = .activable
  stuck : (k.point k.current).Queues → k.state k.current = .blocked

-- read_mbr begins while nobody holds the unit or is in read_mbr, and nobody
-- passes the test of sem_down while another is between test and decrement or in
-- read_mbr before the end of its sem_init.
def Serialised (k : Station) : Turnover → Prop
  | .call .readMbr => ∀ p, ¬ (k.point p).Busy
  | .statement => (∃ job, k.point k.current = .test job) → 0 < k.mutex.semCompteur.toInt →
      ∀ p, ¬ (k.point p).Takes ∧ ¬ (k.point p).Mounts
  | _ => True

variable {k t : Station} {p q : Nat} {e : Turnover} {point : Point} {machine : Machine} {past : List (Station × Turnover)} {job : Job}
  {stage : Stage}

theorem runs_lift {α : Type} {x : M α} {Q : α → Station → Prop} {E : Stop → Station → Prop} :
    Runs (lift x) k Q E ↔ Runs x k.machine (fun a m => Q a {k with machine := m}) (fun h m => E h {k with machine := m}) := by
  unfold lift Runs
  dsimp only
  cases x k.machine with
  | mk result m => cases result <;> rfl

-- What the drive and the machine do leaves the contexts and the mutex alone.
structure Undisturbed (k t : Station) : Prop where
  mutex : t.mutex = k.mutex
  current : t.current = k.current
  state : t.state = k.state
  point : t.point = k.point

theorem lift_undisturbed {α : Type} (x : M α) : Runs (lift x) k (fun _ t => Undisturbed k t) (fun _ _ => True) := by
  rw [runs_lift]
  exact Runs.always fun _ _ => ⟨rfl,rfl,rfl,rfl⟩

theorem perform_undisturbed (job : Job) (stage : Stage) :
    Runs (job.perform stage) k (fun _ t => Undisturbed k t) (fun _ _ => True) := by
  cases job with
  | read cylinder sector size =>
      cases stage with
      | fill => exact ⟨rfl,rfl,rfl,rfl⟩
      | seek =>
          simp only [Job.perform,runs_bind,runs_ensure,runs_pure]
          split
          · exact lift_undisturbed _
          · trivial
      | transfer =>
          simp only [Job.perform,runs_bind,runs_pure]
          exact lift_undisturbed _
      | copy => exact ⟨rfl,rfl,rfl,rfl⟩
  | write size cylinder sector buffer =>
      cases stage with
      | fill =>
          simp only [Job.perform,runs_bind,runs_ensure,runs_pure]
          split
          · exact lift_undisturbed _
          · trivial
      | seek =>
          simp only [Job.perform,runs_bind,runs_pure]
          exact lift_undisturbed _
      | transfer =>
          simp only [Job.perform,runs_bind,runs_pure]
          exact lift_undisturbed _
      | copy => exact ⟨rfl,rfl,rfl,rfl⟩

theorem runs_goto {Q : Unit → Station → Prop} {E : Stop → Station → Prop} :
    Runs (goto point) k Q E ↔ Q () {k with point := Function.update k.point k.current point} := Iff.rfl

-- A context goes on to a point that is in no class its last one was not in.
theorem Exclusive.moved (exclusive : Exclusive k) (point : Point) (at_point : t.point = Function.update k.point k.current point)
    (counter : t.mutex.semCompteur = k.mutex.semCompteur) (current : t.current = k.current) (state : t.state = k.state)
    (busy : point.Busy → (k.point k.current).Busy) (holds : point.Holds → (k.point k.current).Holds)
    (takes : point.Takes → (k.point k.current).Takes) (queues : point.Queues → (k.point k.current).Queues) : Exclusive t := by
  have other : ∀ (P : Point → Prop) p, (P point → P (k.point k.current)) → P (t.point p) → P (k.point p) := by
    intro P p new
    rw [at_point]
    by_cases here : p = k.current
    · subst here
      rw [Function.update_self]
      exact new
    · rw [Function.update_of_ne here]
      exact id
  constructor
  · intro p q one two
    exact exclusive.one p q (other Point.Busy p busy one) (other Point.Busy q busy two)
  · intro p held
    rw [counter]
    exact exclusive.held p (other Point.Holds p holds held)
  · rw [counter]
    exact exclusive.most
  · intro p taking
    rw [counter]
    exact exclusive.taking p (other Point.Takes p takes taking)
  · intro p parked
    rw [state]
    exact exclusive.parked p (other Point.Queues p queues parked)
  · intro stuck
    rw [current] at stuck ⊢
    rw [state]
    exact exclusive.stuck (other Point.Queues k.current queues stuck)

theorem runs_setMutex {f : Sem → Sem} {Q : Unit → Station → Prop} {E : Stop → Station → Prop} :
    Runs (setMutex f) k Q E ↔ Q () {k with mutex := f k.mutex} := Iff.rfl

theorem runs_setState {state : CtxState} {Q : Unit → Station → Prop} {E : Stop → Station → Prop} :
    Runs (setState p state) k Q E ↔ Q () {k with state := Function.update k.state p state} := Iff.rfl

-- Behind a part of a transaction.
theorem Exclusive.follow (exclusive : Exclusive k) (point : Point) (still : Undisturbed k t) (busy : point.Busy → (k.point k.current).Busy)
    (holds : point.Holds → (k.point k.current).Holds) (takes : ¬ point.Takes) (queues : ¬ point.Queues) :
    Exclusive {t with point := Function.update t.point t.current point} := by
  refine exclusive.moved point ?_ ?_ still.current still.state busy holds (fun taking => absurd taking takes)
    fun queueing => absurd queueing queues
  · dsimp only
    rw [still.point,still.current]
  · dsimp only
    rw [still.mutex]

theorem earlier {P : Point → Prop} (not : ¬ P point) (new : P (Function.update k.point k.current point p)) : P (k.point p) := by
  by_cases equal : p = k.current
  · subst equal
    rw [Function.update_self] at new
    exact absurd new not
  · rwa [Function.update_of_ne equal] at new

-- Past the test: nobody else is, and the unit is there.
theorem Exclusive.tested (exclusive : Exclusive k) (free : 0 < k.mutex.semCompteur.toInt)
    (alone : ∀ p, ¬ (k.point p).Takes ∧ ¬ (k.point p).Mounts) :
    Exclusive {k with point := Function.update k.point k.current (.take job)} := by
  have nobody : ∀ p, ¬ (k.point p).Busy := by
    intro p busy
    rcases busy with takes | holds | mounts
    · exact (alone p).1 takes
    · have gone := exclusive.held p holds
      omega
    · exact (alone p).2 mounts
  have only : ∀ p, (Function.update k.point k.current (.take job) p).Busy → p = k.current := by
    intro p busy
    by_contra other
    rw [Function.update_of_ne other] at busy
    exact nobody p busy
  constructor
  · intro p q one two
    rw [only p one,only q two]
  · intro p holds
    exact exclusive.held p (earlier (P := Point.Holds) id holds)
  · exact exclusive.most
  · intro _ _
    exact free
  · intro p queues
    exact exclusive.parked p (earlier (P := Point.Queues) id queues)
  · intro queues
    exact exclusive.stuck (earlier (P := Point.Queues) id queues)

-- A context with the counter in its hands changes it: it is the only busy one.
theorem Exclusive.counted {value : Word} (exclusive : Exclusive k) (point : Point) (busy : (k.point k.current).Busy) (most : value.toInt ≤ 1)
    (holds : point.Holds → value.toInt ≤ 0) (takes : ¬ point.Takes) (queues : ¬ point.Queues) :
    Exclusive {k with mutex := {k.mutex with semCompteur := value},point := Function.update k.point k.current point} := by
  have only : ∀ p, (Function.update k.point k.current point p).Busy → p = k.current := by
    intro p again
    by_contra other
    rw [Function.update_of_ne other] at again
    exact other (exclusive.one p k.current again busy)
  have there : ∀ (P : Point → Prop) p, (P (Function.update k.point k.current point p)) → p = k.current → P point := by
    intro P p new equal
    rw [equal,Function.update_self] at new
    exact new
  constructor
  · intro p q one two
    rw [only p one,only q two]
  · intro p held
    exact holds (there Point.Holds p held (only p (.inr (.inl held))))
  · exact most
  · intro p taking
    exact absurd (there Point.Takes p taking (only p (.inl taking))) takes
  · intro p queueing
    by_cases equal : p = k.current
    · exact absurd (there Point.Queues p queueing equal) queues
    · dsimp only at queueing
      rw [Function.update_of_ne equal] at queueing
      exact exclusive.parked p queueing
  · intro queueing
    exact absurd (there Point.Queues k.current queueing rfl) queues

-- A context is set BLOCKED on its way into the list.
theorem Exclusive.marked (exclusive : Exclusive k) (job : Job) :
    Exclusive {k with state := Function.update k.state k.current .blocked,point := Function.update k.point k.current (.link job)} := by
  have idle : ¬ Point.Busy (.link job) := by
    intro busy
    rcases busy with no | no | no <;> exact no
  constructor
  · intro p q one two
    exact exclusive.one p q (earlier idle one) (earlier idle two)
  · intro p held
    exact exclusive.held p (earlier (P := Point.Holds) id held)
  · exact exclusive.most
  · intro p taking
    exact exclusive.taking p (earlier (P := Point.Takes) id taking)
  · intro p queues
    by_cases equal : p = k.current
    · subst equal
      dsimp only
      rw [Function.update_self]
      exact .inl rfl
    · dsimp only at queues ⊢
      rw [Function.update_of_ne equal] at queues ⊢
      exact exclusive.parked p queues
  · intro _
    dsimp only
    rw [Function.update_self]

-- sem_up wakes a context, wherever it is.
theorem Exclusive.woken (exclusive : Exclusive k) (here : k.point k.current = .wake q) :
    Exclusive {k with state := Function.update k.state q .activable,point := Function.update k.point k.current (.unhang q)} := by
  have idle : ¬ Point.Busy (.unhang q) := by
    intro busy
    rcases busy with no | no | no <;> exact no
  constructor
  · intro p q one two
    exact exclusive.one p q (earlier idle one) (earlier idle two)
  · intro p held
    exact exclusive.held p (earlier (P := Point.Holds) id held)
  · exact exclusive.most
  · intro p taking
    exact exclusive.taking p (earlier (P := Point.Takes) id taking)
  · intro p queues
    have before := exclusive.parked p (earlier (P := Point.Queues) id queues)
    by_cases equal : p = q
    · subst equal
      dsimp only
      rw [Function.update_self]
      exact .inr rfl
    · dsimp only
      rw [Function.update_of_ne equal]
      exact before
  · intro queues
    have before := earlier (P := Point.Queues) id queues
    rw [here] at before
    exact before.elim

-- A point that is in none of the three classes.
theorem idle_busy (takes : ¬ point.Takes) (holds : ¬ point.Holds) (mounts : ¬ point.Mounts) : point.Busy → (k.point k.current).Busy := by
  intro busy
  rcases busy with one | two | three
  · exact absurd one takes
  · exact absurd two holds
  · exact absurd three mounts

section statement
variable (exclusive : Exclusive k)
include exclusive

-- A statement that leaves the counter and the states alone.
theorem Exclusive.step (machine : Machine) (mutex : Sem) (links : Nat → Option Nat) (counter : mutex.semCompteur = k.mutex.semCompteur)
    (busy : point.Busy → (k.point k.current).Busy) (holds : point.Holds → (k.point k.current).Holds) (takes : ¬ point.Takes)
    (queues : point.Queues → (k.point k.current).Queues) :
    Exclusive {k with machine := machine,mutex := mutex,nextSemaphoreContext := links,point := Function.update k.point k.current point} :=
  exclusive.moved _ rfl counter rfl rfl busy holds (fun taking => absurd taking takes) queues

theorem Exclusive.idle (machine : Machine) :
    Exclusive {k with machine := machine,point := Function.update k.point k.current .idle} :=
  exclusive.step machine k.mutex k.nextSemaphoreContext rfl (idle_busy id id id) False.elim id False.elim

theorem test_keeps (serialised : Serialised k .statement) (here : k.point k.current = .test job) :
    Runs nextStatement k (fun _ t => Exclusive t) (fun _ _ => True) := by
  unfold nextStatement
  simp only [runs_bind,runs_get,here,runs_ensure,runs_ite]
  split
  · split
    · rename_i free
      exact exclusive.tested free (serialised ⟨job,here⟩ free)
    · exact exclusive.step _ _ _ rfl (idle_busy id id id) False.elim id False.elim
  · trivial

theorem take_keeps (here : k.point k.current = .take job) : Runs nextStatement k (fun _ t => Exclusive t) (fun _ _ => True) := by
  have taking : (k.point k.current).Takes := by
    rw [here]
    trivial
  have free := exclusive.taking k.current taking
  have most := exclusive.most
  have pred : (k.mutex.semCompteur-1).toInt = k.mutex.semCompteur.toInt-1 := toInt_pred free
  unfold nextStatement
  simp only [runs_bind,runs_get,here,runs_setMutex,runs_goto]
  exact exclusive.counted _ (.inl taking) (by rw [pred]; omega) (fun _ => by rw [pred]; omega) id id

-- The caller of sem_down is on its way into the list.
theorem queue_keeps (here : k.point k.current = .mark job ∨ k.point k.current = .link job ∨ k.point k.current = .hang job) :
    Runs nextStatement k (fun _ t => Exclusive t) (fun _ _ => True) := by
  unfold nextStatement
  rcases here with here | here | here
  · simp only [runs_bind,runs_get,here]
    exact exclusive.marked job
  · have queueing : (k.point k.current).Queues := by
      rw [here]
      trivial
    simp only [runs_bind,runs_get,here]
    exact exclusive.step k.machine k.mutex _ rfl (idle_busy id id id) False.elim id fun _ => queueing
  · have queueing : (k.point k.current).Queues := by
      rw [here]
      trivial
    simp only [runs_bind,runs_get,here]
    exact exclusive.step k.machine _ k.nextSemaphoreContext rfl (idle_busy id id id) False.elim id fun _ => queueing

theorem waiting_keeps (here : k.point k.current = .waiting job) : Runs nextStatement k (fun _ t => Exclusive t) (fun _ _ => True) := by
  have queueing : (k.point k.current).Queues := by
    rw [here]
    trivial
  have blocked := exclusive.stuck queueing
  unfold nextStatement
  simp only [runs_bind,runs_get,here,runs_ensure]
  rw [if_neg (fun free => free blocked)]
  trivial

theorem disk_keeps (here : k.point k.current = .disk job stage) : Runs nextStatement k (fun _ t => Exclusive t) (fun _ _ => True) := by
  have holding : (k.point k.current).Holds := by
    rw [here]
    trivial
  unfold nextStatement
  simp only [runs_bind,runs_get,here]
  refine (perform_undisturbed job stage).mono ?_ fun _ _ => id
  intro next t still
  cases next with
  | none => exact exclusive.follow .raise still (fun _ => .inr (.inl holding)) (fun _ => holding) id id
  | some stage => exact exclusive.follow (.disk job stage) still (fun _ => .inr (.inl holding)) (fun _ => holding) id id

theorem raise_keeps (here : k.point k.current = .raise) : Runs nextStatement k (fun _ t => Exclusive t) (fun _ _ => True) := by
  have holding : (k.point k.current).Holds := by
    rw [here]
    trivial
  have most := exclusive.held k.current holding
  have room : k.mutex.semCompteur ≠ 0x7FFFFFFF := by
    intro full
    rw [full] at most
    exact absurd most (by decide)
  have succ : (k.mutex.semCompteur+1).toInt = k.mutex.semCompteur.toInt+1 := toInt_succ room
  unfold nextStatement
  simp only [runs_bind,runs_get,here,runs_ensure]
  split
  · exact exclusive.counted .look (.inr (.inl holding)) (by rw [succ]; omega) False.elim id id
  · trivial

theorem look_keeps (here : k.point k.current = .look) : Runs nextStatement k (fun _ t => Exclusive t) (fun _ _ => True) := by
  unfold nextStatement
  simp only [runs_bind,runs_get,here]
  split
  · rw [runs_ite]
    split
    · exact exclusive.step _ _ _ rfl (idle_busy id id id) False.elim id False.elim
    · exact exclusive.idle k.machine
  · exact exclusive.idle k.machine

-- sem_up takes the first context out of the list.
theorem release_keeps {q : Nat} (here : k.point k.current = .wake q ∨ k.point k.current = .unhang q) :
    Runs nextStatement k (fun _ t => Exclusive t) (fun _ _ => True) := by
  unfold nextStatement
  rcases here with here | here
  · simp only [runs_bind,runs_get,here]
    exact exclusive.woken here
  · simp only [runs_bind,runs_get,here]
    exact exclusive.step k.machine _ k.nextSemaphoreContext rfl (idle_busy id id id) False.elim id False.elim

theorem reading_keeps (here : k.point k.current = .reading stage) : Runs nextStatement k (fun _ t => Exclusive t) (fun _ _ => True) := by
  have mounting : (k.point k.current).Mounts := by
    rw [here]
    trivial
  unfold nextStatement
  simp only [runs_bind,runs_get,here]
  refine (perform_undisturbed mbrJob stage).mono ?_ fun _ _ => id
  intro next t still
  cases next with
  | none => exact exclusive.follow .memcpy still (fun _ => .inr (.inr mounting)) False.elim id id
  | some stage => exact exclusive.follow (.reading stage) still (fun _ => .inr (.inr mounting)) False.elim id id

-- The copy of the table, and the sem_init behind it.
theorem memcpy_keeps (here : k.point k.current = .memcpy) : Runs nextStatement k (fun _ t => Exclusive t) (fun _ _ => True) := by
  have mounting : (k.point k.current).Mounts := by
    rw [here]
    trivial
  unfold nextStatement
  simp only [runs_bind,runs_get,here]
  exact exclusive.step _ k.mutex k.nextSemaphoreContext rfl (fun _ => .inr (.inr mounting)) False.elim id False.elim

theorem semInit_keeps (here : k.point k.current = .initMagic ∨ k.point k.current = .initCompteur ∨ k.point k.current = .initBlocked) :
    Runs nextStatement k (fun _ t => Exclusive t) (fun _ _ => True) := by
  unfold nextStatement
  rcases here with here | here | here
  · have mounting : (k.point k.current).Mounts := by
      rw [here]
      trivial
    simp only [runs_bind,runs_get,here]
    exact exclusive.step k.machine _ k.nextSemaphoreContext rfl (fun _ => .inr (.inr mounting)) False.elim id False.elim
  · have mounting : (k.point k.current).Mounts := by
      rw [here]
      trivial
    simp only [runs_bind,runs_get,here]
    exact exclusive.counted .initBlocked (.inr (.inr mounting)) (by decide) False.elim id id
  · simp only [runs_bind,runs_get,here]
    exact exclusive.step k.machine _ k.nextSemaphoreContext rfl (idle_busy id id id) False.elim id False.elim

theorem check_keeps (here : k.point k.current = .check) : Runs nextStatement k (fun _ t => Exclusive t) (fun _ _ => True) := by
  unfold nextStatement
  simp only [runs_bind,runs_get,here]
  split
  · exact exclusive.idle _
  · exact exclusive.idle _

theorem statement_keeps (serialised : Serialised k .statement) : Runs nextStatement k (fun _ t => Exclusive t) (fun _ _ => True) := by
  cases here : k.point k.current with
  | idle =>
      unfold nextStatement
      simp only [runs_bind,runs_get,here]
      trivial
  | test job => exact test_keeps exclusive serialised here
  | take job => exact take_keeps exclusive here
  | mark job => exact queue_keeps exclusive (.inl here)
  | link job => exact queue_keeps exclusive (.inr (.inl here))
  | hang job => exact queue_keeps exclusive (.inr (.inr here))
  | waiting job => exact waiting_keeps exclusive here
  | disk job stage => exact disk_keeps exclusive here
  | raise => exact raise_keeps exclusive here
  | look => exact look_keeps exclusive here
  | wake q => exact release_keeps exclusive (.inl here)
  | unhang q => exact release_keeps exclusive (.inr here)
  | reading stage => exact reading_keeps exclusive here
  | memcpy => exact memcpy_keeps exclusive here
  | initMagic => exact semInit_keeps exclusive (.inl here)
  | initCompteur => exact semInit_keeps exclusive (.inr (.inl here))
  | initBlocked => exact semInit_keeps exclusive (.inr (.inr here))
  | check => exact check_keeps exclusive here

end statement

theorem Exclusive.mounting (exclusive : Exclusive k) (nobody : ∀ p, ¬ (k.point p).Busy) :
    Exclusive {k with point := Function.update k.point k.current (.reading .seek)} := by
  have only : ∀ p, (Function.update k.point k.current (.reading .seek) p).Busy → p = k.current := by
    intro p busy
    by_contra other
    rw [Function.update_of_ne other] at busy
    exact nobody p busy
  constructor
  · intro p q one two
    rw [only p one,only q two]
  · intro p held
    exact absurd (.inr (.inl (earlier (P := Point.Holds) id held))) (nobody p)
  · exact exclusive.most
  · intro p taking
    exact exclusive.taking p (earlier (P := Point.Takes) id taking)
  · intro p queues
    exact exclusive.parked p (earlier (P := Point.Queues) id queues)
  · intro queues
    exact exclusive.stuck (earlier (P := Point.Queues) id queues)

theorem Undisturbed.trans {u : Station} (one : Undisturbed k t) (two : Undisturbed t u) : Undisturbed k u :=
  ⟨two.mutex.trans one.mutex,two.current.trans one.current,two.state.trans one.state,two.point.trans one.point⟩

-- The place of a bloc is looked up before sem_down.
theorem call_keeps {command : Command} (exclusive : Exclusive k) (serialised : Serialised k (.call command)) :
    Runs command.call k (fun _ t => Exclusive t) (fun _ _ => True) := by
  have waits : ∀ job t, Undisturbed k t → Runs (goto (.test job)) t (fun _ t => Exclusive t) (fun _ _ => True) := by
    intro job t still
    refine exclusive.follow (.test job) still ?_ False.elim id id
    intro busy
    rcases busy with no | no | no <;> exact no.elim
  have addressed : ∀ (vol nbloc : Word) (job : Word → Word → Job) t, Undisturbed k t →
      Runs (do let cylinder ← lift (ncylOfNbloc vol nbloc); let sector ← lift (nsecOfNbloc vol nbloc); goto (.test (job cylinder sector)))
        t (fun _ t => Exclusive t) (fun _ _ => True) := by
    intro vol nbloc job t still
    simp only [runs_bind]
    refine (lift_undisturbed (ncylOfNbloc vol nbloc)).mono ?_ fun _ _ => id
    intro cylinder u first
    refine (lift_undisturbed (nsecOfNbloc vol nbloc)).mono ?_ fun _ _ => id
    intro sector v second
    exact waits _ v (still.trans (first.trans second))
  cases command with
  | read vol nbloc size => exact addressed vol nbloc (fun cylinder sector => .read cylinder sector size) k ⟨rfl,rfl,rfl,rfl⟩
  | write vol nbloc size buffer =>
      unfold Command.call
      rw [runs_bind]
      refine (lift_undisturbed _).mono ?_ fun _ _ => id
      intro _ t still
      exact addressed vol nbloc (fun cylinder sector => .write size cylinder sector buffer) t still
  | readMbr => exact exclusive.mounting serialised

theorem switch_keeps (exclusive : Exclusive k) (enabled : k.state p ≠ .blocked) :
    Runs (switchTo p) k (fun _ t => Exclusive t) (fun _ _ => True) := by
  unfold switchTo
  simp only [runs_bind,runs_get,runs_ite]
  split
  · simp only [runs_setState,runs_modify]
    have others : ∀ (P : Point → Prop), ¬ P .idle → ∀ x, P (Function.update k.point p .idle x) → x ≠ p ∧ P (k.point x) := by
      intro P not x new
      by_cases equal : x = p
      · subst equal
        rw [Function.update_self] at new
        exact absurd new not
      · rw [Function.update_of_ne equal] at new
        exact ⟨equal,new⟩
    have quiet : ¬ Point.Busy .idle := by
      intro busy
      rcases busy with no | no | no <;> exact no
    constructor
    · intro x y one two
      exact exclusive.one x y (others Point.Busy quiet x one).2 (others Point.Busy quiet y two).2
    · intro x held
      exact exclusive.held x (others Point.Holds id x held).2
    · exact exclusive.most
    · intro x taking
      exact exclusive.taking x (others Point.Takes id x taking).2
    · intro x queues
      obtain ⟨other,before⟩ := others Point.Queues id x queues
      dsimp only
      rw [Function.update_of_ne other]
      exact exclusive.parked x before
    · intro queues
      exact absurd rfl (others Point.Queues id p queues).1
  · rename_i ready
    refine ⟨exclusive.one,exclusive.held,exclusive.most,exclusive.taking,exclusive.parked,?_⟩
    intro queues
    rcases exclusive.parked p queues with blocked | activable
    · exact blocked
    · exact absurd activable ready

theorem StationStep.keeps (exclusive : Exclusive k) (serialised : Serialised k e) (taken : StationStep k e t) : Exclusive t := by
  obtain ⟨enabled,acted⟩ := taken
  cases e with
  | switch p => exact (switch_keeps exclusive enabled).result acted
  | call command => exact (call_keeps exclusive serialised).result acted
  | statement => exact (statement_keeps exclusive serialised).result acted

theorem boot_exclusive (machine : Machine) : Exclusive (bootStation machine) := by
  constructor
  · intro p q busy
    rcases busy with no | no | no <;> exact no.elim
  · intro p no
    exact no.elim
  · change (0 : Word).toInt ≤ 1
    decide
  · intro p no
    exact no.elim
  · intro p no
    exact no.elim
  · intro no
    exact no.elim

end AsePlusPlus
