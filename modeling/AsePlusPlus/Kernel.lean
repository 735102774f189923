import Mathlib.Logic.Function.Basic
import AsePlusPlus.Lib.Program
import AsePlusPlus.Records

namespace AsePlusPlus
open Words Program

-- ctx.h
inductive CtxState where
  | activable
  | blocked
  | ready
  | running
  | terminated
  deriving DecidableEq, Repr

-- What the code of a context asks of the kernel.
inductive Op where
  | down (sem : Nat)
  | up (sem : Nat)
  | yield
  | create (function : Nat → Nat → Option Op)

-- A function is the operations that its calls perform: the one at `pc` in its
-- `entry`-th call, none where that call returns.
abbrev Func := Nat → Nat → Option Op

-- One call on a stack: how many operations it has begun and, while sem_down has
-- given the processor away in it, the semaphore.
structure Call where
  owner : Nat
  entry : Nat
  pc : Nat
  inside : Option Nat
  deriving DecidableEq

-- Pointers are the numbers of the allocations; none of them is handed out twice.
-- `esp` is the saved stack, `entered` and `home` are read by nothing.
structure Ctx where
  state : CtxState
  function : Func
  next : Nat
  nextSemaphoreContext : Option Nat
  canary : Word
  esp : List Call
  entered : Nat
  home : Nat

structure Sem where
  semCompteur : Word
  semCtxBlocked : Option Nat
  semMagicNumber : Word

def semMagic : Word := 0x69

def semInit (val : Word) : Sem := ⟨val,none,semMagic⟩

-- The parts of memory that belong to a core, and the calls that have been made
-- of a semaphore: a sem_up by its start, a sem_down by its return.
inductive Cell where
  | current (core : Nat)
  | ctx (p : Nat)

inductive SemCall where
  | down (sem : Nat) (owner : Option Nat)
  | up (sem : Nat) (owner : Option Nat)
  deriving DecidableEq

-- The globals of ctx.c, the heap and the stack that each core runs on, empty for
-- the code that has booted it. The last three are logs, newest first, that
-- nothing reads.
structure Kernel where
  currentCtx : Nat → Option Nat
  currentCore : Nat
  firstContext : Bool
  ctx : Nat → Ctx
  count : Nat
  sem : Nat → Sem
  cpu : Nat → List Call
  touched : List Cell
  semCalls : List SemCall
  performed : List (Nat × Nat)

-- A failed assert, exit(), a NULL dereference, the loop of yield over blocked
-- contexts only, the search loops of delete_ctx and do_ps that do not end.
inductive Halt where
  | abort
  | exit
  | fault
  | spin
  | loop
  deriving DecidableEq, Repr

abbrev K (α : Type) := Prog Kernel Halt α

def ctxCanary : Word := 0xCAFEBABE
def maxCore : Nat := 16

def readCurrent (core : Nat) : K (Option Nat) := do
  modify fun k => {k with touched := .current core :: k.touched}
  let k ← get
  return k.currentCtx core

def writeCurrent (core p : Nat) : K Unit :=
  modify fun k => {k with currentCtx := Function.update k.currentCtx core (some p),touched := .current core :: k.touched}

def readCtx (p : Nat) : K Ctx := do
  modify fun k => {k with touched := .ctx p :: k.touched}
  let k ← get
  return k.ctx p

def writeCtx (p : Nat) (f : Ctx → Ctx) : K Unit :=
  modify fun k => {k with ctx := Function.update k.ctx p (f (k.ctx p)),touched := .ctx p :: k.touched}

-- The uninitialised fields of a new context are not read before they are set.
def createCtx (core : Nat) (function : Func) : K Nat := do
  let k ← get
  let p := k.count
  modify fun k => {k with
    count := k.count+1
    ctx := Function.update k.ctx p ⟨.activable,function,p,none,ctxCanary,[],0,core⟩
    touched := .ctx p :: k.touched
    currentCore := core}
  match ← readCurrent core with
  | none =>
    writeCtx p fun c => {c with next := p}
    writeCurrent core p
  | some q =>
    let current ← readCtx q
    writeCtx p fun c => {c with next := current.next}
    writeCtx q fun c => {c with next := p}
  return p

-- while (iterator->next != current), with the contexts left to look at as fuel:
-- on a longer way one of them is met again.
def seekPrevious (current : Nat) : Nat → Nat → K Nat
  | 0,_ => stop .loop
  | fuel+1,iterator => do
    let c ← readCtx iterator
    if c.next = current then
      return iterator
    else
      seekPrevious current fuel c.next

def deleteCtx : K Unit := do
  let k ← get
  match ← readCurrent k.currentCore with
  | none => stop .fault
  | some current =>
    let iterator ← seekPrevious current k.count current
    let c ← readCtx current
    ensure (c.next ≠ current) .exit
    writeCtx iterator fun x => {x with next := c.next}

-- The top call goes on behind the yield in which it has lost the processor; a
-- sem_down returns there.
def resume (core : Nat) : K Unit :=
  modify fun k => match k.cpu core with
    | [] => k
    | call :: rest => match call.inside with
      | none => k
      | some s => {k with
          cpu := Function.update k.cpu core ({call with inside := none} :: rest)
          semCalls := .down s (some call.owner) :: k.semCalls}

def switchToCtx (core p : Nat) : K Unit := do
  let k ← get
  match ← readCurrent k.currentCore with
  | none => pure ()
  | some q => writeCtx q fun c => {c with esp := k.cpu core}
  let c ← readCtx p
  ensure (c.canary = ctxCanary) .abort
  ensure (c.state ≠ .blocked) .abort
  writeCurrent k.currentCore p
  if c.state = .activable then
    writeCtx p fun c => {c with state := .ready,entered := c.entered+1}
    modify fun k => {k with cpu := Function.update k.cpu core (⟨p,c.entered,0,none⟩ :: c.esp)}
  else
    modify fun k => {k with cpu := Function.update k.cpu core c.esp}
    resume core

-- while (iterator->state == BLOCKED)
def seekRunnable : Nat → Nat → K Nat
  | 0,_ => stop .spin
  | fuel+1,iterator => do
    let c ← readCtx iterator
    if c.state = .blocked then
      seekRunnable fuel c.next
    else
      return iterator

-- Whether the processor was given away.
def yieldCtx (core : Nat) : K Bool := do
  let k ← get
  match ← readCurrent k.currentCore with
  | none => return false
  | some current =>
    if k.firstContext then
      modify fun k => {k with firstContext := false}
      switchToCtx core current
      return true
    else
      let c ← readCtx current
      let iterator ← seekRunnable k.count c.next
      if iterator ≠ current then
        switchToCtx core iterator
        return true
      else
        return false

-- The context whose code runs on a core, for the log.
def Kernel.runner (k : Kernel) (core : Nat) : Option Nat := (k.cpu core).head?.map Call.owner

def waitIn (s : Nat) : List Call → List Call
  | [] => []
  | call :: rest => {call with inside := some s} :: rest

def semDown (core s : Nat) : K Unit := do
  let k ← get
  ensure ((k.sem s).semMagicNumber = semMagic) .abort
  if 0 < (k.sem s).semCompteur.toInt then
    modify fun k => {k with
      sem := Function.update k.sem s {k.sem s with semCompteur := (k.sem s).semCompteur-1}
      semCalls := .down s (k.runner core) :: k.semCalls}
  else
    match ← readCurrent core with
    | none => stop .fault
    | some current =>
      writeCtx current fun c => {c with state := .blocked}
      writeCtx current fun c => {c with nextSemaphoreContext := (k.sem s).semCtxBlocked}
      modify fun k => {k with
        sem := Function.update k.sem s {k.sem s with semCtxBlocked := some current}
        cpu := Function.update k.cpu core (waitIn s (k.cpu core))}
      let away ← yieldCtx core
      if away then
        return ()
      else
        resume core

def semUp (core s : Nat) : K Unit := do
  let k ← get
  ensure ((k.sem s).semMagicNumber = semMagic) .abort
  modify fun k => {k with
    sem := Function.update k.sem s {k.sem s with semCompteur := (k.sem s).semCompteur+1}
    semCalls := .up s (k.runner core) :: k.semCalls}
  let k ← get
  match (k.sem s).semCtxBlocked with
  | some p =>
    if 1 ≤ (k.sem s).semCompteur.toInt then
      writeCtx p fun c => {c with state := .activable}
      let c ← readCtx p
      modify fun k => {k with sem := Function.update k.sem s {k.sem s with semCtxBlocked := c.nextSemaphoreContext}}
    else
      let _ ← yieldCtx core
  | none =>
    let _ ← yieldCtx core

def perform (core : Nat) : Op → K Unit
  | .down s => semDown core s
  | .up s => semUp core s
  | .yield => do let _ ← yieldCtx core
  | .create function => do let _ ← createCtx core function

-- The end of switch_to_ctx, behind the call of the function.
def returned (core : Nat) : K Unit := do
  let k ← get
  match ← readCurrent k.currentCore with
  | none => stop .fault
  | some current =>
    writeCtx current fun c => {c with state := .terminated}
    deleteCtx
    let away ← yieldCtx core
    if away then
      return ()
    else
      resume core

-- The code on a core performs its next operation or returns.
def runNext (core : Nat) : K Unit := do
  let k ← get
  match k.cpu core with
  | [] => stop .fault
  | call :: rest =>
    match (k.ctx call.owner).function call.entry call.pc with
    | some op =>
      modify fun k => {k with
        cpu := Function.update k.cpu core ({call with pc := call.pc+1} :: rest)
        performed := (call.owner,call.pc) :: k.performed}
      perform core op
    | none =>
      modify fun k => {k with cpu := Function.update k.cpu core rest}
      returned core

-- do { print(iterator->cmd); iterator = iterator->next; } while (iterator != current)
def psLoop (current : Nat) : Nat → Nat → K (List Nat)
  | 0,_ => stop .loop
  | fuel+1,iterator => do
    let c ← readCtx iterator
    if c.next = current then
      return [iterator]
    else
      let rest ← psLoop current fuel c.next
      return iterator :: rest

-- The contexts that do_ps lists for a core.
def psCore (core : Nat) : K (List Nat) := do
  let k ← get
  match ← readCurrent core with
  | none => return []
  | some current => psLoop current k.count current

-- for (int i=0; i<MAX_CORE; i++), with the cores left to look at.
def psFrom : Nat → Nat → K (List (List Nat))
  | 0,_ => return []
  | left+1,core => do
    let here ← psCore core
    let rest ← psFrom left (core+1)
    return here :: rest

def doPs : K (List (List Nat)) := psFrom maxCore 0

-- Whole operations: the code of a context goes on, the timer interrupts a core,
-- or the code that has booted a core performs an operation.
inductive Event where
  | run (core : Nat)
  | timer (core : Nat)
  | boot (core : Nat) (op : Op)

def Event.core : Event → Nat
  | .run core => core
  | .timer core => core
  | .boot core _ => core

def Event.act : Event → K Unit
  | .run core => runNext core
  | .timer core => do let _ ← yieldCtx core
  | .boot core op => perform core op

def Event.Enabled (k : Kernel) : Event → Prop
  | .run core => k.cpu core ≠ []
  | .timer _ => True
  | .boot core _ => k.cpu core = []

def KernelStep (k : Kernel) (e : Event) (t : Kernel) : Prop := e.Enabled k ∧ e.act k = (.ok (),t)

-- No context yet, and semaphores that sem_init has set to `n`.
def bootKernel (n : Nat → Word) : Kernel where
  currentCtx := fun _ => none
  currentCore := 1
  firstContext := true
  ctx := fun _ => ⟨.activable,fun _ _ => none,0,none,0,[],0,0⟩
  count := 0
  sem := fun s => semInit (n s)
  cpu := fun _ => []
  touched := []
  semCalls := []
  performed := []

end AsePlusPlus
