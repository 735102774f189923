import AsePlusPlus.Lib.Ring
import AsePlusPlus.Kernel

namespace AsePlusPlus
open Words Program Chain Ring

variable {k t : Kernel} {c d p q s z a : Nat} {l m : List Nat} {cells more : List Cell} {x : Cell} {f : Func} {call : Call}
  {calls rest : List Call}

def Kernel.log (k : Kernel) (cells : List Cell) : Kernel := {k with touched := cells ++ k.touched}

@[simp] theorem log_log : (k.log cells).log more = k.log (more ++ cells) := by
  simp [Kernel.log]

def Kernel.next (k : Kernel) (p : Nat) : Nat := (k.ctx p).next

-- The contexts created on a core, and those of them that live.
def Kernel.Owns (k : Kernel) (c p : Nat) : Prop := p < k.count ∧ (k.ctx p).home = c

def Kernel.Alive (k : Kernel) (c p : Nat) : Prop := k.Owns c p ∧ (k.ctx p).state ≠ .terminated

def Cell.Of (k : Kernel) (c : Nat) : Cell → Prop
  | .current d => d = c
  | .ctx p => k.Owns c p

-- The first context of a core, and one behind its current context.
def Kernel.founded (k : Kernel) (c : Nat) (f : Func) : Kernel := {k with
  count := k.count+1
  ctx := Function.update k.ctx k.count ⟨.activable,f,k.count,none,ctxCanary,[],0,c⟩
  currentCtx := Function.update k.currentCtx c (some k.count)
  currentCore := c}

def Kernel.joined (k : Kernel) (c q : Nat) (f : Func) : Kernel := {k with
  count := k.count+1
  ctx := Function.update (Function.update k.ctx k.count ⟨.activable,f,(k.ctx q).next,none,ctxCanary,[],0,c⟩) q
    {k.ctx q with next := k.count}
  currentCore := c}

-- The top call begins its next operation.
def Kernel.begun (k : Kernel) (c : Nat) (call : Call) (rest : List Call) : Kernel := {k with
  cpu := Function.update k.cpu c ({call with pc := call.pc+1} :: rest)
  performed := (call.owner,call.pc) :: k.performed}

-- The two ways of sem_down.
def Kernel.took (k : Kernel) (c s : Nat) : Kernel := {k with
  sem := Function.update k.sem s {k.sem s with semCompteur := (k.sem s).semCompteur-1}
  semCalls := .down s (k.runner c) :: k.semCalls}

def Kernel.blockedIn (k : Kernel) (c q s : Nat) : Kernel := {k with
  ctx := Function.update k.ctx q {k.ctx q with state := .blocked,nextSemaphoreContext := (k.sem s).semCtxBlocked}
  sem := Function.update k.sem s {k.sem s with semCtxBlocked := some q}
  cpu := Function.update k.cpu c (waitIn s (k.cpu c))}

-- The two ways of sem_up.
def Kernel.freed (k : Kernel) (c s : Nat) : Kernel := {k with
  sem := Function.update k.sem s {k.sem s with semCompteur := (k.sem s).semCompteur+1}
  semCalls := .up s (k.runner c) :: k.semCalls}

def Kernel.woken (k : Kernel) (c s p : Nat) : Kernel := {k with
  ctx := Function.update k.ctx p {k.ctx p with state := .activable}
  sem := Function.update k.sem s {k.sem s with semCompteur := (k.sem s).semCompteur+1,semCtxBlocked := (k.ctx p).nextSemaphoreContext}
  semCalls := .up s (k.runner c) :: k.semCalls}

-- A context that has returned, and its way out of the ring behind `z`.
def Kernel.popped (k : Kernel) (c q : Nat) (rest : List Call) : Kernel := {k with
  ctx := Function.update k.ctx q {k.ctx q with state := .terminated}
  cpu := Function.update k.cpu c rest}

def Kernel.unlinked (k : Kernel) (q z : Nat) : Kernel := {k with
  ctx := Function.update k.ctx z {k.ctx z with next := (k.ctx q).next}}

-- The phases of a switch from `q` to `p`.
def Kernel.opened (k : Kernel) : Kernel := {k with firstContext := false}

def Kernel.saved (k : Kernel) (c q : Nat) : Kernel := {k with
  ctx := Function.update k.ctx q {k.ctx q with esp := k.cpu c}}

def Kernel.entering (k : Kernel) (c p : Nat) : Kernel := {k with
  ctx := Function.update k.ctx p {k.ctx p with state := .ready,entered := (k.ctx p).entered+1}
  currentCtx := Function.update k.currentCtx c (some p)
  cpu := Function.update k.cpu c (⟨p,(k.ctx p).entered,0,none⟩ :: (k.ctx p).esp)}

def Kernel.resuming (k : Kernel) (c p : Nat) : Kernel := {k with
  currentCtx := Function.update k.currentCtx c (some p)
  cpu := Function.update k.cpu c (k.ctx p).esp}

-- A stack whose top call is one of `p` that does not wait in a sem_down.
def Top (calls : List Call) (p : Nat) : Prop := ∃ call rest, calls = call :: rest ∧ call.owner = p ∧ call.inside = none

theorem runs_readCurrent {Q : Option Nat → Kernel → Prop} {E : Halt → Kernel → Prop} :
    Runs (readCurrent c) k Q E ↔ Q (k.currentCtx c) (k.log [.current c]) := by
  simp [readCurrent,Kernel.log]

theorem runs_readCtx {Q : Ctx → Kernel → Prop} {E : Halt → Kernel → Prop} :
    Runs (readCtx p) k Q E ↔ Q (k.ctx p) (k.log [.ctx p]) := by
  simp [readCtx,Kernel.log]

theorem createCtx_none (none : k.currentCtx c = none) :
    createCtx c f k = (.ok k.count,(k.founded c f).log [.current c,.ctx k.count,.current c,.ctx k.count]) :=
  Runs.equal fun Q => by simp [createCtx,runs_readCurrent,writeCtx,writeCurrent,none,Kernel.founded,Kernel.log]

theorem createCtx_some (some : k.currentCtx c = some q) (old : q < k.count) :
    createCtx c f k = (.ok k.count,(k.joined c q f).log [.ctx q,.ctx k.count,.ctx q,.current c,.ctx k.count]) :=
  Runs.equal fun Q => by
    have apart := Nat.ne_of_lt old
    simp [createCtx,runs_readCurrent,runs_readCtx,writeCtx,some,apart,Kernel.joined,Kernel.log]

-- The search for the context before the first of a ring.
theorem seekPrevious_finds (leads : Leads k.next a l q) (apart : q ∉ l) (fuel : l.length < n) :
    ∃ cells, (∀ x ∈ cells, ∃ p ∈ a :: l, x = .ctx p) ∧
      seekPrevious q n a k = (.ok ((a :: l).getLast (List.cons_ne_nil a l)),k.log cells) := by
  induction l generalizing a n k with
  | nil =>
      obtain ⟨n,rfl⟩ : ∃ i, n = i+1 := Nat.exists_eq_succ_of_ne_zero (Nat.ne_of_gt fuel)
      have arrived : (k.ctx a).next = q := leads
      refine ⟨[.ctx a],by simp,Runs.equal fun Q => ?_⟩
      simp [seekPrevious,runs_readCtx,arrived]
  | cons b rest ih =>
      obtain ⟨n,rfl⟩ : ∃ i, n = i+1 := Nat.exists_eq_succ_of_ne_zero (Nat.ne_of_gt (Nat.lt_of_le_of_lt (Nat.zero_le _) fuel))
      rw [List.mem_cons,not_or] at apart
      have away : (k.ctx a).next = b := leads.1
      obtain ⟨cells,own,found⟩ := ih (k := k.log [.ctx a]) leads.2 apart.2 (Nat.lt_of_succ_lt_succ fuel)
      refine ⟨cells ++ [.ctx a],?_,Runs.equal fun Q => ?_⟩
      · intro x member
        rcases List.mem_append.mp member with later | first
        · obtain ⟨p,inside,equal⟩ := own x later
          exact ⟨p,List.mem_cons_of_mem a inside,equal⟩
        · exact ⟨a,List.mem_cons_self,List.mem_singleton.mp first⟩
      · have other : b ≠ q := Ne.symm apart.1
        simp [seekPrevious,runs_readCtx,away,other,runs_eq found]

theorem psLoop_lists (leads : Leads k.next a l q) (apart : q ∉ l) (fuel : l.length < n) :
    ∃ cells, psLoop q n a k = (.ok (a :: l),k.log cells) := by
  induction l generalizing a n k with
  | nil =>
      obtain ⟨n,rfl⟩ : ∃ i, n = i+1 := Nat.exists_eq_succ_of_ne_zero (Nat.ne_of_gt fuel)
      have arrived : (k.ctx a).next = q := leads
      refine ⟨[.ctx a],Runs.equal fun Q => ?_⟩
      simp [psLoop,runs_readCtx,arrived]
  | cons b rest ih =>
      obtain ⟨n,rfl⟩ : ∃ i, n = i+1 := Nat.exists_eq_succ_of_ne_zero (Nat.ne_of_gt (Nat.lt_of_le_of_lt (Nat.zero_le _) fuel))
      rw [List.mem_cons,not_or] at apart
      have away : (k.ctx a).next = b := leads.1
      obtain ⟨cells,found⟩ := ih (k := k.log [.ctx a]) leads.2 apart.2 (Nat.lt_of_succ_lt_succ fuel)
      refine ⟨cells ++ [.ctx a],Runs.equal fun Q => ?_⟩
      have other : b ≠ q := Ne.symm apart.1
      simp [psLoop,runs_readCtx,away,other,runs_eq found]

-- The search of yield passes blocked contexts only.
theorem seekRunnable_finds (way : Linked k.next p a l) (blocked : ∀ x ∈ l, (k.ctx x).state = .blocked)
    (runnable : (k.ctx p).state ≠ .blocked) (fuel : l.length < n) :
    ∃ cells, (∀ x ∈ cells, ∃ y, (y = p ∨ y ∈ l) ∧ x = .ctx y) ∧ seekRunnable n a k = (.ok p,k.log cells) := by
  induction l generalizing a n k with
  | nil =>
      obtain ⟨n,rfl⟩ : ∃ i, n = i+1 := Nat.exists_eq_succ_of_ne_zero (Nat.ne_of_gt fuel)
      have arrived : a = p := way
      subst arrived
      refine ⟨[.ctx a],by simp,Runs.equal fun Q => ?_⟩
      simp [seekRunnable,runs_readCtx,runnable]
  | cons b rest ih =>
      obtain ⟨n,rfl⟩ : ∃ i, n = i+1 := Nat.exists_eq_succ_of_ne_zero (Nat.ne_of_gt (Nat.lt_of_le_of_lt (Nat.zero_le _) fuel))
      obtain ⟨here,_,onward⟩ := way
      subst here
      have stuck : (k.ctx a).state = .blocked := blocked a List.mem_cons_self
      obtain ⟨cells,own,found⟩ := ih (k := k.log [.ctx a]) onward (fun x member => blocked x (List.mem_cons_of_mem a member))
        runnable (Nat.lt_of_succ_lt_succ fuel)
      refine ⟨cells ++ [.ctx a],?_,Runs.equal fun Q => ?_⟩
      · intro x member
        rcases List.mem_append.mp member with later | first
        · obtain ⟨y,inside,equal⟩ := own x later
          exact ⟨y,inside.imp_right (List.mem_cons_of_mem a),equal⟩
        · exact ⟨a,.inr List.mem_cons_self,List.mem_singleton.mp first⟩
      · have onwards : Runs (seekRunnable n (k.ctx a).next) (k.log [.ctx a]) Q (fun _ _ => False) ↔ Q p ((k.log [.ctx a]).log cells) :=
          runs_eq found
        simp [seekRunnable,runs_readCtx,stuck,onwards]

-- Among blocked contexts only it does not end.
theorem seekRunnable_spins (closed : ∀ x ∈ l, k.next x ∈ l) (blocked : ∀ x ∈ l, (k.ctx x).state = .blocked) (inside : a ∈ l) :
    ∃ cells, (∀ x ∈ cells, ∃ p ∈ l, x = .ctx p) ∧ seekRunnable n a k = (.error .spin,k.log cells) := by
  induction n generalizing a k with
  | zero => exact ⟨[],by simp,rfl⟩
  | succ n ih =>
      have stuck := blocked a inside
      obtain ⟨cells,own,spins⟩ := ih (k := k.log [.ctx a]) closed blocked (closed a inside)
      refine ⟨cells ++ [.ctx a],?_,?_⟩
      · intro x member
        rcases List.mem_append.mp member with later | first
        · exact own x later
        · exact ⟨a,inside,List.mem_singleton.mp first⟩
      · refine Runs.stops fun E => ?_
        have onwards : Runs (seekRunnable n (k.ctx a).next) (k.log [.ctx a]) (fun _ _ => False) E ↔ E .spin ((k.log [.ctx a]).log cells) :=
          runs_error spins
        simp [seekRunnable,runs_readCtx,stuck,onwards]

-- Saving the stack of a context changes nothing else of any context.
theorem saved_ctx : ((k.saved c q).ctx p) = {k.ctx p with esp := if p = q then k.cpu c else (k.ctx p).esp} := by
  by_cases equal : p = q
  · subst equal
    simp [Kernel.saved]
  · simp [Kernel.saved,equal]

section switch
variable (home : k.currentCore = c) (current : k.currentCtx c = some q) (canary : (k.ctx p).canary = ctxCanary)
include home current canary

theorem switchToCtx_blocked (blocked : (k.ctx p).state = .blocked) :
    switchToCtx c p k = (.error .abort,(k.saved c q).log [.ctx p,.ctx q,.current c]) := by
  have kept : ((k.saved c q).ctx p).canary = ctxCanary ∧ ((k.saved c q).ctx p).state = .blocked := by
    rw [saved_ctx]
    exact ⟨canary,blocked⟩
  dsimp only [Kernel.saved] at kept
  refine Runs.stops fun E => ?_
  simp [switchToCtx,runs_readCurrent,runs_readCtx,writeCtx,home,current,Kernel.log,Kernel.saved,kept]

theorem switchToCtx_activable (activable : (k.ctx p).state = .activable) :
    switchToCtx c p k = (.ok (),((k.saved c q).entering c p).log [.ctx p,.current c,.ctx p,.ctx q,.current c]) := by
  have kept : ((k.saved c q).ctx p).canary = ctxCanary ∧ ((k.saved c q).ctx p).state = .activable := by
    rw [saved_ctx]
    exact ⟨canary,activable⟩
  dsimp only [Kernel.saved] at kept
  refine Runs.equal fun Q => ?_
  simp [switchToCtx,runs_readCurrent,runs_readCtx,writeCtx,writeCurrent,home,current,Kernel.log,Kernel.saved,Kernel.entering,kept]

theorem switchToCtx_ready (ready : (k.ctx p).state = .ready) (top : Top ((k.saved c q).ctx p).esp p) :
    switchToCtx c p k = (.ok (),((k.saved c q).resuming c p).log [.current c,.ctx p,.ctx q,.current c]) := by
  have kept : ((k.saved c q).ctx p).canary = ctxCanary ∧ ((k.saved c q).ctx p).state = .ready := by
    rw [saved_ctx]
    exact ⟨canary,ready⟩
  obtain ⟨call,rest,esp,_,free⟩ := top
  dsimp only [Kernel.saved] at kept esp
  refine Runs.equal fun Q => ?_
  simp [switchToCtx,resume,runs_readCurrent,runs_readCtx,writeCtx,writeCurrent,home,current,Kernel.log,Kernel.saved,Kernel.resuming,kept,esp,free]

end switch

end AsePlusPlus
