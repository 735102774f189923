import Mathlib.Algebra.Group.Nat.Defs
import Mathlib.Data.List.Perm.Subperm
import Mathlib.Data.Option.Basic
import AsePlusPlus.Contexts

namespace AsePlusPlus
open Words Program Chain Ring Trace

variable {C : Kernel → Nat → Prop} {far : Prop} {k t u : Kernel} {c core p q r s : Nat} {w : Nat → List Nat} {e : Event}
  {init : Nat → Word} {past : List (Kernel × Event)}

-- Who has called sem_up on a semaphore, and who has come out of its sem_down.
def SemCall.upOf (s : Nat) : SemCall → Option (Option Nat)
  | .up r owner => if r = s then some owner else none
  | .down _ _ => none

def SemCall.downOf (s : Nat) : SemCall → Option (Option Nat)
  | .down r owner => if r = s then some owner else none
  | .up _ _ => none

def Kernel.ups (k : Kernel) (s : Nat) : List (Option Nat) := k.semCalls.filterMap (SemCall.upOf s)

def Kernel.downs (k : Kernel) (s : Nat) : List (Option Nat) := k.semCalls.filterMap (SemCall.downOf s)

-- The counter is what the calls have left of the initial value.
structure Accounted (n s : Nat) (k : Kernel) : Prop where
  nonneg : 0 ≤ (k.sem s).semCompteur.toInt
  balance : (k.sem s).semCompteur.toInt+(k.downs s).length = n+(k.ups s).length

theorem accounted_same {n : Nat} (accounted : Accounted n s k) (counter : (t.sem s).semCompteur = (k.sem s).semCompteur)
    (calls : t.semCalls = k.semCalls) : Accounted n s t := by
  constructor
  · rw [counter]
    exact accounted.nonneg
  · unfold Kernel.ups Kernel.downs
    rw [counter,calls]
    exact accounted.balance

theorem ups_other {n : Nat} {owner : Option Nat} (accounted : Accounted n s k) (counter : (t.sem s).semCompteur = (k.sem s).semCompteur)
    (calls : t.semCalls = .up r owner :: k.semCalls) (apart : r ≠ s) : Accounted n s t := by
  constructor
  · rw [counter]
    exact accounted.nonneg
  · have balance := accounted.balance
    unfold Kernel.ups Kernel.downs at balance ⊢
    rw [counter,calls]
    simpa only [List.filterMap_cons,SemCall.upOf,SemCall.downOf,if_neg apart] using balance

theorem ups_here {n : Nat} {owner : Option Nat} (accounted : Accounted n s k) (room : (k.sem s).semCompteur ≠ 0x7FFFFFFF)
    (counter : (t.sem s).semCompteur = (k.sem s).semCompteur+1) (calls : t.semCalls = .up s owner :: k.semCalls) : Accounted n s t := by
  have next := toInt_succ room
  have nonneg := accounted.nonneg
  have balance := accounted.balance
  constructor
  · rw [counter,next]
    omega
  · unfold Kernel.ups Kernel.downs at balance ⊢
    rw [counter,next,calls]
    simp only [List.filterMap_cons,SemCall.upOf,SemCall.downOf,if_true,List.length_cons]
    omega

theorem Accounted.move {n : Nat} (accounted : Accounted n s k)
    (move : Move (fun k r => r = s → (k.sem s).semCompteur ≠ 0x7FFFFFFF) far c k t) : Accounted n s t := by
  cases move with
  | log => exact accounted_same accounted rfl rfl
  | founded => exact accounted_same accounted rfl rfl
  | joined => exact accounted_same accounted rfl rfl
  | begun => exact accounted_same accounted rfl rfl
  | @took r free =>
      by_cases here : r = s
      · subst here
        have next := toInt_pred free
        have nonneg := accounted.nonneg
        have balance := accounted.balance
        have counter : ((k.took c r).sem r).semCompteur = (k.sem r).semCompteur-1 := by simp [Kernel.took]
        have calls : (k.took c r).semCalls = .down r (k.runner c) :: k.semCalls := rfl
        constructor
        · rw [counter,next]
          omega
        · unfold Kernel.ups Kernel.downs at balance ⊢
          rw [counter,next,calls]
          simp only [List.filterMap_cons,SemCall.upOf,SemCall.downOf,if_true,List.length_cons]
          omega
      · have counter : ((k.took c r).sem s).semCompteur = (k.sem s).semCompteur := by
          simp [Kernel.took,Ne.symm here]
        have balance := accounted.balance
        constructor
        · rw [counter]
          exact accounted.nonneg
        · unfold Kernel.ups Kernel.downs at balance ⊢
          rw [counter]
          simpa only [Kernel.took,List.filterMap_cons,SemCall.upOf,SemCall.downOf,if_neg here] using balance
  | @blockedIn q r =>
      refine accounted_same accounted ?_ rfl
      by_cases here : s = r
      · subst here
        simp [Kernel.blockedIn]
      · simp [Kernel.blockedIn,here]
  | @freed r room =>
      by_cases here : r = s
      · subst here
        exact ups_here accounted (room rfl) (by simp [Kernel.freed]) rfl
      · exact ups_other accounted (by simp [Kernel.freed,Ne.symm here]) rfl here
  | @woken r p room =>
      by_cases here : r = s
      · subst here
        exact ups_here accounted (room rfl) (by simp [Kernel.woken,Kernel.log]) rfl
      · exact ups_other accounted (by simp [Kernel.woken,Kernel.log,Ne.symm here]) rfl here
  | popped => exact accounted_same accounted rfl rfl
  | unlinked => exact accounted_same accounted rfl rfl
  | opened => exact accounted_same accounted rfl rfl
  | saved => exact accounted_same accounted rfl rfl
  | entering => exact accounted_same accounted rfl rfl
  | resuming => exact accounted_same accounted rfl rfl

-- Where nobody gives back more than he has taken, those who hold a unit are no
-- more than the units out.
theorem holders_le {α : Type} [BEq α] [LawfulBEq α] {us ds l : List α} (le : ∀ a, us.count a ≤ ds.count a) (nodup : l.Nodup)
    (holds : ∀ a ∈ l, us.count a < ds.count a) : l.length+us.length ≤ ds.length := by
  have below : (l ++ us).Subperm ds := by
    rw [List.subperm_ext_iff]
    intro a _
    rw [List.count_append]
    by_cases member : a ∈ l
    · have one := List.nodup_iff_count_le_one.mp nodup a
      have more := holds a member
      omega
    · rw [List.count_eq_zero_of_not_mem member]
      have some := le a
      omega
  simpa using below.length_le

-- No sem_up finds the counter at INT_MAX.
def Room (s : Nat) (k : Kernel) (e : Event) : Prop := e.op k = some (.up s) → (k.sem s).semCompteur ≠ 0x7FFFFFFF

def Inside (k : Kernel) (s p : Nat) : Prop := (k.ups s).count (some p) < (k.downs s).count (some p)

-- On one core the counter of a semaphore is what sem_init has set, plus the calls
-- of sem_up, minus the sem_downs that have returned; it is never negative, and
-- at most so many contexts are inside.
theorem sem_accounting (run : Run KernelStep (bootKernel init) past k) (solo : Met (Solo core) past) (small : (init s).toNat < 2^31)
    (room : Met (Room s) past) :
    0 ≤ (k.sem s).semCompteur.toInt ∧ (k.sem s).semCompteur.toInt = (init s).toNat+(k.ups s).length-(k.downs s).length ∧
      ((∀ owner, (k.ups s).count owner ≤ (k.downs s).count owner) →
        ∀ l : List Nat, l.Nodup → (∀ p ∈ l, Inside k s p) → l.length ≤ (init s).toNat) := by
  have start : Accounted (init s).toNat s (bootKernel init) := by
    have value : ((bootKernel init).sem s).semCompteur.toInt = (init s).toNat := by
      rw [BitVec.toInt_eq_toNat_cond]
      exact if_pos (by change 2*(init s).toNat < 2^32; omega)
    constructor
    · rw [value]
      exact Int.natCast_nonneg _
    · rw [value]
      rfl
  have both : Met (fun k e => Solo core k e ∧ Room s k e) past := fun entry member => ⟨solo entry member,room entry member⟩
  have kept := (run.keeps (fun k e => Solo core k e ∧ Room s k e) (P := fun k => OneCore core k ∧ Accounted (init s).toNat s k)
    (fun t e u inv here taken => by
      obtain ⟨moves,one⟩ := inv.1.step (fun k r => r = s → (k.sem s).semCompteur ≠ 0x7FFFFFFF) here.1
        (fun r issued equal => here.2 (equal ▸ issued)) (fun _ _ _ _ _ => id) taken
      exact ⟨one,moves_keep (fun _ _ move accounted => accounted.move move) moves inv.2⟩)
    ⟨boot_oneCore,start⟩ both).1.2
  have nonneg := kept.nonneg
  have balance := kept.balance
  refine ⟨nonneg,by omega,?_⟩
  intro fair l nodup inside
  have nodups : (l.map some).Nodup := nodup.map (Option.some_injective _)
  have holds : ∀ a ∈ l.map some, (k.ups s).count a < (k.downs s).count a := by
    intro a member
    obtain ⟨p,own,equal⟩ := List.mem_map.mp member
    subst equal
    exact inside p own
  have few := holders_le fair nodups holds
  rw [List.length_map] at few
  omega

-- A context that performs one operation and returns.
def single (op : Op) : Func := fun _ pc => if pc = 0 then some op else none

theorem sem_accounting_once : ∃ past k, Run KernelStep (bootKernel fun _ => 1) past k ∧ (k.downs 0).length = 1 ∧
    (k.sem 0).semCompteur.toInt = 0 := by
  have start := boot_meet (fun _ => 1) fun k e => Solo 0 k e ∧ Room 0 k e
  have one := Kernel.meet start (.boot 0 (.create (single (.down 0)))) rfl rfl ⟨rfl,fun issued => by cases issued⟩
  have two := Kernel.meet one (.timer 0) trivial rfl ⟨rfl,fun issued => by cases issued⟩
  obtain ⟨run,met⟩ := Kernel.meet two (.run 0) (List.cons_ne_nil _ _) rfl ⟨rfl,fun issued => by cases issued⟩
  have balance := (sem_accounting (s := 0) run (fun entry member => (met entry member).1) (by decide) fun entry member => (met entry member).2).2.1
  exact ⟨_,_,run,rfl,balance⟩

-- sem_init takes an unsigned value, the counter is an int; and it wraps at INT_MAX.
theorem sem_counter_negative : ((bootKernel fun _ => 0x80000000).sem 0).semCompteur.toInt < 0 ∧
    ∃ past k, Run KernelStep (bootKernel fun _ => 0x7FFFFFFF) past k ∧ (k.ups 0).length = 1 ∧ (k.sem 0).semCompteur.toInt < 0 := by
  have one := Kernel.reach (Run.start (bootKernel fun _ => 0x7FFFFFFF)) (.boot 0 (.create (single (.up 0)))) rfl rfl
  have two := Kernel.reach one (.timer 0) trivial rfl
  have three := Kernel.reach two (.run 0) (List.cons_ne_nil _ _) rfl
  exact ⟨by decide,_,_,three,rfl,by decide⟩

-- A sem_up that wakes a context leaves nobody waiting.
def Lone (k : Kernel) (s : Nat) : Prop :=
  ∀ p, (k.sem s).semCtxBlocked = some p → 1 ≤ ((k.sem s).semCompteur+1).toInt → (k.ctx p).nextSemaphoreContext = none

def Served (k : Kernel) (e : Event) : Prop :=
  (e.Yields k → AtHome True k e.core) ∧ ∀ s, e.op k = some (.up s) → Lone k s

def NoWait (k : Kernel) : Prop := ∀ s, 0 < (k.sem s).semCompteur.toInt → (k.sem s).semCtxBlocked = none

theorem noWait_same (served : NoWait k) (sem : t.sem = k.sem) : NoWait t := by
  unfold NoWait
  rw [sem]
  exact served

theorem noWait_update {v : Sem} (served : NoWait k) (sem : t.sem = Function.update k.sem r v)
    (here : 0 < v.semCompteur.toInt → v.semCtxBlocked = none) : NoWait t := by
  intro s up
  rw [sem] at up ⊢
  by_cases same : s = r
  · subst same
    rw [Function.update_self] at up ⊢
    exact here up
  · rw [Function.update_of_ne same] at up ⊢
    exact served s up

theorem NoWait.move (served : NoWait k) (move : Move Lone far c k t) : NoWait t := by
  cases move with
  | log => exact noWait_same served rfl
  | founded => exact noWait_same served rfl
  | joined => exact noWait_same served rfl
  | begun => exact noWait_same served rfl
  | @took r free => exact noWait_update served rfl fun _ => served r free
  | @blockedIn q r _ _ out => exact noWait_update served rfl fun up => absurd up out
  | @freed r _ keeps => exact noWait_update served rfl fun up => keeps.resolve_right fun not => not up
  | @woken r p lone head up => exact noWait_update served rfl fun _ => lone p head up
  | popped => exact noWait_same served rfl
  | unlinked => exact noWait_same served rfl
  | opened => exact noWait_same served rfl
  | saved => exact noWait_same served rfl
  | entering => exact noWait_same served rfl
  | resuming => exact noWait_same served rfl

theorem Served.keeps (served : Served k e) (inv : Orderly k ∧ NoWait k) (taken : KernelStep k e t) : Orderly t ∧ NoWait t := by
  obtain ⟨moves,orderly⟩ := step_moves Lone True inv.1 served.1 served.2 (fun _ _ _ _ _ => id) taken
  exact ⟨orderly,moves_keep (fun _ _ move kept => kept.move move) moves inv.2⟩

-- In a run of such steps the blocked contexts are those on the waiting lists, each
-- on one list and once, and nobody waits for a semaphore that has a unit.
theorem no_wait_while_free (run : Run KernelStep (bootKernel init) past k) (met : Met Served past) :
    (∃ w : Nat → List Nat, (∀ s, Linked k.link none (k.sem s).semCtxBlocked ((w s).map some) ∧ (w s).Nodup ∧ ∀ p ∈ w s, p < k.count) ∧
      ∀ p < k.count, (k.ctx p).state = .blocked ↔ ∃! s, p ∈ w s) ∧
      ∀ s, 0 < (k.sem s).semCompteur.toInt → (k.sem s).semCtxBlocked = none := by
  have start : NoWait (bootKernel init) := fun _ _ => rfl
  obtain ⟨orderly,served⟩ := (run.keeps Served (P := fun k => Orderly k ∧ NoWait k) (fun _ _ _ inv served taken => served.keeps inv taken)
    ⟨boot_orderly init,start⟩ met).1
  obtain ⟨w,waits⟩ := orderly.sound.queued
  refine ⟨⟨w,?_,?_⟩,served⟩
  · intro s
    exact ⟨waits.list s,List.Nodup.of_map _ (linked_nodup (waits.list s)),fun p member => (waits.blocked s p member).1⟩
  · intro p bound
    constructor
    · intro blocked
      obtain ⟨s,member⟩ := waits.listed p bound blocked
      exact ⟨s,member,fun r other => waits.once r s p other member⟩
    · intro listed
      obtain ⟨s,member,_⟩ := listed
      exact (waits.blocked s p member).2

theorem no_wait_while_free_once : ∃ past k, Run KernelStep (bootKernel fun _ => 0) past k ∧ k.count = 2 ∧
    (k.sem 0).semCtxBlocked = some 0 ∧ ¬ 0 < (k.sem 0).semCompteur.toInt := by
  have one := Kernel.meet (boot_meet (fun _ => 0) Served) (.boot 0 (.create (single (.down 0)))) rfl rfl
    ⟨fun _ => .inr ⟨rfl,trivial⟩,fun s issued => by cases issued⟩
  have two := Kernel.meet one (.boot 0 (.create idle)) rfl rfl ⟨fun _ => .inl rfl,fun s issued => by cases issued⟩
  have three := Kernel.meet two (.timer 0) trivial rfl ⟨fun _ => .inl rfl,fun s issued => by cases issued⟩
  obtain ⟨run,met⟩ := Kernel.meet three (.run 0) (List.cons_ne_nil _ _) rfl ⟨fun _ => .inl rfl,fun s issued => by cases issued⟩
  have free := (no_wait_while_free run met).2 0
  refine ⟨_,_,run,rfl,rfl,fun up => ?_⟩
  have none := free up
  cases none

-- Two contexts wait, one unit is given back: one of them still waits while the
-- counter is 1.
theorem waits_while_free : ∃ past k, Run KernelStep (bootKernel fun _ => 0) past k ∧ past.map Prod.snd =
    [.boot 0 (.create (single (.down 0))),.boot 0 (.create (single (.up 0))),.boot 0 (.create (single (.down 0))),.timer 0,.run 0,.run 0,.run 0] ∧
    (k.sem 0).semCompteur.toInt = 1 ∧ (k.sem 0).semCtxBlocked = some 0 ∧ (k.ctx 0).state = .blocked := by
  have one := Kernel.reach (Run.start (bootKernel fun _ => 0)) (.boot 0 (.create (single (.down 0)))) rfl rfl
  have two := Kernel.reach one (.boot 0 (.create (single (.up 0)))) rfl rfl
  have three := Kernel.reach two (.boot 0 (.create (single (.down 0)))) rfl rfl
  have four := Kernel.reach three (.timer 0) trivial rfl
  have five := Kernel.reach four (.run 0) (List.cons_ne_nil _ _) rfl
  have six := Kernel.reach five (.run 0) (List.cons_ne_nil _ _) rfl
  have seven := Kernel.reach six (.run 0) (List.cons_ne_nil _ _) rfl
  exact ⟨_,_,seven,rfl,rfl,rfl,rfl⟩

end AsePlusPlus
