import Mathlib.Algebra.GroupWithZero.Nat
import AsePlusPlus.Contexts

namespace AsePlusPlus
open Words Program Chain Ring Trace

variable {k t u : Kernel} {c core n m p q s x : Nat} {l before after : List Nat} {cells : List Cell} {e : Event} {call : Call}

-- The contexts that yield passes on its way from `q` to `p`, which waits for no
-- semaphore.
structure Ahead (k : Kernel) (q p : Nat) (l : List Nat) : Prop where
  way : Leads k.next q l p
  apart : (q :: (l ++ [p])).Nodup
  created : ∀ x ∈ q :: (l ++ [p]), x < k.count
  runnable : (k.ctx p).state ≠ .blocked

theorem Ahead.other (ahead : Ahead k q p l) : p ≠ q ∧ q ∉ l := by
  have apart := (List.nodup_cons.mp ahead.apart).1
  rw [List.mem_append,List.mem_singleton,not_or] at apart
  exact ⟨fun same => apart.2 same.symm,apart.1⟩

theorem Ahead.same (ahead : Ahead k q p l) (next : ∀ x ∈ q :: l, t.next x = k.next x) (count : k.count ≤ t.count)
    (state : (t.ctx p).state = .blocked → (k.ctx p).state = .blocked) : Ahead t q p l :=
  ⟨leads_congr ahead.way next,ahead.apart,fun x member => Nat.lt_of_lt_of_le (ahead.created x member) count,
    fun blocked => ahead.runnable (state blocked)⟩

theorem Ahead.nearer (ahead : Ahead k q p (before ++ x :: after)) : Ahead k x p after := by
  obtain ⟨way,apart,created,runnable⟩ := ahead
  have behind : List.Sublist (x :: (after ++ [p])) (q :: (before ++ x :: after ++ [p])) := by
    rw [List.append_assoc,List.cons_append]
    exact (List.sublist_append_right before _).cons q
  exact ⟨(leads_append.mp way).2,apart.sublist behind,fun y member => created y (behind.subset member),runnable⟩

-- Before anything has been switched to, the first yield only starts the context
-- that is current already.
def Kernel.opening (k : Kernel) : Nat := if k.firstContext then 1 else 0

-- `p` gets the processor of a core at the `n`-th yield from here at the latest, as
-- long as no context is created.
def Due (c p n : Nat) (k : Kernel) : Prop :=
  ∃ q l, k.currentCtx c = some q ∧ Ahead k q p l ∧ l.length+1+k.opening ≤ n

def DueBy (c p n : Nat) (k : Kernel) : Prop := k.currentCtx c = some p ∨ Due c p n k

theorem Ahead.spared (ahead : Ahead k q p l) (count : t.count = k.count) (spares : SameLinks k.ctx t.ctx) : Ahead t q p l :=
  ahead.same (fun x _ => (spares x).1) (Nat.le_of_eq count.symm) (spares p).2

theorem DueBy.spared (due : DueBy c p n k) (current : t.currentCtx = k.currentCtx) (first : t.firstContext = k.firstContext)
    (count : t.count = k.count) (spares : SameLinks k.ctx t.ctx) : DueBy c p n t := by
  unfold DueBy Due Kernel.opening
  rw [current,first]
  rcases due with here | ⟨q,l,stands,ahead,bound⟩
  · exact .inl here
  · exact .inr ⟨q,l,stands,ahead.spared count spares,bound⟩

-- The search behind `q` does not pass `p`.
theorem seekRunnable_ahead (leads : Leads k.next q l p) (runnable : (k.ctx p).state ≠ .blocked) (fuel : Nat) :
    Runs (seekRunnable fuel (k.next q)) k (fun x t => x ∈ l ++ [p] ∧ ∃ cells, t = k.log cells) (fun _ _ => True) := by
  induction fuel generalizing k q l with
  | zero => trivial
  | succ fuel ih =>
      rw [seekRunnable,runs_bind,runs_readCtx,runs_ite]
      cases l with
      | nil =>
          have here : k.next q = p := leads
          rw [here,if_neg runnable]
          exact ⟨List.mem_singleton.mpr rfl,_,rfl⟩
      | cons b rest =>
          obtain ⟨here,onward⟩ := leads
          rw [here]
          by_cases blocked : (k.ctx b).state = .blocked
          · rw [if_pos blocked]
            refine (ih (k := k.log [.ctx b]) onward runnable).mono ?_ (fun _ _ _ => trivial)
            intro x t post
            obtain ⟨member,cells,rfl⟩ := post
            exact ⟨List.mem_cons_of_mem b member,_,log_log⟩
          · rw [if_neg blocked]
            exact ⟨List.mem_cons_self,_,rfl⟩

-- Giving the processor away brings `p` one turn nearer.
theorem yield_due (home : k.currentCore = c) (due : Due c p (n+1) k) :
    Runs (yieldCtx c) k (fun _ t => DueBy c p n t) (fun _ _ => True) := by
  obtain ⟨q,l,current,ahead,bound⟩ := due
  rw [← home] at current ⊢
  simp only [yieldCtx,runs_bind,runs_get,runs_readCurrent,current,runs_ite,runs_modify,runs_pure]
  by_cases first : k.firstContext = true
  · rw [if_pos first]
    refine (switch_spares (k := (k.log _).opened) _ current).mono ?_ (fun _ _ _ => trivial)
    intro _ t post
    obtain ⟨now,later,count,spares,_⟩ := post
    refine .inr ⟨q,l,now,ahead.spared count spares,?_⟩
    unfold Kernel.opening at bound ⊢
    rw [if_pos first] at bound
    rw [if_neg (by rw [later]; exact Bool.false_ne_true)]
    omega
  · rw [if_neg first,runs_readCtx]
    refine (seekRunnable_ahead (k := (k.log _).log _) ahead.way ahead.runnable _).mono ?_ (fun _ _ _ => trivial)
    intro x t post
    obtain ⟨member,cells,rfl⟩ := post
    have other : x ≠ q := by
      intro same
      subst same
      exact (List.nodup_cons.mp ahead.apart).1 member
    rw [if_pos other]
    refine (switch_spares (k := ((k.log _).log _).log _) _ current).mono ?_ (fun _ _ _ => trivial)
    intro _ t post
    obtain ⟨now,later,count,spares,_⟩ := post
    rcases List.mem_append.mp member with between | last
    · obtain ⟨before,after,rfl⟩ := List.append_of_mem between
      refine .inr ⟨x,after,now,ahead.nearer.spared count spares,?_⟩
      unfold Kernel.opening at bound ⊢
      rw [if_neg (by rw [later]; exact first)]
      rw [List.length_append,List.length_cons] at bound
      omega
    · rw [List.mem_singleton.mp last] at now
      exact .inl now

-- What the current context does to itself puts nobody off.
theorem Ahead.leaving (ahead : Ahead k q p l) (count : t.count = k.count) (next : ∀ x, t.next x = k.next x)
    (others : ∀ x, x ≠ q → (t.ctx x).state = (k.ctx x).state) : Ahead t q p l := by
  refine ahead.same (fun x _ => next x) (Nat.le_of_eq count.symm) ?_
  rw [others p ahead.other.1]
  exact id

-- A new context goes between the current one and the next.
theorem Ahead.joined {f : Func} (ahead : Ahead k q p l) : Ahead (k.joined c q f) q p (k.count :: l) := by
  obtain ⟨way,apart,created,runnable⟩ := ahead
  have old : ∀ x ∈ q :: (l ++ [p]), x ≠ k.count := fun x member => Nat.ne_of_lt (created x member)
  have here : q ≠ k.count := old q List.mem_cons_self
  have ctx : ∀ x ∈ l ++ [p], (k.joined c q f).ctx x = k.ctx x := by
    intro x member
    have away : x ≠ q := fun same => (List.nodup_cons.mp apart).1 (same ▸ member)
    simp [Kernel.joined,away,old x (List.mem_cons_of_mem q member)]
  have first : (k.joined c q f).next q = k.count := by simp [Kernel.joined,Kernel.next]
  have second : (k.joined c q f).next k.count = k.next q := by simp [Kernel.joined,Kernel.next,here.symm]
  refine ⟨⟨first,?_⟩,?_,?_,?_⟩
  · cases l with
    | nil => exact second.trans way
    | cons b rest =>
        refine ⟨second.trans way.1,leads_congr way.2 fun x member => ?_⟩
        unfold Kernel.next
        rw [ctx x (List.mem_append_left _ member)]
  · rw [List.cons_append,List.nodup_cons,List.nodup_cons,List.mem_cons,not_or]
    obtain ⟨fresh,distinct⟩ := List.nodup_cons.mp apart
    exact ⟨⟨here,fresh⟩,fun member => old _ (List.mem_cons_of_mem q member) rfl,distinct⟩
  · intro x member
    rw [List.cons_append] at member
    show x < k.count+1
    rcases List.mem_cons.mp member with rfl | member
    · exact Nat.lt_succ_of_lt (created x List.mem_cons_self)
    rcases List.mem_cons.mp member with rfl | member
    · exact Nat.lt_succ_self _
    · exact Nat.lt_succ_of_lt (created x (List.mem_cons_of_mem q member))
  · rw [ctx p (by simp)]
    exact runnable

-- How often an operation gives the processor away, and how many contexts it makes.
def Op.gives (k : Kernel) : Op → Nat
  | .down s => if 0 < (k.sem s).semCompteur.toInt then 0 else 1
  | .up s => if (k.sem s).semCtxBlocked.isSome ∧ 1 ≤ ((k.sem s).semCompteur+1).toInt then 0 else 1
  | .yield => 1
  | .create _ => 0

def Op.creates : Op → Nat
  | .create _ => 1
  | _ => 0

theorem semDown_due (home : k.currentCore = c) (due : Due c p (n+1) k) :
    Runs (semDown c s) k (fun _ t => ∃ m, DueBy c p m t ∧ m+(Op.down s).gives k ≤ n+1) (fun _ _ => True) := by
  obtain ⟨q,l,current,ahead,bound⟩ := due
  simp only [semDown,runs_bind,runs_get,runs_ensure,Op.gives]
  split
  · by_cases free : 0 < (k.sem s).semCompteur.toInt
    · rw [if_pos free,if_pos free]
      exact ⟨n+1,.inr ⟨q,l,current,ahead.leaving rfl (fun _ => rfl) (fun _ _ => rfl),bound⟩,Nat.le_refl _⟩
    · rw [if_neg free,if_neg free]
      simp only [runs_bind,runs_readCurrent,current,writeCtx,runs_modify]
      have kept : Ahead ((k.blockedIn c q s).log [.ctx q,.ctx q,.current c]) q p l := by
        refine ahead.leaving rfl (fun x => ?_) (fun x away => ?_)
        · by_cases here : x = q
          · subst here
            simp [Kernel.blockedIn,Kernel.log,Kernel.next]
          · simp [Kernel.blockedIn,Kernel.log,Kernel.next,here]
        · simp [Kernel.blockedIn,Kernel.log,away]
      have blocked : Due c p (n+1) ((k.blockedIn c q s).log [.ctx q,.ctx q,.current c]) := ⟨q,l,current,kept,bound⟩
      have yielded := yield_due (k := (k.blockedIn c q s).log [.ctx q,.ctx q,.current c]) home blocked
      simp only [Kernel.blockedIn,Kernel.log,Function.update_self,Function.update_idem,List.cons_append,List.nil_append] at yielded ⊢
      refine yielded.mono ?_ (fun _ _ _ => trivial)
      intro away t due
      cases away with
      | true => exact ⟨n,due,Nat.le_refl _⟩
      | false =>
          refine Runs.of_returns resume_keeps ?_
          intro _ u post
          obtain ⟨now,first,count,ctx⟩ := post
          exact ⟨n,due.spared now first count (by rw [ctx]; exact fun _ => ⟨rfl,id⟩),Nat.le_refl _⟩
  · trivial

theorem semUp_due (home : k.currentCore = c) (due : Due c p (n+1) k) :
    Runs (semUp c s) k (fun _ t => ∃ m, DueBy c p m t ∧ m+(Op.up s).gives k ≤ n+1) (fun _ _ => True) := by
  have kept : Due c p (n+1) (k.freed c s) := by
    obtain ⟨q,l,current,ahead,bound⟩ := due
    exact ⟨q,l,current,ahead.leaving rfl (fun _ => rfl) (fun _ _ => rfl),bound⟩
  have gives : Runs (do let _ ← yieldCtx c) (k.freed c s) (fun _ t => ∃ m, DueBy c p m t ∧ m+1 ≤ n+1) (fun _ _ => True) := by
    rw [runs_bind]
    refine (yield_due (k := k.freed c s) home kept).mono ?_ (fun _ _ _ => trivial)
    exact fun _ t due => ⟨n,due,Nat.le_refl _⟩
  unfold Kernel.freed at gives
  dsimp only at gives
  simp only [semUp,runs_bind,runs_get,runs_ensure,runs_modify,Op.gives,Function.update_self]
  split
  · cases head : (k.sem s).semCtxBlocked with
    | none =>
        rw [head] at gives
        rw [if_neg (by simp)]
        exact gives
    | some x =>
        rw [head] at gives
        by_cases up : 1 ≤ ((k.sem s).semCompteur+1).toInt
        · rw [if_pos ⟨rfl,up⟩,runs_ite,if_pos up]
          simp only [runs_bind,runs_modify,writeCtx,runs_readCtx]
          exact ⟨n+1,(DueBy.spared (.inr kept) rfl rfl rfl (spares_update rfl (by simp))),Nat.le_refl _⟩
        · rw [if_neg (fun both => up both.2),runs_ite,if_neg up]
          exact gives
  · trivial

theorem perform_due (home : k.currentCore = c) (due : Due c p (n+1) k) (op : Op) :
    Runs (perform c op) k (fun _ t => ∃ m, DueBy c p m t ∧ m+op.gives k ≤ n+1+op.creates) (fun _ _ => True) := by
  cases op with
  | down s => exact semDown_due home due
  | up s => exact semUp_due home due
  | yield =>
      rw [perform,runs_bind]
      exact (yield_due home due).mono (fun _ t due => ⟨n,due,Nat.le_refl _⟩) (fun _ _ _ => trivial)
  | create f =>
      obtain ⟨q,l,current,ahead,bound⟩ := due
      rw [perform,runs_bind,runs_eq (createCtx_some current (ahead.created q List.mem_cons_self))]
      refine ⟨n+2,.inr ⟨q,k.count :: l,current,ahead.joined.spared rfl (fun _ => ⟨rfl,id⟩),?_⟩,Nat.le_refl _⟩
      unfold Kernel.opening at bound ⊢
      show l.length+1+1+(if k.firstContext then 1 else 0) ≤ n+2
      omega

theorem seekPrevious_before (fuel a : Nat) :
    Runs (seekPrevious q fuel a) k (fun z t => k.next z = q ∧ ∃ cells, t = k.log cells) (fun _ _ => True) := by
  induction fuel generalizing k a with
  | zero => trivial
  | succ fuel ih =>
      rw [seekPrevious,runs_bind,runs_readCtx,runs_ite]
      split
      · rename_i here
        exact ⟨here,_,rfl⟩
      · refine (ih (k := k.log [.ctx a]) (k.ctx a).next).mono ?_ (fun _ _ _ => trivial)
        intro z t post
        obtain ⟨last,cells,rfl⟩ := post
        exact ⟨last,_,log_log⟩

-- The context that is unlinked is not on the way, and neither is the one before it.
theorem deleteCtx_ahead (current : k.currentCtx k.currentCore = some q) (ahead : Ahead k q p l) :
    Runs deleteCtx k (fun _ t => t.currentCtx = k.currentCtx ∧ t.firstContext = k.firstContext ∧ t.currentCore = k.currentCore ∧
      Ahead t q p l) (fun _ _ => True) := by
  simp only [deleteCtx,runs_bind,runs_get,runs_readCurrent,current]
  refine (seekPrevious_before (k := k.log _) k.count q).mono ?_ (fun _ _ _ => trivial)
  intro z t post
  obtain ⟨last,cells,rfl⟩ := post
  have off : ∀ x ∈ q :: l, x ≠ z := by
    intro x member same
    subst same
    have onward := leads_closed ahead.way member
    rw [show k.next x = q from last] at onward
    exact (List.nodup_cons.mp ahead.apart).1 onward
  simp only [runs_readCtx,runs_ensure,writeCtx,runs_modify]
  split
  · refine ⟨rfl,rfl,rfl,ahead.same (fun x member => ?_) (Nat.le_refl _) ?_⟩
    · simp [Kernel.next,Kernel.log,off x member]
    · by_cases here : p = z
      · subst here
        simp [Kernel.log]
      · simp [Kernel.log,here]
  · trivial

theorem returned_due (home : k.currentCore = c) (due : Due c p (n+1) k) :
    Runs (returned c) k (fun _ t => DueBy c p n t) (fun _ _ => True) := by
  obtain ⟨q,l,current,ahead,bound⟩ := due
  have here : k.currentCtx k.currentCore = some q := home.symm ▸ current
  simp only [returned,runs_bind,runs_get,runs_readCurrent,here,writeCtx,runs_modify]
  generalize ended : ({k.log [.current k.currentCore] with
    ctx := Function.update (k.log [.current k.currentCore]).ctx q {(k.log [.current k.currentCore]).ctx q with state := .terminated}
    touched := .ctx q :: (k.log [.current k.currentCore]).touched} : Kernel) = u
  have kept : Ahead u q p l := by
    subst ended
    refine ahead.leaving rfl (fun x => ?_) (fun x away => ?_)
    · by_cases same : x = q
      · subst same
        simp [Kernel.log,Kernel.next]
      · simp [Kernel.log,Kernel.next,same]
    · simp [Kernel.log,away]
  have same : u.currentCtx = k.currentCtx ∧ u.firstContext = k.firstContext ∧ u.currentCore = k.currentCore := by
    subst ended
    exact ⟨rfl,rfl,rfl⟩
  obtain ⟨now,first,core⟩ := same
  refine (deleteCtx_ahead (by rw [now,core]; exact here) kept).mono ?_ (fun _ _ _ => trivial)
  intro _ t post
  obtain ⟨now',first',core',left⟩ := post
  refine (yield_due (c := c) (n := n) (core'.trans (core.trans home)) ⟨q,l,?_,left,?_⟩).mono ?_ (fun _ _ _ => trivial)
  · rw [now',now]
    exact current
  · unfold Kernel.opening at bound ⊢
    rw [first',first]
    exact bound
  intro away t due
  cases away with
  | true => exact due
  | false =>
      refine Runs.of_returns resume_keeps ?_
      intro _ u post
      obtain ⟨now,first,count,ctx⟩ := post
      exact due.spared now first count (by rw [ctx]; exact fun _ => ⟨rfl,id⟩)

-- A context whose function returns gives the processor away as well.
def Event.gives (k : Kernel) (e : Event) : Nat :=
  match e.op k with
  | none => 1
  | some op => op.gives k

def Event.creates (k : Kernel) (e : Event) : Nat :=
  match e.op k with
  | none => 0
  | some op => op.creates

theorem step_due (home : k.currentCore = core) (solo : e.core = core) (due : Due core p (n+1) k) (taken : KernelStep k e t) :
    ∃ m, DueBy core p m t ∧ m+e.gives k ≤ n+1+e.creates k := by
  obtain ⟨enabled,ran⟩ := taken
  cases e with
  | timer c =>
      cases solo
      have outcome : Runs (Event.timer c).act k (fun _ t => DueBy c p n t) (fun _ _ => True) := by
        rw [Event.act,runs_bind]
        exact (yield_due home due).mono (fun _ _ due => due) (fun _ _ _ => trivial)
      exact ⟨n,outcome.result ran,Nat.le_refl _⟩
  | boot c op =>
      cases solo
      exact (perform_due home due op).result ran
  | run c =>
      cases solo
      have outcome : Runs (runNext c) k (fun _ t => ∃ m, DueBy c p m t ∧ m+(Event.run c).gives k ≤ n+1+(Event.run c).creates k)
          (fun _ _ => True) := by
        have busy : k.cpu c ≠ [] := enabled
        unfold runNext Event.gives Event.creates Event.op
        simp only [runs_bind,runs_get]
        cases top : k.cpu c with
        | nil => exact absurd top busy
        | cons call rest =>
            dsimp only
            obtain ⟨q,l,current,ahead,bound⟩ := due
            cases (k.ctx call.owner).function call.entry call.pc with
            | none =>
                rw [runs_bind,runs_modify]
                have left : Due c p (n+1) {k with cpu := Function.update k.cpu c rest} :=
                  ⟨q,l,current,ahead.spared rfl fun _ => ⟨rfl,id⟩,bound⟩
                have returned := returned_due (k := {k with cpu := Function.update k.cpu c rest}) home left
                exact returned.mono (fun _ _ due => ⟨n,due,Nat.le_refl _⟩) (fun _ _ _ => trivial)
            | some op =>
                rw [runs_bind,runs_modify]
                have begun : Due c p (n+1) (k.begun c call rest) := ⟨q,l,current,ahead.spared rfl fun _ => ⟨rfl,id⟩,bound⟩
                have same : op.gives (k.begun c call rest) = op.gives k := by cases op <;> rfl
                have performed := perform_due (k := k.begun c call rest) home begun op
                rw [same] at performed
                exact performed
      exact outcome.result ran

-- How often the processor has been given away, and how many contexts created.
def given (later : List (Kernel × Event)) : Nat := (later.map fun entry => entry.2.gives entry.1).sum

def created (later : List (Kernel × Event)) : Nat := (later.map fun entry => entry.2.creates entry.1).sum

theorem Due.positive (due : Due c p n k) : ∃ m, n = m+1 ∧ 0 < k.count := by
  obtain ⟨q,l,_,ahead,bound⟩ := due
  exact ⟨n-1,by omega,Nat.lt_of_le_of_lt (Nat.zero_le q) (ahead.created q List.mem_cons_self)⟩

theorem run_due {later : List (Kernel × Event)} (one : OneCore core k) (due : Due core p (n+1) k) (run : Run KernelStep k later t)
    (solo : Met (Solo core) later) (waits : ∀ entry ∈ later, entry.1.currentCtx core ≠ some p) :
    OneCore core t ∧ ∃ m, DueBy core p m t ∧ m+given later ≤ n+1+created later := by
  induction run with
  | start => exact ⟨one,n+1,.inr due,Nat.le_refl _⟩
  | @next t u later e run taken ih =>
      obtain ⟨early,here⟩ := met_snoc.mp solo
      obtain ⟨one',m,due',bound⟩ := ih early fun entry member => waits entry (List.mem_append_left _ member)
      have away := waits (t,e) (by simp)
      obtain ⟨i,rfl,some⟩ := (due'.resolve_left away).positive
      have home : t.currentCore = core := one'.here.resolve_right fun none => by omega
      obtain ⟨j,due'',cost⟩ := step_due home here (due'.resolve_left away) taken
      have after := (one'.step (fun _ _ => True) here (fun _ _ => trivial) (fun _ _ _ _ _ _ => trivial) taken).2
      refine ⟨after,j,due'',?_⟩
      unfold given created at bound ⊢
      simp only [List.map_append,List.map_cons,List.map_nil,List.sum_append,List.sum_singleton]
      omega

-- A member of the ring lies ahead of the current context.
theorem Rounds.ahead {ring : List Nat} (rounds : Rounds k c ring) (member : p ∈ ring) (ready : (k.ctx p).state ≠ .blocked)
    (away : k.currentCtx c ≠ some p) : ∃ q l, k.currentCtx c = some q ∧ Ahead k q p l ∧ l.length+2 ≤ ring.length := by
  obtain ⟨first,circular,members⟩ := rounds
  cases ring with
  | nil => cases member
  | cons q rest =>
      have ring := circular.resolve_left (List.cons_ne_nil q rest)
      have current : k.currentCtx c = some q := first.symm
      have other : p ≠ q := fun same => away (same ▸ current)
      obtain ⟨l,m,rfl⟩ := List.append_of_mem (List.mem_of_ne_of_mem other member)
      have front : List.Sublist (q :: (l ++ [p])) (q :: (l ++ p :: m)) := by
        have onward : List.Sublist (l ++ [p]) (l ++ [p] ++ m) := List.sublist_append_left _ m
        rw [List.append_assoc,List.singleton_append] at onward
        exact onward.cons_cons q
      refine ⟨q,l,current,⟨(leads_append.mp ring.1).1,ring.nodup.sublist front,fun x inside => ?_,ready⟩,?_⟩
      · exact ((members x).mp (front.subset inside)).1.1
      · simp only [List.length_cons,List.length_append]
        omega

-- No context that is ready waits for ever: before it gets the processor, the
-- processor is given away less often than there are other contexts, those counted
-- that are created meanwhile.
theorem bounded_waiting {past later : List (Kernel × Event)} {ring : List Nat} {init : Nat → Word}
    (early : Run KernelStep (bootKernel init) past k) (solo : Met (Solo core) past) (rounds : Rounds k core ring) (member : p ∈ ring)
    (ready : (k.ctx p).state ≠ .blocked) (away : k.currentCtx core ≠ some p) (run : Run KernelStep k later t)
    (solo' : Met (Solo core) later) (waits : ∀ entry ∈ later, entry.1.currentCtx core ≠ some p) :
    t.currentCtx core = some p ∨ given later+1 < ring.length+k.opening+created later := by
  obtain ⟨q,l,current,ahead,short⟩ := rounds.ahead member ready away
  have due : Due core p (l.length+k.opening+1) k := ⟨q,l,current,ahead,by omega⟩
  obtain ⟨_,m,due',bound⟩ := run_due (solo_oneCore early solo) due run solo' waits
  refine due'.imp_right fun still => ?_
  obtain ⟨i,rfl,_⟩ := still.positive
  omega

-- Two contexts, of which the first has been started.
theorem bounded_waiting_two : ∃ past later k t, Run KernelStep (bootKernel fun _ => 0) past k ∧ Run KernelStep k later t ∧
    later.map Prod.snd = [.timer 0] ∧ t.currentCtx 0 ≠ some 1 ∧ ∃ ring, Rounds k 0 ring ∧ given later+1 < ring.length+k.opening+created later := by
  have one := Kernel.meet (boot_meet (fun _ => 0) (Solo 0)) (.boot 0 (.create idle)) rfl rfl rfl
  obtain ⟨run,solo⟩ := Kernel.meet one (.boot 0 (.create idle)) rfl rfl rfl
  have one := solo_oneCore run solo
  obtain ⟨ring,rounds⟩ := one.orderly.rounds 0
  have members := fun p => (rounds.members p).trans (one.alive p)
  refine ⟨_,_,_,_,run,.single (step_after (e := .timer 0) trivial rfl),rfl,by decide,ring,rounds,?_⟩
  exact (bounded_waiting run solo rounds ((members 1).mpr ⟨by decide,by decide⟩) (by decide) (by decide)
    (.single (step_after (e := .timer 0) trivial rfl)) (by simp [Met,Solo,Event.core]) (by simp; decide)).resolve_left (by decide)

end AsePlusPlus
