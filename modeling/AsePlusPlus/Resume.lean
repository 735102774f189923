import AsePlusPlus.Semaphores

namespace AsePlusPlus
open Words Program Chain Ring Trace

variable {C : Kernel → Nat → Prop} {far : Prop} {k t u : Kernel} {c core m p q r s : Nat} {f : Func} {e : Event} {init : Nat → Word}
  {past : List (Kernel × Event)}

-- The operations that a context has begun, newest first.
def Kernel.steps (k : Kernel) (p : Nat) : List Nat := (k.performed.filter fun entry => entry.1 = p).map Prod.snd

-- The stack of a context, which its core runs on while it is the current one.
def Kernel.stack (k : Kernel) (p : Nat) : List Call :=
  if k.currentCtx (k.ctx p).home = some p then k.cpu (k.ctx p).home else (k.ctx p).esp

-- A context that has not begun, and one in its only call.
def Unbegun (k : Kernel) (p : Nat) : Prop := (k.ctx p).entered = 0 ∧ k.steps p = [] ∧ k.stack p = []

def InCall (k : Kernel) (p m : Nat) : Prop :=
  (k.ctx p).entered = 1 ∧ (k.ctx p).state ≠ .activable ∧ ∃ inside, k.stack p = [⟨p,0,m,inside⟩]

structure OnceFor (k : Kernel) (p : Nat) : Prop where
  entered : (k.ctx p).entered ≤ 1
  order : ∃ m, k.steps p = (List.range m).reverse ∧ ((k.ctx p).state ≠ .terminated → Unbegun k p ∨ InCall k p m)

structure Once (k : Kernel) : Prop where
  each : ∀ p < k.count, OnceFor k p
  known : ∀ entry ∈ k.performed, entry.1 < k.count

theorem stack_current (current : k.currentCtx c = some p) (own : k.Owns c p) : k.stack p = k.cpu c := by
  unfold Kernel.stack
  rw [own.2,if_pos current]

theorem stack_other (current : k.currentCtx c = some q) (own : k.Owns c p) (apart : p ≠ q) : k.stack p = (k.ctx p).esp := by
  unfold Kernel.stack
  rw [own.2,current]
  refine if_neg ?_
  intro same
  exact apart (Option.some.inj same).symm

-- A context whose own calls a move does not change.
theorem once_same (once : OnceFor k p) (steps : t.steps p = k.steps p) (entered : (t.ctx p).entered = (k.ctx p).entered)
    (same : (t.ctx p).state ≠ .terminated → (k.ctx p).state ≠ .terminated ∧ t.stack p = k.stack p ∧
      ((t.ctx p).state = .activable → (k.ctx p).state = .activable)) : OnceFor t p := by
  obtain ⟨few,m,order,phase⟩ := once
  refine ⟨entered ▸ few,m,steps.trans order,fun living => ?_⟩
  obtain ⟨before,stack,activable⟩ := same living
  rcases phase before with fresh | within
  · obtain ⟨none,empty,idle⟩ := fresh
    exact .inl ⟨entered.trans none,steps.trans empty,stack.trans idle⟩
  · obtain ⟨one,begun,inside,call⟩ := within
    exact .inr ⟨entered.trans one,fun again => begun (activable again),inside,stack.trans call⟩

theorem once_quiet (once : Once k) (count : t.count = k.count) (performed : t.performed = k.performed)
    (each : ∀ p < k.count, OnceFor k p → OnceFor t p) : Once t := by
  constructor
  · intro p bound
    rw [count] at bound
    exact each p bound (once.each p bound)
  · rw [count,performed]
    exact once.known

theorem steps_quiet (performed : t.performed = k.performed) (p : Nat) : t.steps p = k.steps p := by
  unfold Kernel.steps
  rw [performed]

-- A context on another core than the one that the move is about.
theorem stack_away (away : (k.ctx p).home ≠ c) (ctx : t.ctx p = k.ctx p) (current : ∀ d, d ≠ c → t.currentCtx d = k.currentCtx d)
    (cpu : ∀ d, d ≠ c → t.cpu d = k.cpu d) : t.stack p = k.stack p := by
  unfold Kernel.stack
  rw [ctx,current _ away,cpu _ away]

theorem once_ctx (once : OnceFor k p) (performed : t.performed = k.performed) (ctx : t.ctx p = k.ctx p) (stack : t.stack p = k.stack p) :
    OnceFor t p := by
  refine once_same once (steps_quiet performed p) (by rw [ctx]) fun living => ?_
  rw [ctx] at living ⊢
  exact ⟨living,stack,id⟩

theorem NewCtx.once (created : NewCtx k t c) (once : Once k) (performed : t.performed = k.performed)
    (entered : ∀ p < k.count, (t.ctx p).entered = (k.ctx p).entered) (begins : (t.ctx k.count).entered = 0)
    (stack : ∀ p < k.count, (k.ctx p).state ≠ .terminated → t.stack p = k.stack p) (empty : t.stack k.count = []) : Once t := by
  constructor
  · intro p bound
    rw [created.count] at bound
    rcases Nat.lt_or_eq_of_le (Nat.le_of_lt_succ bound) with old | new
    · refine once_same (once.each p old) (steps_quiet performed p) (entered p old) fun living => ?_
      rw [(created.old p old).2.1] at living ⊢
      exact ⟨living,stack p old living,id⟩
    · subst new
      have none : t.steps k.count = [] := by
        unfold Kernel.steps
        rw [performed,List.map_eq_nil_iff,List.filter_eq_nil_iff]
        intro entry member
        have early := Nat.ne_of_lt (once.known entry member)
        simpa using early
      refine ⟨begins ▸ Nat.zero_le 1,0,none,fun _ => .inl ⟨begins,none,empty⟩⟩
  · intro entry member
    rw [performed] at member
    rw [created.count]
    exact Nat.lt_succ_of_lt (once.known entry member)

theorem Once.founded (once : Once k) (none : k.currentCtx c = none) (idle : k.cpu c = []) (empty : ∀ p, ¬ k.Alive c p) :
    Once (k.founded c f) := by
  have created := founded_created (f := f) none
  have same : ∀ p < k.count, (k.founded c f).ctx p = k.ctx p := fun p bound => Function.update_of_ne (Nat.ne_of_lt bound) _ _
  refine created.once once rfl ?_ ?_ ?_ ?_
  · intro p bound
    rw [same p bound]
  · simp [Kernel.founded]
  · intro p bound living
    refine stack_away (c := c) ?_ (same p bound) created.other fun _ _ => rfl
    intro home
    exact empty p ⟨⟨bound,home⟩,living⟩
  · rw [stack_current (c := c) (by simp [Kernel.founded]) ((created.owns c k.count).mpr (.inr ⟨rfl,rfl⟩))]
    exact idle

theorem Once.joined (once : Once k) (current : k.currentCtx c = some q) (own : k.Owns c q) : Once (k.joined c q f) := by
  have created := joined_created (f := f) own
  have apart := Nat.ne_of_lt own.1
  have same : ∀ p < k.count, ((k.joined c q f).ctx p).entered = (k.ctx p).entered := by
    intro p bound
    by_cases here : p = q
    · subst here
      simp [Kernel.joined]
    · simp [Kernel.joined,here,Nat.ne_of_lt bound]
  refine created.once once rfl same ?_ ?_ ?_
  · simp [Kernel.joined,Ne.symm apart]
  · intro p bound _
    unfold Kernel.stack
    rw [(created.old p bound).2.2.2.1,(created.old p bound).2.2.1]
    rfl
  · rw [stack_other (k := k.joined c q f) current ((created.owns c k.count).mpr (.inr ⟨rfl,rfl⟩)) (Ne.symm apart)]
    simp [Kernel.joined,Ne.symm apart]

-- The next operation of the current context.
theorem Once.begun {call : Call} {rest : List Call} (once : Once k) (top : k.cpu c = call :: rest) (current : k.currentCtx c = some call.owner)
    (alive : k.Alive c call.owner) : Once (k.begun c call rest) := by
  have steps : ∀ p, (k.begun c call rest).steps p = if call.owner = p then call.pc :: k.steps p else k.steps p := by
    intro p
    by_cases here : call.owner = p
    · simp [Kernel.steps,Kernel.begun,here]
    · simp [Kernel.steps,Kernel.begun,here]
  constructor
  · intro p bound
    have one := once.each p bound
    by_cases here : call.owner = p
    · subst here
      obtain ⟨few,m,order,phase⟩ := one
      have stack := stack_current current alive.1
      rcases phase alive.2 with fresh | ⟨entered,begun,inside,call'⟩
      · have empty := fresh.2.2
        rw [stack,top] at empty
        exact absurd empty (List.cons_ne_nil call rest)
      · rw [stack,top] at call'
        have equal := (List.cons.inj call').1
        have tail := (List.cons.inj call').2
        have place : call.pc = m := congrArg Call.pc equal
        have first : call.entry = 0 := congrArg Call.entry equal
        refine ⟨few,m+1,?_,fun _ => .inr ⟨entered,begun,call.inside,?_⟩⟩
        · rw [steps,if_pos rfl,order,place,List.range_succ,List.reverse_append]
          rfl
        · rw [stack_current (k := k.begun c call rest) current alive.1]
          simp [Kernel.begun,place,first,tail]
    · refine once_same one (by rw [steps,if_neg here]) rfl fun living => ⟨living,?_,id⟩
      by_cases home : (k.ctx p).home = c
      · exact (stack_other (k := k.begun c call rest) current ⟨bound,home⟩ (Ne.symm here)).trans (stack_other current ⟨bound,home⟩ (Ne.symm here)).symm
      · exact stack_away home rfl (fun _ _ => rfl) fun d apart => Function.update_of_ne apart _ _
  · intro entry member
    rcases List.mem_cons.mp member with new | old
    · rw [new]
      exact alive.1.1
    · exact once.known entry old

-- A move of the current context that changes its own record only.
theorem once_current (once : Once k) (current : k.currentCtx c = some q) (own : k.Owns c q) (count : t.count = k.count)
    (performed : t.performed = k.performed) (same : t.currentCtx = k.currentCtx) (cpu : ∀ d, d ≠ c → t.cpu d = k.cpu d)
    (ctx : ∀ p, p ≠ q → t.ctx p = k.ctx p) (here : OnceFor k q → OnceFor t q) : Once t := by
  refine once_quiet once count performed fun p bound one => ?_
  by_cases equal : p = q
  · subst equal
    exact here one
  · refine once_ctx one performed (ctx p equal) ?_
    by_cases home : (k.ctx p).home = c
    · have owned : t.Owns c p := by
        unfold Kernel.Owns
        rw [count,ctx p equal]
        exact ⟨bound,home⟩
      rw [stack_other (by rw [same]; exact current) owned equal,stack_other current ⟨bound,home⟩ equal,ctx p equal]
    · exact stack_away home (ctx p equal) (fun d _ => congrFun same d) cpu

theorem Once.blockedIn (once : Once k) (current : k.currentCtx c = some q) (alive : k.Alive c q) : Once (k.blockedIn c q s) := by
  refine once_current once current alive.1 rfl rfl rfl (fun d apart => Function.update_of_ne apart _ _)
    (fun p apart => Function.update_of_ne apart _ _) fun one => ?_
  have owned : (k.blockedIn c q s).Owns c q := ⟨alive.1.1,by simp [Kernel.blockedIn,alive.1.2]⟩
  have entered : ((k.blockedIn c q s).ctx q).entered = (k.ctx q).entered := by simp [Kernel.blockedIn]
  have stack : (k.blockedIn c q s).stack q = waitIn s (k.stack q) := by
    rw [stack_current (k := k.blockedIn c q s) current owned,stack_current current alive.1]
    simp [Kernel.blockedIn]
  obtain ⟨few,m,order,phase⟩ := one
  refine ⟨entered ▸ few,m,order,fun _ => ?_⟩
  rcases phase alive.2 with fresh | ⟨one,_,inside,call⟩
  · refine .inl ⟨entered.trans fresh.1,fresh.2.1,?_⟩
    rw [stack,fresh.2.2]
    rfl
  · refine .inr ⟨entered.trans one,by simp [Kernel.blockedIn],some s,?_⟩
    rw [stack,call]
    rfl

theorem Once.saved (once : Once k) (current : k.currentCtx c = some q) (own : k.Owns c q) : Once (k.saved c q) := by
  refine once_current once current own rfl rfl rfl (fun _ _ => rfl) (fun p apart => Function.update_of_ne apart _ _) fun one => ?_
  refine once_same one rfl (by rw [saved_ctx]) fun living => ?_
  rw [saved_ctx] at living ⊢
  refine ⟨living,?_,id⟩
  rw [stack_current (k := k.saved c q) current (saved_owns.mpr own),stack_current current own]
  rfl

-- The core goes from `q` to `p`, whose stack it takes.
theorem once_switch (once : Once k) (current : k.currentCtx c = some q) (own : k.Owns c q) (saved : (k.ctx q).esp = k.cpu c)
    (other : k.Owns c p) (count : t.count = k.count) (performed : t.performed = k.performed) (next : t.currentCtx = Function.update k.currentCtx c (some p))
    (cpu : ∀ d, d ≠ c → t.cpu d = k.cpu d) (ctx : ∀ x, x ≠ p → t.ctx x = k.ctx x) (here : k.stack p = (k.ctx p).esp → OnceFor k p → OnceFor t p) :
    Once t := by
  have parked : ∀ x, k.Owns c x → k.stack x = (k.ctx x).esp := by
    intro x owned
    by_cases same : x = q
    · subst same
      rw [stack_current current own,saved]
    · exact stack_other current owned same
  refine once_quiet once count performed fun x bound one => ?_
  by_cases equal : x = p
  · subst equal
    exact here (parked x other) one
  · refine once_ctx one performed (ctx x equal) ?_
    by_cases home : (k.ctx x).home = c
    · have owned : t.Owns c x := by
        unfold Kernel.Owns
        rw [count,ctx x equal]
        exact ⟨bound,home⟩
      rw [stack_other (by rw [next,Function.update_self]) owned equal,ctx x equal,parked x ⟨bound,home⟩]
    · refine stack_away home (ctx x equal) (fun d apart => ?_) cpu
      rw [next,Function.update_of_ne apart]

theorem Once.entering (once : Once k) (current : k.currentCtx c = some q) (own : k.Owns c q) (saved : (k.ctx q).esp = k.cpu c)
    (other : k.Owns c p) (state : (k.ctx p).state = .activable) : Once (k.entering c p) := by
  refine once_switch once current own saved other rfl rfl rfl (fun d apart => Function.update_of_ne apart _ _)
    (fun x apart => Function.update_of_ne apart _ _) fun parked one => ?_
  obtain ⟨_,m,order,phase⟩ := one
  have owned : (k.entering c p).Owns c p := ⟨other.1,by simp [Kernel.entering,other.2]⟩
  have stack : (k.entering c p).stack p = (k.entering c p).cpu c := stack_current (by simp [Kernel.entering]) owned
  have living : (k.ctx p).state ≠ .terminated := by
    rw [state]
    decide
  rcases phase living with ⟨none,empty,idle⟩ | ⟨_,begun,_⟩
  · rw [parked] at idle
    have entered : ((k.entering c p).ctx p).entered = 1 := by simp [Kernel.entering,none]
    refine ⟨Nat.le_of_eq entered,0,empty,fun _ => .inr ⟨entered,by simp [Kernel.entering],Option.none,?_⟩⟩
    rw [stack]
    simp [Kernel.entering,none,idle]
  · exact absurd state begun

theorem Once.resuming (once : Once k) (current : k.currentCtx c = some q) (own : k.Owns c q) (saved : (k.ctx q).esp = k.cpu c)
    (other : k.Owns c p) : Once (k.resuming c p) := by
  refine once_switch once current own saved other rfl rfl rfl (fun d apart => Function.update_of_ne apart _ _)
    (fun _ _ => rfl) fun parked one => ?_
  refine once_same one rfl rfl fun living => ⟨living,?_,id⟩
  rw [parked,stack_current (k := k.resuming c p) (c := c) (by simp [Kernel.resuming]) other]
  simp [Kernel.resuming]

-- Nobody waits where sem_up is called.
def Empty (k : Kernel) (s : Nat) : Prop := (k.sem s).semCtxBlocked = none

theorem Once.move (once : Once k) (move : Move Empty far c k t) : Once t := by
  cases move with
  | log => exact once_quiet once rfl rfl fun p _ one => once_ctx one rfl rfl rfl
  | founded none idle empty => exact once.founded none idle empty
  | joined current own => exact once.joined current own
  | begun top current alive => exact once.begun top current alive
  | took => exact once_quiet once rfl rfl fun p _ one => once_ctx one rfl rfl rfl
  | blockedIn current alive => exact once.blockedIn current alive
  | freed => exact once_quiet once rfl rfl fun p _ one => once_ctx one rfl rfl rfl
  | woken empty head =>
      have none : (k.sem _).semCtxBlocked = none := empty
      rw [head] at none
      cases none
  | @popped call rest top current own =>
      refine once_current once current own rfl rfl rfl (fun d apart => Function.update_of_ne apart _ _)
        (fun p apart => Function.update_of_ne apart _ _) fun one => ?_
      refine once_same one rfl (by simp [Kernel.popped]) fun living => ?_
      simp [Kernel.popped] at living
  | @unlinked q z own other =>
      refine once_quiet once rfl rfl fun p _ one => ?_
      have fields : ((k.unlinked q z).ctx p).entered = (k.ctx p).entered ∧ ((k.unlinked q z).ctx p).state = (k.ctx p).state ∧
          ((k.unlinked q z).ctx p).home = (k.ctx p).home ∧ ((k.unlinked q z).ctx p).esp = (k.ctx p).esp := by
        by_cases here : p = z
        · subst here
          simp [Kernel.unlinked]
        · simp [Kernel.unlinked,here]
      refine once_same one rfl fields.1 fun living => ?_
      rw [fields.2.1] at living ⊢
      refine ⟨living,?_,id⟩
      unfold Kernel.stack
      rw [fields.2.2.1,fields.2.2.2]
      rfl
  | opened => exact once_quiet once rfl rfl fun p _ one => once_ctx one rfl rfl rfl
  | saved current own => exact once.saved current own
  | entering current own stack other state => exact once.entering current own stack other state
  | resuming current own stack other => exact once.resuming current own stack other

-- An operation that gives the processor away runs at home, and a sem_up finds
-- nobody waiting.
def Unwaited (k : Kernel) (e : Event) : Prop :=
  (e.Yields k → AtHome True k e.core) ∧ ∀ s, e.op k = some (.up s) → Empty k s

theorem Unwaited.keeps (unwaited : Unwaited k e) (inv : Orderly k ∧ Once k) (taken : KernelStep k e t) : Orderly t ∧ Once t := by
  obtain ⟨moves,orderly⟩ := step_moves Empty True inv.1 unwaited.1 unwaited.2 (fun _ _ _ _ _ => id) taken
  exact ⟨orderly,moves_keep (fun _ _ move kept => kept.move move) moves inv.2⟩

-- In a run of such steps every context is entered at most once and performs its
-- operations in order, each once.
theorem context_runs_once (run : Run KernelStep (bootKernel init) past k) (met : Met Unwaited past) (created : p < k.count) :
    (k.ctx p).entered ≤ 1 ∧ ∃ m, (k.steps p).reverse = List.range m := by
  have start : Once (bootKernel init) :=
    ⟨fun p bound => absurd bound (Nat.not_lt_zero p),fun entry member => absurd member List.not_mem_nil⟩
  have once := ((run.keeps Unwaited (P := fun k => Orderly k ∧ Once k) (fun _ _ _ inv unwaited taken => unwaited.keeps inv taken)
    ⟨boot_orderly init,start⟩ met).1.2).each p created
  obtain ⟨m,order,_⟩ := once.order
  exact ⟨once.entered,m,by rw [order,List.reverse_reverse]⟩

-- Two contexts that give each other the processor: both are switched to again where
-- they have given it away.
def twice : Func := fun _ pc => if pc < 2 then some .yield else none

theorem context_runs_once_again : ∃ past k, Run KernelStep (bootKernel fun _ => 0) past k ∧
    past.map Prod.snd = [.boot 0 (.create twice),.boot 0 (.create twice),.timer 0,.run 0,.run 0,.run 0,.run 0] ∧
    k.steps 0 = [1,0] ∧ k.steps 1 = [1,0] ∧ ∀ p, p < k.count → (k.ctx p).entered ≤ 1 ∧ ∃ m, (k.steps p).reverse = List.range m := by
  have home : ∀ {k : Kernel} {e : Event}, (e.Yields k → AtHome True k e.core) → (∀ s, e.op k ≠ some (.up s)) → Unwaited k e :=
    fun home other => ⟨home,fun s issued => absurd issued (other s)⟩
  have none : ∀ s, some Op.yield ≠ some (.up s) := fun s wrong => by cases wrong
  have one := Kernel.meet (boot_meet (fun _ => 0) Unwaited) (.boot 0 (.create twice)) rfl rfl (home (fun _ => .inr ⟨rfl,trivial⟩) nofun)
  have two := Kernel.meet one (.boot 0 (.create twice)) rfl rfl (home (fun _ => .inl rfl) nofun)
  have three := Kernel.meet two (.timer 0) trivial rfl (home (fun _ => .inl rfl) nofun)
  have four := Kernel.meet three (.run 0) (List.cons_ne_nil _ _) rfl (home (fun _ => .inl rfl) none)
  have five := Kernel.meet four (.run 0) (List.cons_ne_nil _ _) rfl (home (fun _ => .inl rfl) none)
  have six := Kernel.meet five (.run 0) (List.cons_ne_nil _ _) rfl (home (fun _ => .inl rfl) none)
  obtain ⟨run,met⟩ := Kernel.meet six (.run 0) (List.cons_ne_nil _ _) rfl (home (fun _ => .inl rfl) none)
  exact ⟨_,_,run,rfl,rfl,rfl,fun p created => context_runs_once run met created⟩

-- The first context waits, the second wakes it and gives the processor away: the
-- first begins anew.
theorem woken_begins_anew : ∃ past k, Run KernelStep (bootKernel fun _ => 0) past k ∧ past.map Prod.snd =
    [.boot 0 (.create (single (.down 0))),.boot 0 (.create (single (.up 0))),.timer 0,.run 0,.run 0,.timer 0,.run 0] ∧
    (k.ctx 0).entered = 2 ∧ k.steps 0 = [0,0] := by
  have one := Kernel.reach (Run.start (bootKernel fun _ => 0)) (.boot 0 (.create (single (.down 0)))) rfl rfl
  have two := Kernel.reach one (.boot 0 (.create (single (.up 0)))) rfl rfl
  have three := Kernel.reach two (.timer 0) trivial rfl
  have four := Kernel.reach three (.run 0) (List.cons_ne_nil _ _) rfl
  have five := Kernel.reach four (.run 0) (List.cons_ne_nil _ _) rfl
  have six := Kernel.reach five (.timer 0) trivial rfl
  have seven := Kernel.reach six (.run 0) (List.cons_ne_nil _ _) rfl
  exact ⟨_,_,seven,rfl,rfl,rfl⟩

end AsePlusPlus
