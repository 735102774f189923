import AsePlusPlus.Lib.Trace
import AsePlusPlus.Handover

namespace AsePlusPlus
open Words Program Chain Ring Trace

variable {C : Kernel → Nat → Prop} {far : Prop} {k t u : Kernel} {c d core p q s a : Nat} {l : List Nat} {cells : List Cell} {e : Event}
  {init : Nat → Word} {past : List (Kernel × Event)}

-- The contexts that live on a core, from the current one on.
structure Rounds (k : Kernel) (core : Nat) (l : List Nat) : Prop where
  first : l.head? = k.currentCtx core
  ring : l = [] ∨ Circular k.next l
  members : ∀ p, p ∈ l ↔ k.Alive core p

theorem Orderly.rounds (orderly : Orderly k) (core : Nat) : ∃ l, Rounds k core l := by
  rcases orderly.settled core with ⟨none,_,empty⟩ | ⟨q,turn,on⟩
  · refine ⟨[],none.symm,.inl rfl,fun p => ?_⟩
    exact iff_of_false List.not_mem_nil (empty p)
  · obtain ⟨l,ring,members⟩ := turn.around (on.alive turn.owns)
    exact ⟨q :: l,turn.current.symm,.inr ring,members⟩

theorem Rounds.from_current (rounds : Rounds k core l) (current : k.currentCtx core = some q) : ∃ rest, l = q :: rest := by
  cases l with
  | nil => cases rounds.first.trans current
  | cons p rest =>
      cases rounds.first.trans current
      exact ⟨rest,rfl⟩

theorem psCore_lists (orderly : Orderly k) (core : Nat) : ∃ l cells, psCore core k = (.ok l,k.log cells) ∧ Rounds k core l := by
  obtain ⟨l,rounds⟩ := orderly.rounds core
  cases l with
  | nil =>
      have none : k.currentCtx core = none := rounds.first.symm
      refine ⟨[],[.current core],Runs.equal fun Q => ?_,rounds⟩
      simp [psCore,runs_readCurrent,none]
  | cons q l =>
      have current : k.currentCtx core = some q := rounds.first.symm
      have ring : Circular k.next (q :: l) := rounds.ring.resolve_left (List.cons_ne_nil q l)
      have bound := ring_length ring rounds.members
      obtain ⟨cells,listed⟩ := psLoop_lists (k := k.log [.current core]) (n := k.count) ring.1 (List.nodup_cons.mp ring.2).1 bound
      refine ⟨q :: l,cells ++ [.current core],Runs.equal fun Q => ?_,rounds⟩
      simp only [psCore,runs_bind,runs_get,runs_readCurrent,current,runs_eq listed,log_log]

theorem rounds_log (rounds : Rounds (k.log cells) core l) : Rounds k core l := ⟨rounds.first,rounds.ring,rounds.members⟩

-- do_ps ends, and lists for every core what lives on it.
theorem psFrom_lists (orderly : Orderly k) (left core : Nat) :
    ∃ lists cells, psFrom left core k = (.ok lists,k.log cells) ∧ ∀ i < left, ∃ l, lists[i]? = some l ∧ Rounds k (core+i) l := by
  induction left generalizing k core with
  | zero => exact ⟨[],[],rfl,fun i bound => absurd bound (Nat.not_lt_zero i)⟩
  | succ left ih =>
      obtain ⟨l,front,listed,rounds⟩ := psCore_lists orderly core
      obtain ⟨lists,cells,others,shown⟩ := ih (k := k.log front) (orderly_log orderly) (core+1)
      refine ⟨l :: lists,cells ++ front,Runs.equal fun Q => ?_,?_⟩
      · simp only [psFrom,runs_bind,runs_eq listed,runs_eq others,runs_pure,log_log]
      · intro i bound
        cases i with
        | zero => exact ⟨l,rfl,rounds⟩
        | succ i =>
            obtain ⟨m,here,there⟩ := shown i (Nat.lt_of_succ_lt_succ bound)
            refine ⟨m,here,?_⟩
            have same : core+(i+1) = core+1+i := by omega
            rw [same]
            exact rounds_log there

-- One core: contexts are created, and operations issued, there only.
def Solo (core : Nat) (_ : Kernel) (e : Event) : Prop := e.core = core

structure OneCore (core : Nat) (k : Kernel) : Prop where
  orderly : Orderly k
  homes : ∀ p < k.count, (k.ctx p).home = core
  here : AtHome True k core

theorem boot_oneCore : OneCore core (bootKernel init) :=
  ⟨boot_orderly init,fun p bound => absurd bound (Nat.not_lt_zero p),.inr ⟨rfl,trivial⟩⟩

theorem OneCore.step (one : OneCore core k) (C : Kernel → Nat → Prop) (solo : e.core = core) (meets : ∀ s, e.op k = some (.up s) → C k s)
    (stable : ∀ k c call rest s, C k s → C (k.begun c call rest) s) (taken : KernelStep k e t) :
    Moves C True core k t ∧ OneCore core t := by
  subst solo
  obtain ⟨moves,orderly⟩ := step_moves C True one.orderly (fun _ => one.here) meets stable taken
  have homes := Moves.homes moves
  refine ⟨moves,orderly,?_,?_⟩
  · intro p bound
    by_cases old : p < k.count
    · rw [homes.old p old]
      exact one.homes p old
    · exact homes.new p (Nat.not_lt.mp old) bound
  · rcases homes.core with here | ⟨same,count⟩
    · exact .inl here
    · unfold AtHome
      rw [same,count]
      exact one.here

theorem solo_oneCore (run : Run KernelStep (bootKernel init) past k) (solo : Met (Solo core) past) : OneCore core k :=
  (run.keeps (Solo core) (fun _ _ _ one solo taken => (one.step (fun _ _ => True) solo (fun _ _ => trivial) (fun _ _ _ _ _ => id) taken).2)
    boot_oneCore solo).1

theorem OneCore.alive (one : OneCore core k) (p : Nat) : k.Alive core p ↔ p < k.count ∧ (k.ctx p).state ≠ .terminated := by
  constructor
  · intro alive
    exact ⟨alive.1.1,alive.2⟩
  · intro live
    exact ⟨⟨live.1,one.homes p live.1⟩,live.2⟩

theorem OneCore.outcome (one : OneCore core k) (solo : e.core = core) (enabled : e.Enabled k) :
    (e.act k).1 ≠ .error .loop ∧ ((e.act k).1 = .error .exit ↔ e.Last k) := by
  subst solo
  have ran := act_runs (fun _ _ => True) True one.orderly enabled (fun _ => one.here) (fun _ _ => trivial) (fun _ _ _ _ _ => id)
  rcases equal : e.act k with ⟨h | a,t⟩
  · rw [runs_error equal] at ran
    refine ⟨fun wrong => ran.2.1 (Except.error.inj wrong),?_⟩
    rw [← ran.2.2]
    constructor
    · intro stopped
      exact Except.error.inj stopped
    · intro exits
      rw [exits]
  · rw [runs_eq equal] at ran
    have returned : ∀ h, (Except.ok a : Except Halt Unit) ≠ .error h := fun h wrong => by cases wrong
    exact ⟨returned .loop,iff_of_false (returned .exit) ran.2⟩

-- A step has left the processor to `p`, where the ring was `q :: l`: yield gives it
-- to the first context behind `q` that is not blocked, the very first one starts
-- the current context, and the code of the one that gets it runs.
structure Handed (k : Kernel) (core : Nat) (e : Event) (q : Nat) (l : List Nat) (t : Kernel) (p : Nat) : Prop where
  current : t.currentCtx core = some p
  on : OnCpu t core p
  stays : ¬ e.Yields k → p = q
  opens : e.Yields k → k.firstContext = true → p = q ∧ Top (t.cpu core) p
  turns : e.Yields k → k.firstContext = false →
    (e.line k q l).find? (fun x => (k.ctx x).state ≠ .blocked) = some p ∧ (p ≠ q → Top (t.cpu core) p)

theorem OnCpu.top (on : OnCpu k c q) (begun : (k.ctx q).state ≠ .activable) : Top (k.cpu c) q := by
  rcases on with ⟨_,top⟩ | ⟨fresh,_⟩
  · exact top
  · exact absurd fresh begun

theorem OneCore.handed (one : OneCore core k) (rounds : Rounds k core (q :: l)) (solo : e.core = core) (taken : KernelStep k e t) :
    ∃ p, Handed k core e q l t p := by
  subst solo
  have current : k.currentCtx e.core = some q := rounds.first.symm
  have ring : Circular k.next (q :: l) := rounds.ring.resolve_left (List.cons_ne_nil q l)
  have bound : l.length < k.count := ring_length ring rounds.members
  have home : k.currentCore = e.core := one.orderly.home current one.here
  obtain ⟨yields,stays⟩ := (act_follows one.orderly current ring bound (fun _ => home) taken.1).result taken.2
  have after := (one.step (fun _ _ => True) rfl (fun _ _ => trivial) (fun _ _ _ _ _ _ => trivial) taken).2.orderly
  by_cases gives : e.Yields k
  · obtain ⟨p,now,opens,found,begun⟩ := yields gives
    have on := (after.pending now).2
    exact ⟨p,now,on,fun no => absurd gives no,fun _ first => ⟨opens first,on.top (begun (.inl first))⟩,
      fun _ first => ⟨found first,fun other => on.top (begun (.inr other))⟩⟩
  · have now := stays gives
    exact ⟨q,now,(after.pending now).2,fun _ => rfl,fun yes => absurd yes gives,fun yes => absurd yes gives⟩

-- Between the operations of one core its ring holds what lives, from the current
-- context on; so no search through it fails to end, only the return of the last
-- context ends the program, and every yield gives the processor to the next
-- context of the ring that is not blocked.
theorem context_ring (run : Run KernelStep (bootKernel init) past k) (solo : Met (Solo core) past) :
    (∃ l, Rounds k core l ∧ ∀ p, p ∈ l ↔ p < k.count ∧ (k.ctx p).state ≠ .terminated) ∧
      (∃ lists cells, doPs k = (.ok lists,k.log cells) ∧ ∀ i < maxCore, ∃ l, lists[i]? = some l ∧ Rounds k i l) ∧
      (∀ e : Event, e.core = core → e.Enabled k → (e.act k).1 ≠ .error .loop ∧ ((e.act k).1 = .error .exit ↔ e.Last k)) ∧
      ∀ q l, Rounds k core (q :: l) → ∀ e t, e.core = core → KernelStep k e t → ∃ p, Handed k core e q l t p := by
  have one := solo_oneCore run solo
  obtain ⟨l,rounds⟩ := one.orderly.rounds core
  refine ⟨⟨l,rounds,fun p => (rounds.members p).trans (one.alive p)⟩,?_,fun e here enabled => one.outcome here enabled,
    fun q l rounds e t here taken => one.handed rounds here taken⟩
  obtain ⟨lists,cells,listed,shown⟩ := psFrom_lists one.orderly maxCore 0
  refine ⟨lists,cells,listed,fun i bound => ?_⟩
  have shown := shown i bound
  rwa [Nat.zero_add] at shown

def Kernel.after (k : Kernel) (e : Event) : Kernel := (e.act k).2

theorem step_after (enabled : e.Enabled k) (completes : (e.act k).1 = .ok ()) : KernelStep k e (k.after e) :=
  ⟨enabled,Prod.ext completes rfl⟩

theorem Kernel.reach (run : Run KernelStep (bootKernel init) past k) (e : Event) (enabled : e.Enabled k) (completes : (e.act k).1 = .ok ()) :
    Run KernelStep (bootKernel init) (past ++ [(k,e)]) (k.after e) := run.next (step_after enabled completes)

-- The same next to a condition that the steps have met.
theorem Kernel.meet {ok : Kernel → Event → Prop} (one : Run KernelStep (bootKernel init) past k ∧ Met ok past) (e : Event)
    (enabled : e.Enabled k) (completes : (e.act k).1 = .ok ()) (here : ok k e) :
    Run KernelStep (bootKernel init) (past ++ [(k,e)]) (k.after e) ∧ Met ok (past ++ [(k,e)]) :=
  ⟨Kernel.reach one.1 e enabled completes,met_snoc.mpr ⟨one.2,here⟩⟩

theorem boot_meet (init : Nat → Word) (ok : Kernel → Event → Prop) : Run KernelStep (bootKernel init) [] (bootKernel init) ∧ Met ok [] :=
  ⟨.start _,met_nil⟩

def idle : Func := fun _ _ => none

-- Three contexts, of which the first has been started: yield gives the processor to
-- the third, which returns, and the second gets it.
theorem context_ring_three : ∃ past k t u, Run KernelStep (bootKernel fun _ => 0) past k ∧ k.count = 3 ∧ KernelStep k (.timer 0) t ∧
    KernelStep t (.run 0) u ∧ (∃ l, Handed k 0 (.timer 0) 0 l t 2) ∧ (∃ l, Handed t 0 (.run 0) 2 l u 1) ∧
    (u.ctx 2).state = .terminated ∧ ∃ l, Rounds u 0 l ∧ ∀ p, p ∈ l ↔ p < u.count ∧ (u.ctx p).state ≠ .terminated := by
  have one := Kernel.meet (boot_meet (fun _ => 0) (Solo 0)) (.boot 0 (.create idle)) rfl rfl rfl
  have two := Kernel.meet one (.boot 0 (.create idle)) rfl rfl rfl
  have three := Kernel.meet two (.boot 0 (.create idle)) rfl rfl rfl
  have started := Kernel.meet three (.timer 0) trivial rfl rfl
  have given := Kernel.meet started (.timer 0) trivial rfl rfl
  have returned := Kernel.meet given (.run 0) (List.cons_ne_nil _ _) rfl rfl
  refine ⟨_,_,_,_,started.1,rfl,step_after trivial rfl,step_after (List.cons_ne_nil _ _) rfl,?_,?_,rfl,(context_ring returned.1 returned.2).1⟩
  · obtain ⟨⟨ring,rounds,_⟩,_,_,handed⟩ := context_ring started.1 started.2
    obtain ⟨l,rfl⟩ := rounds.from_current rfl
    obtain ⟨p,post⟩ := handed 0 l rounds (.timer 0) _ rfl (step_after trivial rfl)
    cases post.current
    exact ⟨l,post⟩
  · obtain ⟨⟨ring,rounds,_⟩,_,_,handed⟩ := context_ring given.1 given.2
    obtain ⟨l,rfl⟩ := rounds.from_current rfl
    obtain ⟨p,post⟩ := handed 2 l rounds (.run 0) _ rfl (step_after (List.cons_ne_nil _ _) rfl)
    cases post.current
    exact ⟨l,post⟩

-- What an operation of a core leaves alone, and all that it looks at.
structure Isolated (k : Kernel) (c : Nat) (t : Kernel) : Prop where
  touched : ∃ cells, t.touched = cells ++ k.touched ∧ ∀ x ∈ cells, x.Of t c
  current : ∀ d, d ≠ c → t.currentCtx d = k.currentCtx d
  cpu : ∀ d, d ≠ c → t.cpu d = k.cpu d
  ctx : ∀ p < k.count, (k.ctx p).home ≠ c → t.ctx p = k.ctx p

theorem Isolated.trans (one : Isolated k c t) (two : Isolated t c u) (first : Homes c k t) (second : Homes c t u) : Isolated k c u := by
  obtain ⟨cells,equal,own⟩ := one.touched
  obtain ⟨more,again,later⟩ := two.touched
  refine ⟨⟨more ++ cells,by rw [again,equal,List.append_assoc],?_⟩,?_,?_,?_⟩
  · intro x member
    rcases List.mem_append.mp member with new | old
    · exact later x new
    · cases x with
      | current d => exact own _ old
      | ctx p =>
          obtain ⟨bound,home⟩ := own _ old
          exact ⟨Nat.lt_of_lt_of_le bound second.count,(second.old p bound).trans home⟩
  · intro d apart
    exact (two.current d apart).trans (one.current d apart)
  · intro d apart
    exact (two.cpu d apart).trans (one.cpu d apart)
  · intro p bound away
    have still : (t.ctx p).home ≠ c := by
      rw [first.old p bound]
      exact away
    exact (two.ctx p (Nat.lt_of_lt_of_le bound first.count) still).trans (one.ctx p bound away)

theorem isolated_quiet (touched : t.touched = k.touched) (current : ∀ d, d ≠ c → t.currentCtx d = k.currentCtx d)
    (cpu : ∀ d, d ≠ c → t.cpu d = k.cpu d) (ctx : ∀ p < k.count, (k.ctx p).home ≠ c → t.ctx p = k.ctx p) : Isolated k c t :=
  ⟨⟨[],touched,fun _ member => absurd member List.not_mem_nil⟩,current,cpu,ctx⟩

theorem update_away {v : Ctx} (own : k.Owns c q) (p : Nat) (away : (k.ctx p).home ≠ c) : Function.update k.ctx q v p = k.ctx p := by
  refine Function.update_of_ne ?_ _ _
  intro same
  exact away (same ▸ own.2)

-- What is known where an operation of a core is isolated: sem_up wakes contexts
-- of that core only.
def Local (c : Nat) (k : Kernel) (s : Nat) : Prop :=
  ∀ p, (k.sem s).semCtxBlocked = some p → 1 ≤ ((k.sem s).semCompteur+1).toInt → k.Owns c p

theorem Move.isolated (move : Move (Local c) False c k t) : Isolated k c t := by
  cases move with
  | log own =>
      refine ⟨⟨_,rfl,?_⟩,fun _ _ => rfl,fun _ _ => rfl,fun _ _ _ => rfl⟩
      intro x member
      have near := (own x member).resolve_right id
      cases x with
      | current d => exact near
      | ctx p => exact near
  | founded none =>
      refine isolated_quiet rfl (fun d apart => Function.update_of_ne apart _ _) (fun _ _ => rfl) ?_
      intro p bound _
      exact Function.update_of_ne (Nat.ne_of_lt bound) _ _
  | joined current own =>
      refine isolated_quiet rfl (fun _ _ => rfl) (fun _ _ => rfl) ?_
      intro p bound away
      have other : p ≠ _ := fun same => away (same ▸ own.2)
      exact (Function.update_of_ne other _ _).trans (Function.update_of_ne (Nat.ne_of_lt bound) _ _)
  | begun => exact isolated_quiet rfl (fun _ _ => rfl) (fun d apart => Function.update_of_ne apart _ _) fun _ _ _ => rfl
  | took => exact isolated_quiet rfl (fun _ _ => rfl) (fun _ _ => rfl) fun _ _ _ => rfl
  | blockedIn current alive =>
      exact isolated_quiet rfl (fun _ _ => rfl) (fun d apart => Function.update_of_ne apart _ _) fun p _ away => update_away alive.1 p away
  | freed => exact isolated_quiet rfl (fun _ _ => rfl) (fun _ _ => rfl) fun _ _ _ => rfl
  | woken near head up =>
      have own := near _ head up
      refine ⟨⟨_,rfl,?_⟩,fun _ _ => rfl,fun _ _ => rfl,fun p _ away => update_away own p away⟩
      intro x member
      simp only [List.mem_cons,List.not_mem_nil,or_false,or_self] at member
      subst member
      refine ⟨own.1,?_⟩
      simp [Kernel.woken,Kernel.log,own.2]
  | popped top current own =>
      exact isolated_quiet rfl (fun _ _ => rfl) (fun d apart => Function.update_of_ne apart _ _) fun p _ away => update_away own p away
  | unlinked own other => exact isolated_quiet rfl (fun _ _ => rfl) (fun _ _ => rfl) fun p _ away => update_away other p away
  | opened => exact isolated_quiet rfl (fun _ _ => rfl) (fun _ _ => rfl) fun _ _ _ => rfl
  | saved current own => exact isolated_quiet rfl (fun _ _ => rfl) (fun _ _ => rfl) fun p _ away => update_away own p away
  | entering current own stack other =>
      exact isolated_quiet rfl (fun d apart => Function.update_of_ne apart _ _) (fun d apart => Function.update_of_ne apart _ _)
        fun p _ away => update_away other p away
  | resuming =>
      exact isolated_quiet rfl (fun d apart => Function.update_of_ne apart _ _) (fun d apart => Function.update_of_ne apart _ _)
        fun _ _ _ => rfl

theorem Moves.isolated (moves : Moves (Local c) False c k t) : Isolated k c t ∧ Homes c k t := by
  refine moves_keep (P := fun t => Isolated k c t ∧ Homes c k t) ?_ moves ⟨?_,?_⟩
  · intro t u move ih
    exact ⟨ih.1.trans move.isolated ih.2 move.homes,ih.2.trans move.homes⟩
  · exact isolated_quiet rfl (fun _ _ => rfl) (fun _ _ => rfl) fun _ _ _ => rfl
  · exact homes_same rfl rfl fun _ => rfl

-- Nobody else has created a context since the core did, where an operation comes
-- to yield, and a sem_up wakes a context of its own core.
def OwnCore (k : Kernel) (e : Event) : Prop :=
  (e.Yields k → k.currentCore = e.core) ∧
    ∀ s p, e.op k = some (.up s) → (k.sem s).semCtxBlocked = some p → 1 ≤ ((k.sem s).semCompteur+1).toInt → (k.ctx p).home = e.core

theorem Orderly.waiting (orderly : Orderly k) (head : (k.sem s).semCtxBlocked = some p) : p < k.count := by
  obtain ⟨w,waits⟩ := orderly.sound.queued
  obtain ⟨rest,equal,_⟩ := waits_woken (c := 0) waits head
  exact (waits.blocked s p (by simp [equal])).1

theorem OwnCore.meets (own : OwnCore k e) (orderly : Orderly k) (s : Nat) (issued : e.op k = some (.up s)) : Local e.core k s :=
  fun p head up => ⟨orderly.waiting head,own.2 s p issued head up⟩

theorem OwnCore.runs (own : OwnCore k e) (orderly : Orderly k) (enabled : e.Enabled k) :
    Runs e.act k (fun _ t => (Isolated k e.core t ∧ Orderly t) ∧ ¬ e.Last k) (fun h t => Isolated k e.core t ∧ (h = .exit ↔ e.Last k)) := by
  refine (act_runs (Local e.core) False orderly enabled (fun yields => .inl (own.1 yields)) (own.meets orderly) (fun _ _ _ _ _ => id)).mono ?_ ?_
  · intro _ t post
    exact ⟨⟨post.1.1.isolated.1,post.1.2⟩,post.2⟩
  · intro h t post
    exact ⟨post.1.isolated.1,post.2.2⟩

-- In a run that keeps to this, every operation, the one that ends the program
-- included, is isolated; every core runs its own contexts, and ends the program
-- with the last of them only.
theorem core_isolation (run : Run KernelStep (bootKernel init) past k) (met : Met OwnCore past) (enabled : e.Enabled k) (own : OwnCore k e) :
    Isolated k e.core (e.act k).2 ∧ (∀ c call rest, k.cpu c = call :: rest → (k.ctx call.owner).home = c) ∧
      ((e.act k).1 = .error .exit → e.Last k) := by
  have orderly := (run.keeps OwnCore (P := Orderly) (fun t e u orderly own taken => ((own.runs orderly taken.1).result taken.2).1.2)
    (boot_orderly init) met).1
  have ran := own.runs orderly enabled
  refine ⟨?_,fun c call rest top => (orderly.running top).1.owns.2,?_⟩
  · refine Runs.outcome (R := fun t => Isolated k e.core t) (ran.mono ?_ ?_)
    · intro _ t post
      exact post.1.1
    · intro _ t post
      exact post.1
  · intro stopped
    rcases equal : e.act k with ⟨h | a,t⟩
    · rw [runs_error equal] at ran
      rw [equal] at stopped
      exact ran.2.mp (Except.error.inj stopped)
    · rw [equal] at stopped
      cases stopped

-- Core 0 has created a context and core 1 two, of which the first runs and returns.
theorem core_isolation_two : ∃ past k t, Run KernelStep (bootKernel fun _ => 0) past k ∧
    past.map Prod.snd = [.boot 0 (.create idle),.boot 1 (.create idle),.boot 1 (.create idle),.timer 1] ∧ KernelStep k (.run 1) t ∧
    k.cpu 1 = [⟨1,0,0,none⟩] ∧ t.cpu 1 = [⟨2,0,0,none⟩] ∧ t.currentCtx 0 = some 0 ∧ Isolated k 1 t := by
  have creates : ∀ k core, OwnCore k (.boot core (.create idle)) := fun k core =>
    ⟨fun yields => (yields _ rfl).elim,fun s p issued => (by cases issued)⟩
  have one := Kernel.meet (boot_meet (fun _ => 0) OwnCore) (.boot 0 (.create idle)) rfl rfl (creates _ 0)
  have two := Kernel.meet one (.boot 1 (.create idle)) rfl rfl (creates _ 1)
  have three := Kernel.meet two (.boot 1 (.create idle)) rfl rfl (creates _ 1)
  obtain ⟨run,met⟩ := Kernel.meet three (.timer 1) trivial rfl ⟨fun _ => rfl,fun s p issued => by cases issued⟩
  have busy : (Event.run 1).Enabled ((((bootKernel fun _ => 0).after (.boot 0 (.create idle))).after (.boot 1 (.create idle))).after
      (.boot 1 (.create idle)) |>.after (.timer 1)) := List.cons_ne_nil _ _
  exact ⟨_,_,_,run,rfl,step_after busy rfl,rfl,rfl,rfl,
    (core_isolation (e := .run 1) run met busy ⟨fun _ => rfl,fun s p issued => by cases issued⟩).1⟩

-- A timer interrupt on core 0 behind a create_ctx on core 1 starts core 1's
-- context on core 0.
theorem core_isolation_breaks : ∃ past k t, Run KernelStep (bootKernel fun _ => 0) past k ∧
    past.map Prod.snd = [.boot 0 (.create idle),.boot 0 (.create idle),.boot 1 (.create idle)] ∧ KernelStep k (.timer 0) t ∧
    t.cpu 0 = [⟨2,0,0,none⟩] ∧ (t.ctx 2).home = 1 ∧ ¬ Isolated k 0 t := by
  have one := Kernel.reach (Run.start (bootKernel fun _ => 0)) (.boot 0 (.create idle)) rfl rfl
  have two := Kernel.reach one (.boot 0 (.create idle)) rfl rfl
  have three := Kernel.reach two (.boot 1 (.create idle)) rfl rfl
  refine ⟨_,_,_,three,rfl,step_after trivial rfl,rfl,rfl,?_⟩
  intro isolated
  have kept := isolated.ctx 2 (by decide) (by decide)
  have state := congrArg Ctx.state kept
  exact absurd state (by decide)

end AsePlusPlus
