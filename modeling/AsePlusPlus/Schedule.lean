import AsePlusPlus.Orderly

namespace AsePlusPlus
open Words Program Chain Ring

variable {C : Kernel → Nat → Prop} {far : Prop} {k t u : Kernel} {c d p q s z : Nat} {w l : List Nat} {cells : List Cell}
  {f : Func} {call : Call} {rest stack : List Call} {e : Event}

-- What the two ways of switch_to_ctx have in common.
structure Switched (k t : Kernel) (c q p : Nat) (stack : List Call) : Prop where
  count : t.count = k.count
  first : t.firstContext = false
  sem : t.sem = k.sem
  cpu : t.cpu = Function.update k.cpu c stack
  current : t.currentCtx = Function.update k.currentCtx c (some p)
  kept : ∀ x, (t.ctx x).canary = (k.ctx x).canary ∧ (t.ctx x).home = (k.ctx x).home ∧ (t.ctx x).next = (k.ctx x).next ∧
    (t.ctx x).nextSemaphoreContext = (k.ctx x).nextSemaphoreContext
  state : ∀ x, (t.ctx x).state = if x = p then .ready else (k.ctx x).state
  esp : ∀ x, x ≠ p → (t.ctx x).esp = if x = q then k.cpu c else (k.ctx x).esp

section switched
variable (switched : Switched k t c q p stack)
include switched

theorem Switched.owns (d x : Nat) : t.Owns d x ↔ k.Owns d x := by
  unfold Kernel.Owns
  rw [(switched.kept x).2.1,switched.count]

theorem Switched.living (alive : k.Alive c p) (d x : Nat) : t.Alive d x ↔ k.Alive d x := by
  unfold Kernel.Alive
  rw [switched.owns d x,switched.state x]
  split
  · rename_i here
    rw [here]
    constructor
    · intro both
      exact ⟨both.1,alive.2⟩
    · intro both
      exact ⟨both.1,by decide⟩
  · exact Iff.rfl

theorem Switched.here : t.currentCtx c = some p := by
  rw [switched.current,Function.update_self]

theorem Switched.waits (runnable : (k.ctx p).state ≠ .blocked) {waits : Nat → List Nat} (queued : Waits k waits) : Waits t waits := by
  refine waits_frame queued (Nat.le_of_eq switched.count.symm) ?_ ?_ fun s => by rw [switched.sem]
  · intro x _
    refine ⟨(switched.kept x).2.2.2,?_⟩
    rw [switched.state x]
    split
    · rename_i same
      rw [same]
      constructor
      · intro blocked
        cases blocked
      · intro blocked
        exact absurd blocked runnable
    · exact Iff.rfl
  · intro x bound old
    rw [switched.count] at bound
    exact absurd bound (Nat.not_lt.mpr old)

-- The context that is left has its calls on its stack.
theorem Switched.parked (pending : Pending k c q) (alive : k.Alive c p) (leaving : (k.ctx q).state = .ready → Top (k.cpu c) q)
    (own : t.Owns d z) (parked : (t.ctx z).state = .ready) (away : t.currentCtx d ≠ some z) : Top (t.ctx z).esp z := by
  have other : z ≠ p := by
    intro same
    subst same
    have core : d = c := ((switched.owns d z).mp own).2.symm.trans alive.1.2
    exact away (core ▸ switched.here)
  rw [switched.state z,if_neg other] at parked
  rw [switched.esp z other]
  split
  · rename_i same
    subst same
    exact leaving parked
  · rename_i apart
    refine pending.sound.parked d z ((switched.owns d z).mp own) parked ?_
    intro before
    by_cases core : d = c
    · rw [core,pending.turn.current] at before
      exact apart (Option.some.inj before).symm
    · rw [switched.current,Function.update_of_ne core] at away
      exact away before

theorem Switched.intact (pending : Pending k c q) (alive : k.Alive c p) (runnable : (k.ctx p).state ≠ .blocked)
    (leaving : (k.ctx q).state = .ready → Top (k.cpu c) q) : Intact t := by
  obtain ⟨waits,queued⟩ := pending.sound.queued
  refine ⟨?_,?_,?_,⟨waits,switched.waits runnable queued⟩,fun d x => switched.parked pending alive leaving,?_⟩
  · intro x bound
    rw [switched.count] at bound
    rw [(switched.kept x).1]
    exact pending.sound.canary x bound
  · intro x bound
    rw [switched.count] at bound
    rw [switched.state x]
    split
    · decide
    · exact pending.sound.steady x bound
  · rw [switched.sem]
    exact pending.sound.magic
  · intro begun
    rw [switched.first] at begun
    cases begun

theorem Switched.turned (turn : Turn k c q) (alive : k.Alive c p) (top : Top stack p) : Turn t c p ∧ OnCpu t c p := by
  have ready : (t.ctx p).state = .ready := by
    rw [switched.state p,if_pos rfl]
  obtain ⟨ring,circular,_,members⟩ := turn.ring
  obtain ⟨l,around,same⟩ := circular_from circular ((members p).mpr alive)
  have turned : Circular t.next (p :: l) := circular_congr around fun x _ => (switched.kept x).2.2.1
  refine ⟨turn_of_around switched.here ((switched.owns c p).mpr alive.1) turned ?_,.inl ⟨ready,?_⟩⟩
  · intro x
    rw [switched.living alive c x,← members x]
    exact same x
  · rw [switched.cpu,Function.update_self]
    exact top

theorem Switched.orderly (pending : Pending k c q) (alive : k.Alive c p) (runnable : (k.ctx p).state ≠ .blocked)
    (leaving : (k.ctx q).state = .ready → Top (k.cpu c) q) (top : Top stack p) : Orderly t := by
  refine ⟨switched.intact pending alive runnable leaving,?_⟩
  intro d
  by_cases core : d = c
  · subst core
    exact .inr ⟨p,switched.turned pending.turn alive top⟩
  · refine settled_frame (pending.others d core) ?_ ?_ (switched.owns d) ?_
    · rw [switched.current,Function.update_of_ne core]
    · rw [switched.cpu,Function.update_of_ne core]
    · intro x own
      have other := owns_ne alive.1 own core
      rw [switched.state x,if_neg other]
      exact ⟨(switched.kept x).2.2.1,Iff.rfl,fun _ => rfl⟩

end switched

theorem entering_switched (first : k.firstContext = false) :
    Switched k ((k.saved c q).entering c p) c q p (⟨p,(k.ctx p).entered,0,none⟩ :: ((k.saved c q).ctx p).esp) := by
  constructor
  · rfl
  · exact first
  · rfl
  · have entered : ((k.saved c q).ctx p).entered = (k.ctx p).entered := by rw [saved_ctx]
    rw [← entered]
    rfl
  · rfl
  · intro x
    by_cases here : x = p
    · subst here
      simp [Kernel.entering,saved_ctx]
    · simp [Kernel.entering,saved_ctx,here]
  · intro x
    by_cases here : x = p
    · subst here
      simp [Kernel.entering]
    · simp [Kernel.entering,saved_ctx,here]
  · intro x other
    simp [Kernel.entering,saved_ctx,other]

theorem resuming_switched (first : k.firstContext = false) (ready : (k.ctx p).state = .ready) :
    Switched k ((k.saved c q).resuming c p) c q p ((k.saved c q).ctx p).esp := by
  constructor
  · rfl
  · exact first
  · rfl
  · rfl
  · rfl
  · intro x
    simp [Kernel.resuming,saved_ctx]
  · intro x
    by_cases here : x = p
    · subst here
      simp [Kernel.resuming,saved_ctx,ready]
    · simp [Kernel.resuming,saved_ctx,here]
  · intro x other
    simp [Kernel.resuming,saved_ctx]

theorem saved_owns : (k.saved c q).Owns d p ↔ k.Owns d p := by
  unfold Kernel.Owns
  rw [saved_ctx]
  exact Iff.rfl

theorem saved_esp : ((k.saved c q).ctx q).esp = (k.saved c q).cpu c := by
  rw [saved_ctx,if_pos rfl]
  rfl

theorem Top.of_saved (sound : Intact k) (current : k.currentCtx c = some q) (own : k.Owns c p) (ready : (k.ctx p).state = .ready)
    (leaving : (k.ctx q).state = .ready → Top (k.cpu c) q) : Top ((k.saved c q).ctx p).esp p := by
  rw [saved_ctx]
  by_cases here : p = q
  · subst here
    simpa using leaving ready
  · simp only [if_neg here]
    refine sound.parked c p own ready ?_
    rw [current]
    intro same
    exact here (Option.some.inj same).symm

-- A switch to a context of the ring.
theorem switch_runs (C : Kernel → Nat → Prop) (far : Prop) (pending : Pending k c q) (home : k.currentCore = c) (first : k.firstContext = false) (alive : k.Alive c p)
    (leaving : (k.ctx q).state = .ready → Top (k.cpu c) q) :
    Runs (switchToCtx c p) k (fun _ t => Moves C far c k t ∧ Orderly t)
      (fun h t => Moves C far c k t ∧ h = .abort ∧ (k.ctx p).state = .blocked) := by
  have current := pending.turn.current
  have own := pending.turn.owns
  have canary := pending.sound.canary p alive.1.1
  have before : Moves C far c k (k.saved c q) := .single (.saved current own)
  have owns : (k.saved c q).Owns c q ∧ (k.saved c q).Owns c p := ⟨saved_owns.mpr own,saved_owns.mpr alive.1⟩
  have here : ((k.saved c q).ctx p).state = (k.ctx p).state := by rw [saved_ctx]
  cases state : (k.ctx p).state with
  | blocked =>
      rw [runs_error (switchToCtx_blocked home current canary state)]
      refine ⟨before.tail (.log ?_),rfl,rfl⟩
      simp [Cell.Of,owns]
  | activable =>
      rw [runs_eq (switchToCtx_activable home current canary state)]
      rw [state] at here
      have entered : Moves C far c k ((k.saved c q).entering c p) :=
        before.tail (.entering current owns.1 saved_esp owns.2 here)
      have switched := entering_switched (c := c) (p := p) (q := q) first
      have owned : ∀ x, ((k.saved c q).entering c p).Owns c x ↔ k.Owns c x := by
        intro x
        unfold Kernel.Owns
        rw [(switched.kept x).2.1,switched.count]
      refine ⟨entered.tail (.log ?_),orderly_log (switched.orderly pending alive (by rw [state]; decide) leaving ⟨_,_,rfl,rfl,rfl⟩)⟩
      simp [Cell.Of,owned,own,alive.1]
  | ready =>
      have top := Top.of_saved pending.sound current alive.1 state leaving
      rw [runs_eq (switchToCtx_ready home current canary state top)]
      rw [state] at here
      have resumed : Moves C far c k ((k.saved c q).resuming c p) :=
        before.tail (.resuming current owns.1 saved_esp owns.2 here)
      have switched := resuming_switched (c := c) (p := p) (q := q) first state
      have owned : ∀ x, ((k.saved c q).resuming c p).Owns c x ↔ k.Owns c x := by
        intro x
        unfold Kernel.Owns
        rw [(switched.kept x).2.1,switched.count]
      refine ⟨resumed.tail (.log ?_),orderly_log (switched.orderly pending alive (by rw [state]; decide) leaving top)⟩
      simp [Cell.Of,owned,own,alive.1]
  | running => exact absurd state (pending.sound.steady p alive.1.1)
  | terminated => exact absurd state alive.2

theorem pending_same (pending : Pending k c q) (ctx : t.ctx = k.ctx) (current : t.currentCtx = k.currentCtx) (cpu : t.cpu = k.cpu)
    (count : t.count = k.count) (sem : t.sem = k.sem) (first : t.firstContext = true → k.firstContext = true) : Pending t c q := by
  obtain ⟨sound,turn,others⟩ := pending
  obtain ⟨w,waits⟩ := sound.queued
  have owns : ∀ d p, t.Owns d p ↔ k.Owns d p := by
    intro d p
    unfold Kernel.Owns
    rw [ctx,count]
  have next : t.next = k.next := by
    unfold Kernel.next
    rw [ctx]
  refine ⟨⟨?_,?_,?_,⟨w,?_⟩,?_,?_⟩,?_,?_⟩
  · rw [ctx,count]
    exact sound.canary
  · rw [ctx,count]
    exact sound.steady
  · rw [sem]
    exact sound.magic
  · refine waits_frame waits (Nat.le_of_eq count.symm) (fun p _ => by rw [ctx]; exact ⟨rfl,Iff.rfl⟩) ?_ fun s => by rw [sem]
    intro p bound old
    rw [count] at bound
    exact absurd bound (Nat.not_lt.mpr old)
  · intro d p own ready away
    rw [ctx] at ready ⊢
    rw [current] at away
    exact sound.parked d p ((owns d p).mp own) ready away
  · intro begun
    rw [cpu]
    exact sound.opening (first begun)
  · refine turn_frame turn (congrFun current c) (owns c) fun p _ => ?_
    rw [next,ctx]
    exact ⟨rfl,Iff.rfl⟩
  · intro d apart
    refine settled_frame (others d apart) (congrFun current d) (congrFun cpu d) (owns d) fun p _ => ?_
    rw [next,ctx]
    exact ⟨rfl,Iff.rfl,fun _ => rfl⟩

theorem pending_log (pending : Pending k c q) : Pending (k.log cells) c q :=
  pending_same pending rfl rfl rfl rfl rfl id

theorem Pending.orderly (pending : Pending k c q) (on : OnCpu k c q) : Orderly k := by
  refine ⟨pending.sound,fun d => ?_⟩
  by_cases here : d = c
  · subst here
    exact .inr ⟨q,pending.turn,on⟩
  · exact pending.others d here

-- No ring is longer than the number of contexts.
theorem ring_length (ring : Circular k.next l) (members : ∀ p, p ∈ l ↔ k.Alive c p) : l.length ≤ k.count :=
  nodup_bound ring.nodup fun p member => ((members p).mp member).1.1

-- How a context is when it gives the processor away.
def Leaving (k : Kernel) (c q : Nat) : Prop :=
  OnCpu k c q ∨ (k.ctx q).state = .blocked ∨ (k.ctx q).state = .terminated ∧ k.firstContext = false

theorem Leaving.ready (leaving : Leaving k c q) (ready : (k.ctx q).state = .ready) : Top (k.cpu c) q := by
  rcases leaving with (⟨_,top⟩ | ⟨activable,_⟩) | blocked | ⟨ended,_⟩
  · exact top
  · rw [ready] at activable
    cases activable
  · rw [ready] at blocked
    cases blocked
  · rw [ready] at ended
    cases ended

theorem yield_runs (C : Kernel → Nat → Prop) (far : Prop) (pending : Pending k c q) (home : k.currentCore = c) (leaving : Leaving k c q) :
    Runs (yieldCtx c) k (fun b t => Moves C far c k t ∧ Orderly t ∧ (b = false → OnCpu k c q))
      (fun h t => Moves C far c k t ∧ (h = .abort ∨ h = .spin)) := by
  have current := pending.turn.current
  have own := pending.turn.owns
  unfold yieldCtx
  simp only [runs_bind,runs_get,runs_readCurrent,home,current]
  have looked : Moves C far c k (k.log [.current c]) := .single (.log (by simp [Cell.Of]))
  by_cases first : k.firstContext = true
  · -- the first context of all starts where it stands
    rw [if_pos first]
    simp only [runs_bind,runs_modify,runs_pure]
    have alive : k.Alive c q := by
      rcases leaving with on | blocked | ⟨_,begun⟩
      · exact on.alive own
      · exact ⟨own,by rw [blocked]; decide⟩
      · rw [first] at begun
        cases begun
    have begun : Pending (k.log [.current c]).opened c q := pending_same pending rfl rfl rfl rfl rfl fun begun => by cases begun
    have moved : Moves C far c k (k.log [.current c]).opened := looked.tail .opened
    refine (switch_runs C far begun home rfl alive leaving.ready).mono ?_ ?_
    · intro _ t post
      exact ⟨moved.trans post.1,post.2,fun away => by cases away⟩
    · intro h t post
      exact ⟨moved.trans post.1,.inl post.2.1⟩
  · rw [if_neg first]
    have begun : k.firstContext = false := by simpa using first
    simp only [runs_bind,runs_readCtx,log_log]
    obtain ⟨ring,circular,head,members⟩ := pending.turn.ring
    have bound := ring_length circular members
    generalize prefixed : [.ctx q] ++ [Cell.current c] = front
    have fronted : ∀ x ∈ front, x.Of k c := by
      subst prefixed
      simp [Cell.Of,own]
    have step : Moves C far c k (k.log front) := .single (.log fun x member => .inl (fronted x member))
    by_cases some : ∃ p ∈ ring, (k.ctx p).state ≠ .blocked
    · obtain ⟨l,p,m,split,blocked,runnable⟩ := first_of some
      subst split
      have way : Linked k.next p (k.next q) l := circular_until circular head
      have stuck : ∀ x ∈ l, (k.ctx x).state = .blocked := fun x member => Decidable.not_not.mp (blocked x member)
      have fuel : l.length < k.count := by
        simp only [List.length_append,List.length_cons] at bound
        omega
      have alive : k.Alive c p := (members p).mp (by simp)
      obtain ⟨cells,met,found⟩ := seekRunnable_finds (k := k.log front) way stuck runnable fuel
      have onward : Runs (seekRunnable k.count (k.ctx q).next) (k.log front)
          (fun a t => Runs (if a ≠ q then do switchToCtx c a; return true else return false) t
            (fun b t => Moves C far c k t ∧ Orderly t ∧ (b = false → OnCpu k c q)) (fun h t => Moves C far c k t ∧ (h = .abort ∨ h = .spin)))
          (fun h t => Moves C far c k t ∧ (h = .abort ∨ h = .spin)) := by
        refine (runs_eq found).mpr ?_
        have searched : Moves C far c k ((k.log front).log cells) := by
          refine step.tail (.log ?_)
          intro x member
          obtain ⟨y,which,equal⟩ := met x member
          subst equal
          rcases which with here | inside
          · subst here
            exact .inl alive.1
          · exact .inl ((members y).mp (List.mem_append_left _ inside)).1
        rw [log_log] at searched ⊢
        by_cases other : p = q
        · subst other
          simp only [ne_eq,not_true_eq_false,if_false,runs_pure]
          have on : OnCpu k c p := by
            rcases leaving with on | blocked | ⟨ended,_⟩
            · exact on
            · exact absurd blocked runnable
            · exact absurd ended alive.2
          exact ⟨searched,orderly_log (pending.orderly on),fun _ => on⟩
        · simp only [ne_eq,other,not_false_eq_true,if_true,runs_bind,runs_pure]
          refine (switch_runs C far (pending_log pending) home begun alive leaving.ready).mono ?_ ?_
          · intro _ t post
            exact ⟨searched.trans post.1,post.2,fun away => by cases away⟩
          · intro h t post
            exact ⟨searched.trans post.1,.inl post.2.1⟩
      exact onward
    · have stuck : ∀ x ∈ ring, (k.ctx x).state = .blocked := by
        intro x member
        by_contra free
        exact some ⟨x,member,free⟩
      have start : k.next q ∈ ring := List.mem_of_mem_head? head
      obtain ⟨cells,met,spins⟩ := seekRunnable_spins (k := k.log front) (n := k.count) (fun x member => circular_closed circular member) stuck start
      refine (runs_error spins).mpr ⟨step.tail (.log ?_),.inr rfl⟩
      intro x member
      obtain ⟨y,inside,equal⟩ := met x member
      subst equal
      exact .inl ((members y).mp inside).1

-- delete_ctx on a ring of one context and on a longer one.
theorem deleteCtx_alone (home : u.currentCore = c) (current : u.currentCtx c = some q) (loop : u.next q = q) (bound : 0 < u.count) :
    ∃ cells, (∀ x ∈ cells, x = .current c ∨ x = .ctx q) ∧ deleteCtx u = (.error .exit,u.log cells) := by
  obtain ⟨cells,met,found⟩ := seekPrevious_finds (k := u.log [.current c]) (n := u.count) (l := []) loop List.not_mem_nil bound
  refine ⟨[.ctx q] ++ (cells ++ [.current c]),?_,?_⟩
  · intro x member
    simp only [List.mem_append,List.mem_singleton] at member
    rcases member with first | inside | last
    · exact .inr first
    · obtain ⟨y,which,equal⟩ := met x inside
      rw [List.mem_singleton.mp which] at equal
      exact .inr equal
    · exact .inl last
  · have itself : (u.ctx q).next = q := loop
    refine Runs.stops fun E => ?_
    simp only [deleteCtx,runs_bind,runs_get,runs_readCurrent,home,current,runs_eq found,runs_readCtx,runs_ensure]
    simp [Kernel.log,itself]

theorem deleteCtx_unlinks (home : u.currentCore = c) (current : u.currentCtx c = some q) (ring : Circular u.next (q :: (l ++ [z])))
    (bound : l.length+1 < u.count) :
    ∃ cells, (∀ x ∈ cells, x = .current c ∨ ∃ p ∈ q :: (l ++ [z]), x = .ctx p) ∧
      deleteCtx u = (.ok (),(u.unlinked q z).log cells) := by
  obtain ⟨first,nodup⟩ := List.nodup_cons.mp ring.nodup
  obtain ⟨cells,met,found⟩ := seekPrevious_finds (k := u.log [.current c]) (n := u.count) ring.1 first (by simpa using bound)
  have last : (q :: (l ++ [z])).getLast (List.cons_ne_nil q _) = z := by simp
  rw [last] at found
  have other : (u.ctx q).next ≠ q := by
    intro loop
    have head := (circular_turn ring).2
    rw [List.head?_append_of_ne_nil _ (List.concat_ne_nil z l)] at head
    have equal : u.next q = q := loop
    rw [equal] at head
    exact first (List.mem_of_mem_head? head)
  refine ⟨[.ctx z] ++ ([.ctx q] ++ (cells ++ [.current c])),?_,?_⟩
  · intro x member
    simp only [List.mem_append,List.mem_singleton] at member
    rcases member with zed | first | inside | last
    · exact .inr ⟨z,by simp,zed⟩
    · exact .inr ⟨q,by simp,first⟩
    · obtain ⟨y,which,equal⟩ := met x inside
      exact .inr ⟨y,which,equal⟩
    · exact .inl last
  · refine Runs.equal fun Q => ?_
    simp only [deleteCtx,runs_bind,runs_get,runs_readCurrent,home,current,runs_eq found,runs_readCtx,runs_ensure]
    simp [Kernel.unlinked,Kernel.log,writeCtx,other]

-- Which operations come to yield.
def Op.Yields (k : Kernel) : Op → Prop
  | .down s => ¬ 0 < (k.sem s).semCompteur.toInt
  | .up s => (k.sem s).semCtxBlocked = none ∨ ¬ 1 ≤ ((k.sem s).semCompteur+1).toInt
  | .yield => True
  | .create _ => False

-- The operation of an event, none where a function returns.
def Event.op (k : Kernel) : Event → Option Op
  | .run core => match k.cpu core with
    | [] => none
    | call :: _ => (k.ctx call.owner).function call.entry call.pc
  | .timer _ => some .yield
  | .boot _ op => some op

def Event.Yields (k : Kernel) (e : Event) : Prop := ∀ op, e.op k = some op → op.Yields k

-- The last context that lives on a core returns.
def Event.Last (k : Kernel) (e : Event) : Prop :=
  ∃ call rest, k.cpu e.core = call :: rest ∧ e.op k = none ∧ ∀ p, k.Alive e.core p → p = call.owner

-- An operation that gives the processor away runs on the core that has created
-- the last context, or before the first.
def AtHome (far : Prop) (k : Kernel) (c : Nat) : Prop := k.currentCore = c ∨ k.count = 0 ∧ far

theorem Orderly.created (orderly : Orderly k) (current : k.currentCtx c = some q) : q < k.count :=
  (orderly.pending current).1.turn.owns.1

theorem Orderly.home (orderly : Orderly k) (current : k.currentCtx c = some q) (home : AtHome far k d) : k.currentCore = d := by
  rcases home with here | ⟨empty,_⟩
  · exact here
  · have bound := orderly.created current
    rw [empty] at bound
    exact absurd bound (Nat.not_lt_zero q)

section operations
variable (C : Kernel → Nat → Prop) (far : Prop)

abbrev Regular (c : Nat) (k t : Kernel) : Prop := Moves C far c k t ∧ Orderly t

theorem yield_orderly (orderly : Orderly k) (home : AtHome far k c) :
    Runs (yieldCtx c) k (fun _ t => Regular C far c k t) (fun h t => Moves C far c k t ∧ (h = .abort ∨ h = .spin)) := by
  cases current : k.currentCtx k.currentCore with
  | none =>
      unfold yieldCtx
      simp only [runs_bind,runs_get,runs_readCurrent,current,runs_pure]
      refine ⟨.single (.log ?_),orderly_log orderly⟩
      intro x member
      rw [List.mem_singleton.mp member]
      rcases home with here | ⟨_,away⟩
      · exact .inl here
      · exact .inr away
  | some q =>
      have here := orderly.home current home
      rw [here] at current
      obtain ⟨pending,on⟩ := orderly.pending current
      refine (yield_runs C far pending here (.inl on)).mono ?_ ?_
      · intro _ t post
        exact ⟨post.1,post.2.1⟩
      · intro h t post
        exact post

theorem semDown_runs (orderly : Orderly k) (home : ¬ 0 < (k.sem s).semCompteur.toInt → AtHome far k c) :
    Runs (semDown c s) k (fun _ t => Regular C far c k t) (fun h t => Moves C far c k t ∧ h ≠ .loop ∧ h ≠ .exit) := by
  have magic := orderly.sound.magic s
  by_cases free : 0 < (k.sem s).semCompteur.toInt
  · have post : Regular C far c k (k.took c s) := ⟨.single (.took free),orderly_took orderly⟩
    unfold Kernel.took at post
    simpa [semDown,magic,free] using post
  · cases current : k.currentCtx c with
    | none =>
        simp only [semDown,runs_bind,runs_get,runs_ensure,magic,if_true,if_neg free,runs_readCurrent,current,runs_stop]
        exact ⟨.single (.log (by simp [Cell.Of])),by decide,by decide⟩
    | some q =>
        have here := orderly.home current (home free)
        obtain ⟨before,on⟩ := orderly.pending current
        obtain ⟨pending,blocked⟩ := pending_blocked (s := s) orderly current
        have own := pending.turn.owns
        have moved : Moves C far c k ((k.blockedIn c q s).log [.ctx q,.ctx q,.current c]) := by
          refine .tail (.single (.blockedIn current (on.alive before.turn.owns) free)) (.log ?_)
          simp [Cell.Of,own]
        have way : Runs (semDown c s) k (fun _ t => Regular C far c k t) (fun h t => Moves C far c k t ∧ h ≠ .loop ∧ h ≠ .exit) ↔
            Runs (do let away ← yieldCtx c; if away then return () else resume c) ((k.blockedIn c q s).log [.ctx q,.ctx q,.current c])
              (fun _ t => Regular C far c k t) (fun h t => Moves C far c k t ∧ h ≠ .loop ∧ h ≠ .exit) := by
          simp [semDown,magic,free,runs_readCurrent,current,writeCtx,Kernel.blockedIn,Kernel.log]
        rw [way,runs_bind]
        refine (yield_runs C far (pending_log pending) here (.inr (.inl blocked))).mono ?_ ?_
        · intro away t post
          cases away with
          | false => exact absurd blocked (post.2.2 rfl).state.1
          | true => exact ⟨moved.trans post.1,post.2.1⟩
        · intro h t post
          refine ⟨moved.trans post.1,?_,?_⟩
          · rcases post.2 with stop | stop <;> rw [stop] <;> decide
          · rcases post.2 with stop | stop <;> rw [stop] <;> decide

theorem semUp_runs (orderly : Orderly k) (meets : C k s)
    (home : (k.sem s).semCtxBlocked = none ∨ ¬ 1 ≤ ((k.sem s).semCompteur+1).toInt → AtHome far k c) :
    Runs (semUp c s) k (fun _ t => Regular C far c k t) (fun h t => Moves C far c k t ∧ h ≠ .loop ∧ h ≠ .exit) := by
  have magic := orderly.sound.magic s
  have yields : (k.sem s).semCtxBlocked = none ∨ ¬ 1 ≤ ((k.sem s).semCompteur+1).toInt →
      Runs (do let _ ← yieldCtx c) (k.freed c s) (fun _ t => Regular C far c k t) (fun h t => Moves C far c k t ∧ h ≠ .loop ∧ h ≠ .exit) := by
    intro keeps
    have moved : Moves C far c k (k.freed c s) := .single (.freed meets keeps)
    rw [runs_bind]
    refine (yield_orderly C far (orderly_freed orderly) (home keeps)).mono ?_ ?_
    · intro _ t post
      exact ⟨moved.trans post.1,post.2⟩
    · intro h t post
      refine ⟨moved.trans post.1,?_,?_⟩
      · rcases post.2 with stop | stop <;> rw [stop] <;> decide
      · rcases post.2 with stop | stop <;> rw [stop] <;> decide
  cases head : (k.sem s).semCtxBlocked with
  | none =>
      have way := yields (.inl head)
      unfold Kernel.freed at way
      simpa [semUp,magic,head] using way
  | some p =>
      by_cases up : 1 ≤ ((k.sem s).semCompteur+1).toInt
      · have post : Regular C far c k ((k.woken c s p).log [.ctx p,.ctx p]) :=
          ⟨.single (.woken meets head up),orderly_log (orderly_woken orderly head)⟩
        unfold Kernel.woken Kernel.log at post
        change 1 ≤ ((k.sem s).semCompteur+1#32).toInt at up
        simpa [semUp,magic,head,up,writeCtx,runs_readCtx,Kernel.log,-BitVec.toInt_add] using post
      · have way := yields (.inr up)
        unfold Kernel.freed at way
        change ¬ 1 ≤ ((k.sem s).semCompteur+1#32).toInt at up
        simpa [semUp,magic,head,up,-BitVec.toInt_add] using way

theorem createCtx_runs (orderly : Orderly k) :
    Runs (createCtx c f) k (fun _ t => Regular C far c k t) (fun _ _ => False) := by
  rcases orderly.settled c with ⟨none,idle,empty⟩ | ⟨q,turn,_⟩
  · rw [runs_eq (createCtx_none none)]
    have own := ((founded_created (f := f) none).owns c k.count).mpr (.inr ⟨rfl,rfl⟩)
    refine ⟨.tail (.single (.founded none idle empty)) (.log ?_),orderly_log (orderly_founded orderly none)⟩
    simp [Cell.Of,own]
  · rw [runs_eq (createCtx_some turn.current turn.owns.1)]
    have created := joined_created (f := f) turn.owns
    have own := (created.owns c k.count).mpr (.inr ⟨rfl,rfl⟩)
    have old := (created.owns c q).mpr (.inl turn.owns)
    refine ⟨.tail (.single (.joined turn.current turn.owns)) (.log ?_),orderly_log (orderly_joined orderly turn.current turn.owns)⟩
    simp [Cell.Of,own,old]

theorem perform_runs {op : Op} (orderly : Orderly k) (home : op.Yields k → AtHome far k c) (meets : ∀ s, op = .up s → C k s) :
    Runs (perform c op) k (fun _ t => Regular C far c k t) (fun h t => Moves C far c k t ∧ h ≠ .loop ∧ h ≠ .exit) := by
  cases op with
  | down s => exact semDown_runs C far orderly home
  | up s => exact semUp_runs C far orderly (meets s rfl) home
  | yield =>
      unfold perform
      rw [runs_bind]
      refine (yield_orderly C far orderly (home trivial)).mono (fun _ _ post => post) ?_
      intro h t post
      refine ⟨post.1,?_,?_⟩
      · rcases post.2 with stop | stop <;> rw [stop] <;> decide
      · rcases post.2 with stop | stop <;> rw [stop] <;> decide
  | create f =>
      unfold perform
      rw [runs_bind]
      exact (createCtx_runs C far orderly).mono (fun _ _ post => post) fun _ _ => False.elim

theorem returned_unfolds {Q : Unit → Kernel → Prop} {E : Halt → Kernel → Prop} (home : k.currentCore = c) (current : k.currentCtx c = some q) :
    Runs (returned c) {k with cpu := Function.update k.cpu c rest} Q E ↔
      Runs (do deleteCtx; let away ← yieldCtx c; if away then return () else resume c) ((k.popped c q rest).log [.ctx q,.current c]) Q E := by
  simp [returned,runs_readCurrent,home,current,writeCtx,Kernel.popped,Kernel.log]

theorem popped_kept (x : Nat) : ((k.popped c q rest).ctx x).home = (k.ctx x).home ∧ (k.popped c q rest).next x = k.next x := by
  by_cases here : x = q
  · subst here
    simp [Kernel.popped,Kernel.next]
  · simp [Kernel.popped,Kernel.next,here]

theorem popped_owns (c q : Nat) (rest : List Call) : (k.popped c q rest).Owns d p ↔ k.Owns d p := by
  unfold Kernel.Owns
  rw [(popped_kept p).1]
  exact Iff.rfl

theorem returned_moves (turn : Turn k c call.owner) (top : k.cpu c = call :: rest) :
    Moves C far c k ((k.popped c call.owner rest).log [.ctx call.owner,.current c]) := by
  have popped : Moves C far c k (k.popped c call.owner rest) := .single (.popped top turn.current turn.owns)
  refine popped.tail (.log ?_)
  simp [Cell.Of,popped_owns c call.owner rest,turn.owns]

-- The last context of its core returns: delete_ctx ends the program.
theorem returned_alone (turn : Turn k c call.owner) (top : k.cpu c = call :: rest) (home : k.currentCore = c)
    (ring : Circular k.next [call.owner]) : ∃ cells, deleteCtx ((k.popped c call.owner rest).log [.ctx call.owner,.current c]) =
      (.error .exit,((k.popped c call.owner rest).log [.ctx call.owner,.current c]).log cells) ∧
    Moves C far c k (((k.popped c call.owner rest).log [.ctx call.owner,.current c]).log cells) := by
  have loop : (k.popped c call.owner rest).next call.owner = call.owner := (popped_kept _).2.trans (circular_single.mp ring)
  have bound : 0 < k.count := Nat.lt_of_le_of_lt (Nat.zero_le _) turn.owns.1
  obtain ⟨cells,met,exits⟩ := deleteCtx_alone (u := (k.popped c call.owner rest).log [.ctx call.owner,.current c]) home turn.current loop bound
  refine ⟨cells,exits,(returned_moves C far turn top).tail (.log ?_)⟩
  intro x member
  rcases met x member with current | own
  · rw [current]
    exact .inl rfl
  · rw [own]
    exact .inl ((popped_owns c call.owner rest).mpr turn.owns)

-- Any other one is cut out of the ring.
theorem returned_unlinks {l : List Nat} (turn : Turn k c call.owner) (top : k.cpu c = call :: rest) (home : k.currentCore = c)
    (ring : Circular k.next (call.owner :: (l ++ [z]))) (members : ∀ p, p ∈ call.owner :: (l ++ [z]) ↔ k.Alive c p) :
    ∃ cells, deleteCtx ((k.popped c call.owner rest).log [.ctx call.owner,.current c]) =
        (.ok (),((k.popped c call.owner rest).unlinked call.owner z).log cells) ∧
      Moves C far c k (((k.popped c call.owner rest).unlinked call.owner z).log cells) := by
  have around : Circular (k.popped c call.owner rest).next (call.owner :: (l ++ [z])) := circular_congr ring fun x _ => (popped_kept x).2
  have bound : l.length+1 < k.count := by
    have short := ring_length ring members
    simp only [List.length_cons,List.length_append,List.length_nil] at short
    omega
  obtain ⟨cells,met,unlinks⟩ := deleteCtx_unlinks (u := (k.popped c call.owner rest).log [.ctx call.owner,.current c]) home turn.current around bound
  have same : ((k.popped c call.owner rest).log [.ctx call.owner,.current c]).unlinked call.owner z =
      ((k.popped c call.owner rest).unlinked call.owner z).log [.ctx call.owner,.current c] := rfl
  rw [same,log_log] at unlinks
  have zed : k.Owns c z := ((members z).mp (by simp)).1
  have apart : z ≠ call.owner := circular_apart ring
  have popped : Moves C far c k (k.popped c call.owner rest) := .single (.popped top turn.current turn.owns)
  refine ⟨cells ++ [.ctx call.owner,.current c],unlinks,
    (popped.tail (.unlinked ((popped_owns c _ rest).mpr turn.owns) ((popped_owns c _ rest).mpr zed))).tail (.log ?_)⟩
  intro x member
  rcases List.mem_append.mp member with inside | outside
  · rcases met x inside with current | ⟨p,which,own⟩
    · rw [current]
      exact .inl rfl
    · rw [own]
      exact .inl ((ended_owns apart c p).mpr ((members p).mp which).1)
  · simp only [List.mem_cons,List.not_mem_nil,or_false] at outside
    rcases outside with own | current
    · rw [own]
      exact .inl ((ended_owns apart c _).mpr turn.owns)
    · rw [current]
      exact .inl rfl

-- A function returns: its context leaves the ring, and the program ends with
-- the last one.
theorem returned_runs (orderly : Orderly k) (top : k.cpu c = call :: rest) (home : k.currentCore = c) :
    Runs (returned c) {k with cpu := Function.update k.cpu c rest}
      (fun _ t => Regular C far c k t ∧ ¬ ∀ p, k.Alive c p → p = call.owner)
      (fun h t => Moves C far c k t ∧ h ≠ .loop ∧ (h = .exit ↔ ∀ p, k.Alive c p → p = call.owner)) := by
  obtain ⟨turn,ready,_⟩ := orderly.running top
  obtain ⟨l,ring,members⟩ := turn.around ⟨turn.owns,by rw [ready]; decide⟩
  rw [returned_unfolds home turn.current,runs_bind]
  rcases List.eq_nil_or_concat l with empty | ⟨l,z,longer⟩
  · subst empty
    obtain ⟨cells,exits,moves⟩ := returned_alone C far turn top home ring
    rw [runs_error exits]
    exact ⟨moves,by decide,iff_of_true rfl fun p living => List.mem_singleton.mp ((members p).mpr living)⟩
  · rw [List.concat_eq_append] at longer
    subst longer
    obtain ⟨cells,unlinks,moved⟩ := returned_unlinks C far turn top home ring members
    rw [runs_eq unlinks]
    obtain ⟨pending,ended⟩ := pending_ended orderly top ring members
    have other : ¬ ∀ p, k.Alive c p → p = call.owner := by
      intro alone
      exact circular_apart ring (alone z ((members z).mp (by simp)))
    have closed : k.firstContext = false := by
      cases begun : k.firstContext with
      | false => rfl
      | true =>
          have idle := orderly.sound.opening begun c
          rw [top] at idle
          cases idle
    rw [runs_bind]
    refine (yield_runs C far (pending_log pending) home (.inr (.inr ⟨ended,closed⟩))).mono ?_ ?_
    · intro away t post
      cases away with
      | false => exact absurd ended (post.2.2 rfl).state.2
      | true => exact ⟨⟨moved.trans post.1,post.2.1⟩,other⟩
    · intro h t post
      refine ⟨moved.trans post.1,?_,iff_of_false ?_ other⟩
      · rcases post.2 with stop | stop <;> rw [stop] <;> decide
      · rcases post.2 with stop | stop <;> rw [stop] <;> decide

-- An event that issues an operation ends no function.
theorem issued_going {op : Op} (issued : e.op k = some op) : ¬ e.Last k := by
  intro last
  obtain ⟨_,_,_,none,_⟩ := last
  rw [issued] at none
  cases none

theorem timer_runs (orderly : Orderly k) (home : AtHome far k c) :
    Runs (Event.timer c).act k (fun _ t => Regular C far c k t ∧ ¬ (Event.timer c).Last k)
      (fun h t => Moves C far c k t ∧ h ≠ .loop ∧ (h = .exit ↔ (Event.timer c).Last k)) := by
  have going : ¬ (Event.timer c).Last k := issued_going rfl
  unfold Event.act
  rw [runs_bind]
  refine (yield_orderly C far orderly home).mono ?_ ?_
  · intro _ t post
    exact ⟨post,going⟩
  · intro h t post
    refine ⟨post.1,?_,iff_of_false ?_ going⟩
    · rcases post.2 with stop | stop <;> rw [stop] <;> decide
    · rcases post.2 with stop | stop <;> rw [stop] <;> decide

-- The function that runs issues its next operation.
theorem issues_runs {op : Op} (orderly : Orderly k) (top : k.cpu c = call :: rest)
    (function : (k.ctx call.owner).function call.entry call.pc = some op) (home : op.Yields k → AtHome far k c)
    (meets : ∀ s, op = .up s → C (k.begun c call rest) s) :
    Runs (Event.run c).act k (fun _ t => Regular C far c k t ∧ ¬ (Event.run c).Last k)
      (fun h t => Moves C far c k t ∧ h ≠ .loop ∧ (h = .exit ↔ (Event.run c).Last k)) := by
  obtain ⟨turn,ready,_⟩ := orderly.running top
  have issued : (Event.run c).op k = some op := by
    simp only [Event.op,top]
    exact function
  have going : ¬ (Event.run c).Last k := issued_going issued
  have began : Moves C far c k (k.begun c call rest) := .single (.begun top turn.current ⟨turn.owns,by rw [ready]; decide⟩)
  have way : Runs (Event.run c).act k (fun _ t => Regular C far c k t ∧ ¬ (Event.run c).Last k)
      (fun h t => Moves C far c k t ∧ h ≠ .loop ∧ (h = .exit ↔ (Event.run c).Last k)) ↔
      Runs (perform c op) (k.begun c call rest) (fun _ t => Regular C far c k t ∧ ¬ (Event.run c).Last k)
      (fun h t => Moves C far c k t ∧ h ≠ .loop ∧ (h = .exit ↔ (Event.run c).Last k)) := by
    simp [Event.act,runNext,top,function,Kernel.begun]
  refine way.mpr ((perform_runs C far (orderly_begun orderly top) ?_ meets).mono ?_ ?_)
  · intro yields
    refine home ?_
    cases op <;> exact yields
  · intro _ t post
    exact ⟨⟨began.trans post.1,post.2⟩,going⟩
  · intro h t post
    exact ⟨began.trans post.1,post.2.1,iff_of_false post.2.2 going⟩

-- Or it has none left, and returns.
theorem returns_runs (orderly : Orderly k) (top : k.cpu c = call :: rest)
    (function : (k.ctx call.owner).function call.entry call.pc = none) (home : (Event.run c).Yields k → AtHome far k c) :
    Runs (Event.run c).act k (fun _ t => Regular C far c k t ∧ ¬ (Event.run c).Last k)
      (fun h t => Moves C far c k t ∧ h ≠ .loop ∧ (h = .exit ↔ (Event.run c).Last k)) := by
  obtain ⟨turn,_,_⟩ := orderly.running top
  have issued : (Event.run c).op k = none := by
    simp only [Event.op,top]
    exact function
  have here : k.currentCore = c := by
    refine orderly.home turn.current (home ?_)
    intro op equal
    rw [issued] at equal
    cases equal
  have last : (Event.run c).Last k ↔ ∀ p, k.Alive c p → p = call.owner := by
    constructor
    · intro last
      obtain ⟨call',rest',again,_,alone⟩ := last
      have equal : k.cpu c = call' :: rest' := again
      rw [top] at equal
      cases equal
      exact alone
    · intro alone
      exact ⟨call,rest,top,issued,alone⟩
  have way : ∀ (Q : Unit → Kernel → Prop) (E : Halt → Kernel → Prop), Runs (Event.run c).act k Q E ↔
      Runs (returned c) {k with cpu := Function.update k.cpu c rest} Q E := by
    intro Q E
    simp [Event.act,runNext,top,function]
  rw [way,last]
  exact returned_runs C far orderly top here

theorem act_runs (orderly : Orderly k) (enabled : e.Enabled k) (home : e.Yields k → AtHome far k e.core)
    (meets : ∀ s, e.op k = some (.up s) → C k s) (stable : ∀ k c call rest s, C k s → C (k.begun c call rest) s) :
    Runs e.act k (fun _ t => Regular C far e.core k t ∧ ¬ e.Last k)
      (fun h t => Moves C far e.core k t ∧ h ≠ .loop ∧ (h = .exit ↔ e.Last k)) := by
  cases e with
  | timer c =>
      refine timer_runs C far orderly (home ?_)
      intro op equal
      cases equal
      trivial
  | boot c op =>
      have going : ¬ (Event.boot c op).Last k := issued_going rfl
      refine (perform_runs C far orderly (fun yields => home ?_) fun s equal => meets s (congrArg some equal)).mono ?_ ?_
      · intro op' equal
        cases equal
        exact yields
      · intro _ t post
        exact ⟨post,going⟩
      · intro h t post
        exact ⟨post.1,post.2.1,iff_of_false post.2.2 going⟩
  | run c =>
      have run : k.cpu c ≠ [] := enabled
      cases top : k.cpu c with
      | nil => exact absurd top run
      | cons call rest =>
          cases function : (k.ctx call.owner).function call.entry call.pc with
          | none => exact returns_runs C far orderly top function home
          | some op =>
              have issued : (Event.run c).op k = some op := by
                simp only [Event.op,top]
                exact function
              refine issues_runs C far orderly top function (fun yields => home ?_) fun s equal => ?_
              · intro op' equal
                rw [issued] at equal
                cases equal
                exact yields
              · rw [equal] at issued
                exact stable k c call rest s (meets s issued)

end operations

theorem step_moves (C : Kernel → Nat → Prop) (far : Prop) (orderly : Orderly k) (home : e.Yields k → AtHome far k e.core)
    (meets : ∀ s, e.op k = some (.up s) → C k s) (stable : ∀ k c call rest s, C k s → C (k.begun c call rest) s)
    (taken : KernelStep k e t) : Moves C far e.core k t ∧ Orderly t :=
  ((act_runs C far orderly taken.1 home meets stable).result taken.2).1

-- What every move keeps, a row of moves keeps.
theorem moves_keep {P : Kernel → Prop} (keep : ∀ k t, Move C far c k t → P k → P t) (moves : Moves C far c k t) (first : P k) : P t := by
  induction moves with
  | refl => exact first
  | tail _ move ih => exact keep _ _ move ih

-- Contexts stay on the core that has created them.
structure Homes (c : Nat) (k t : Kernel) : Prop where
  count : k.count ≤ t.count
  old : ∀ p < k.count, (t.ctx p).home = (k.ctx p).home
  new : ∀ p, k.count ≤ p → p < t.count → (t.ctx p).home = c
  core : t.currentCore = c ∨ t.currentCore = k.currentCore ∧ t.count = k.count

theorem Homes.trans (one : Homes c k t) (two : Homes c t u) : Homes c k u := by
  constructor
  · exact Nat.le_trans one.count two.count
  · intro p bound
    exact (two.old p (Nat.lt_of_lt_of_le bound one.count)).trans (one.old p bound)
  · intro p fresh bound
    by_cases early : p < t.count
    · exact (two.old p early).trans (one.new p fresh early)
    · exact two.new p (Nat.not_lt.mp early) bound
  · rcases two.core with here | ⟨core,count⟩
    · exact .inl here
    · rw [core,count]
      exact one.core

theorem homes_same (count : t.count = k.count) (core : t.currentCore = k.currentCore) (home : ∀ p, (t.ctx p).home = (k.ctx p).home) :
    Homes c k t :=
  ⟨Nat.le_of_eq count.symm,fun p _ => home p,fun _ fresh bound => absurd bound (Nat.not_lt.mpr (count ▸ fresh)),.inr ⟨core,count⟩⟩

theorem homes_update {v : Ctx} (count : t.count = k.count) (core : t.currentCore = k.currentCore)
    (ctx : t.ctx = Function.update k.ctx q v) (same : v.home = (k.ctx q).home) : Homes c k t := by
  refine homes_same count core fun p => ?_
  rw [ctx]
  by_cases here : p = q
  · subst here
    rw [Function.update_self]
    exact same
  · rw [Function.update_of_ne here]

theorem NewCtx.homes (created : NewCtx k t c) (core : t.currentCore = c) : Homes c k t := by
  constructor
  · rw [created.count]
    exact Nat.le_succ _
  · intro p bound
    exact (created.old p bound).2.2.2.1
  · intro p fresh bound
    rw [created.count] at bound
    rw [Nat.le_antisymm (Nat.le_of_lt_succ bound) fresh]
    exact created.home
  · exact .inl core

theorem Move.homes (move : Move C far c k t) : Homes c k t := by
  cases move with
  | log => exact homes_same rfl rfl fun _ => rfl
  | founded none => exact (founded_created none).homes rfl
  | joined _ own => exact (joined_created own).homes rfl
  | begun => exact homes_same rfl rfl fun _ => rfl
  | took => exact homes_same rfl rfl fun _ => rfl
  | blockedIn => exact homes_update rfl rfl rfl rfl
  | freed => exact homes_same rfl rfl fun _ => rfl
  | woken => exact homes_update rfl rfl rfl rfl
  | popped => exact homes_update rfl rfl rfl rfl
  | unlinked => exact homes_update rfl rfl rfl rfl
  | opened => exact homes_same rfl rfl fun _ => rfl
  | saved => exact homes_update rfl rfl rfl rfl
  | entering => exact homes_update rfl rfl rfl rfl
  | resuming => exact homes_same rfl rfl fun _ => rfl

theorem Moves.homes (moves : Moves C far c k t) : Homes c k t :=
  moves_keep (P := Homes c k) (fun _ _ move ih => ih.trans move.homes) moves (homes_same rfl rfl fun _ => rfl)

end AsePlusPlus
