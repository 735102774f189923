import Mathlib.Logic.Relation
import AsePlusPlus.Dispatch

namespace AsePlusPlus
open Words Program Chain Ring

-- What an operation issued on a core does to the kernel, in the order of the
-- code. `C` is what is known where sem_up is called, and `far` allows a look at
-- the list of another core.
inductive Move (C : Kernel → Nat → Prop) (far : Prop) (c : Nat) : Kernel → Kernel → Prop where
  | log {k : Kernel} {cells : List Cell} (own : ∀ x ∈ cells, x.Of k c ∨ far) : Move C far c k (k.log cells)
  | founded {k : Kernel} {f : Func} (none : k.currentCtx c = none) (idle : k.cpu c = []) (empty : ∀ p, ¬ k.Alive c p) :
      Move C far c k (k.founded c f)
  | joined {k : Kernel} {f : Func} {q : Nat} (current : k.currentCtx c = some q) (own : k.Owns c q) :
      Move C far c k (k.joined c q f)
  | begun {k : Kernel} {call : Call} {rest : List Call} (top : k.cpu c = call :: rest)
      (current : k.currentCtx c = some call.owner) (alive : k.Alive c call.owner) : Move C far c k (k.begun c call rest)
  | took {k : Kernel} {s : Nat} (free : 0 < (k.sem s).semCompteur.toInt) : Move C far c k (k.took c s)
  | blockedIn {k : Kernel} {q s : Nat} (current : k.currentCtx c = some q) (alive : k.Alive c q)
      (out : ¬ 0 < (k.sem s).semCompteur.toInt) : Move C far c k (k.blockedIn c q s)
  | freed {k : Kernel} {s : Nat} (meets : C k s)
      (keeps : (k.sem s).semCtxBlocked = none ∨ ¬ 1 ≤ ((k.sem s).semCompteur+1).toInt) : Move C far c k (k.freed c s)
  | woken {k : Kernel} {s p : Nat} (meets : C k s) (head : (k.sem s).semCtxBlocked = some p)
      (up : 1 ≤ ((k.sem s).semCompteur+1).toInt) : Move C far c k ((k.woken c s p).log [.ctx p,.ctx p])
  | popped {k : Kernel} {call : Call} {rest : List Call} (top : k.cpu c = call :: rest)
      (current : k.currentCtx c = some call.owner) (own : k.Owns c call.owner) :
      Move C far c k (k.popped c call.owner rest)
  | unlinked {k : Kernel} {q z : Nat} (own : k.Owns c q) (other : k.Owns c z) : Move C far c k (k.unlinked q z)
  | opened {k : Kernel} : Move C far c k k.opened
  | saved {k : Kernel} {q : Nat} (current : k.currentCtx c = some q) (own : k.Owns c q) : Move C far c k (k.saved c q)
  | entering {k : Kernel} {p q : Nat} (current : k.currentCtx c = some q) (own : k.Owns c q)
      (stack : (k.ctx q).esp = k.cpu c) (other : k.Owns c p) (state : (k.ctx p).state = .activable) :
      Move C far c k (k.entering c p)
  | resuming {k : Kernel} {p q : Nat} (current : k.currentCtx c = some q) (own : k.Owns c q)
      (stack : (k.ctx q).esp = k.cpu c) (other : k.Owns c p) (state : (k.ctx p).state = .ready) :
      Move C far c k (k.resuming c p)

abbrev Moves (C : Kernel → Nat → Prop) (far : Prop) (c : Nat) : Kernel → Kernel → Prop := Relation.ReflTransGen (Move C far c)

-- The waiting lists of the semaphores: their members are the blocked contexts,
-- each of them on one list.
def Kernel.link (k : Kernel) (o : Option Nat) : Option Nat := o.bind fun p => (k.ctx p).nextSemaphoreContext

structure Waits (k : Kernel) (w : Nat → List Nat) : Prop where
  list : ∀ s, Linked k.link none (k.sem s).semCtxBlocked ((w s).map some)
  blocked : ∀ s, ∀ p ∈ w s, p < k.count ∧ (k.ctx p).state = .blocked
  listed : ∀ p < k.count, (k.ctx p).state = .blocked → ∃ s, p ∈ w s
  once : ∀ s r p, p ∈ w s → p ∈ w r → s = r

-- What holds at every point of an operation.
structure Intact (k : Kernel) : Prop where
  canary : ∀ p < k.count, (k.ctx p).canary = ctxCanary
  steady : ∀ p < k.count, (k.ctx p).state ≠ .running
  magic : ∀ s, (k.sem s).semMagicNumber = semMagic
  queued : ∃ w, Waits k w
  parked : ∀ c p, k.Owns c p → (k.ctx p).state = .ready → k.currentCtx c ≠ some p → Top (k.ctx p).esp p
  opening : k.firstContext = true → ∀ c, k.cpu c = []

-- The contexts that live on a core are a ring that the current one leads into.
structure Turn (k : Kernel) (c q : Nat) : Prop where
  current : k.currentCtx c = some q
  owns : k.Owns c q
  ring : ∃ l, Circular k.next l ∧ l.head? = some (k.next q) ∧ ∀ p, p ∈ l ↔ k.Alive c p

-- The current context runs or, before the core has been given to a context, has
-- not begun.
def OnCpu (k : Kernel) (c q : Nat) : Prop :=
  (k.ctx q).state = .ready ∧ Top (k.cpu c) q ∨ (k.ctx q).state = .activable ∧ k.cpu c = []

def Settled (k : Kernel) (c : Nat) : Prop :=
  k.currentCtx c = none ∧ k.cpu c = [] ∧ (∀ p, ¬ k.Alive c p) ∨ ∃ q, Turn k c q ∧ OnCpu k c q

structure Orderly (k : Kernel) : Prop where
  sound : Intact k
  settled : ∀ c, Settled k c

variable {C : Kernel → Nat → Prop} {far : Prop} {k t : Kernel} {c d p q s z : Nat} {w : Nat → List Nat} {cells : List Cell}
  {f : Func} {call : Call} {rest : List Call} {e : Event}

theorem OnCpu.state (on : OnCpu k c q) : (k.ctx q).state ≠ .blocked ∧ (k.ctx q).state ≠ .terminated := by
  rcases on with ⟨ready,_⟩ | ⟨activable,_⟩
  · rw [ready]
    exact ⟨by decide,by decide⟩
  · rw [activable]
    exact ⟨by decide,by decide⟩

theorem OnCpu.alive (on : OnCpu k c q) (own : k.Owns c q) : k.Alive c q := ⟨own,on.state.2⟩

theorem owns_ne (own : k.Owns c q) (other : k.Owns d p) (apart : d ≠ c) : p ≠ q := by
  intro equal
  subst equal
  exact apart (other.2.symm.trans own.2)

theorem boot_orderly (n : Nat → Word) : Orderly (bootKernel n) := by
  constructor
  · constructor
    · intro p bound
      exact absurd bound (Nat.not_lt_zero p)
    · intro p bound
      exact absurd bound (Nat.not_lt_zero p)
    · intro s
      rfl
    · refine ⟨fun _ => [],fun s => rfl,?_,?_,?_⟩
      · intro s p member
        cases member
      · intro p bound
        exact absurd bound (Nat.not_lt_zero p)
      · intro s r p member
        cases member
    · intro c p own
      exact absurd own.1 (Nat.not_lt_zero p)
    · intro _ c
      rfl
  · intro c
    exact .inl ⟨rfl,rfl,fun p alive => absurd alive.1.1 (Nat.not_lt_zero p)⟩

-- A change that spares the links, the current contexts and what lives.
theorem waits_frame (waits : Waits k w) (count : k.count ≤ t.count)
    (same : ∀ p < k.count, (t.ctx p).nextSemaphoreContext = (k.ctx p).nextSemaphoreContext ∧
      ((t.ctx p).state = .blocked ↔ (k.ctx p).state = .blocked))
    (fresh : ∀ p < t.count, k.count ≤ p → (t.ctx p).state ≠ .blocked)
    (head : ∀ s, (t.sem s).semCtxBlocked = (k.sem s).semCtxBlocked) : Waits t w := by
  constructor
  · intro s
    rw [head s]
    refine linked_congr (waits.list s) ?_
    intro o member
    obtain ⟨p,inside,rfl⟩ := List.mem_map.mp member
    exact (same p (waits.blocked s p inside).1).1
  · intro s p member
    obtain ⟨bound,blocked⟩ := waits.blocked s p member
    exact ⟨Nat.lt_of_lt_of_le bound count,(same p bound).2.mpr blocked⟩
  · intro p bound blocked
    by_cases old : p < k.count
    · exact waits.listed p old ((same p old).2.mp blocked)
    · exact absurd blocked (fresh p bound (Nat.not_lt.mp old))
  · exact waits.once

theorem turn_frame (turn : Turn k c q) (current : t.currentCtx c = k.currentCtx c) (owns : ∀ p, t.Owns c p ↔ k.Owns c p)
    (same : ∀ p, k.Owns c p → t.next p = k.next p ∧ ((t.ctx p).state = .terminated ↔ (k.ctx p).state = .terminated)) :
    Turn t c q := by
  obtain ⟨l,ring,head,members⟩ := turn.ring
  refine ⟨current.trans turn.current,(owns q).mpr turn.owns,l,?_,?_,?_⟩
  · exact circular_congr ring fun p member => (same p ((members p).mp member).1).1
  · rw [head,(same q turn.owns).1]
  · intro p
    rw [members p]
    constructor
    · intro alive
      exact ⟨(owns p).mpr alive.1,fun ended => alive.2 ((same p alive.1).2.mp ended)⟩
    · intro alive
      have own := (owns p).mp alive.1
      exact ⟨own,fun ended => alive.2 ((same p own).2.mpr ended)⟩

theorem settled_frame (settled : Settled k d) (current : t.currentCtx d = k.currentCtx d) (cpu : t.cpu d = k.cpu d)
    (owns : ∀ p, t.Owns d p ↔ k.Owns d p)
    (same : ∀ p, k.Owns d p → t.next p = k.next p ∧ ((t.ctx p).state = .terminated ↔ (k.ctx p).state = .terminated) ∧
      ((k.ctx p).state ≠ .blocked → (t.ctx p).state = (k.ctx p).state)) : Settled t d := by
  rcases settled with ⟨none,idle,empty⟩ | ⟨q,turn,on⟩
  · refine .inl ⟨current.trans none,cpu.trans idle,?_⟩
    intro p alive
    have own := (owns p).mp alive.1
    exact empty p ⟨own,fun ended => alive.2 ((same p own).2.1.mpr ended)⟩
  · refine .inr ⟨q,turn_frame turn current owns fun p own => ⟨(same p own).1,(same p own).2.1⟩,?_⟩
    unfold OnCpu
    rw [(same q turn.owns).2.2 on.state.1,cpu]
    exact on

-- A running context is the current one of its core.
theorem Orderly.running (orderly : Orderly k) (top : k.cpu c = call :: rest) :
    Turn k c call.owner ∧ (k.ctx call.owner).state = .ready ∧ call.inside = none := by
  rcases orderly.settled c with ⟨_,idle,_⟩ | ⟨q,turn,⟨ready,first,others,stack,owner,free⟩ | ⟨_,idle⟩⟩
  · rw [idle] at top
    cases top
  · rw [stack] at top
    cases top
    subst owner
    exact ⟨turn,ready,free⟩
  · rw [idle] at top
    cases top

-- Logs and counters are not looked at.
theorem orderly_same (orderly : Orderly k) (ctx : t.ctx = k.ctx) (current : t.currentCtx = k.currentCtx) (cpu : t.cpu = k.cpu)
    (count : t.count = k.count) (first : t.firstContext = k.firstContext)
    (sem : ∀ s, (t.sem s).semCtxBlocked = (k.sem s).semCtxBlocked ∧ (t.sem s).semMagicNumber = (k.sem s).semMagicNumber) :
    Orderly t := by
  obtain ⟨sound,settled⟩ := orderly
  obtain ⟨w,waits⟩ := sound.queued
  have owns : ∀ d p, t.Owns d p ↔ k.Owns d p := by
    intro d p
    unfold Kernel.Owns
    rw [ctx,count]
  have links : ∀ p, t.ctx p = k.ctx p := fun p => congrFun ctx p
  constructor
  · constructor
    · rw [ctx,count]
      exact sound.canary
    · rw [ctx,count]
      exact sound.steady
    · intro s
      exact (sem s).2.trans (sound.magic s)
    · refine ⟨w,waits_frame waits (Nat.le_of_eq count.symm) ?_ ?_ fun s => (sem s).1⟩
      · intro p _
        rw [links p]
        exact ⟨rfl,Iff.rfl⟩
      · intro p bound old
        rw [count] at bound
        exact absurd bound (Nat.not_lt.mpr old)
    · intro d p own ready away
      rw [links p] at ready ⊢
      rw [current] at away
      exact sound.parked d p ((owns d p).mp own) ready away
    · rw [first,cpu]
      exact sound.opening
  · intro d
    refine settled_frame (settled d) (congrFun current d) (congrFun cpu d) (owns d) ?_
    intro p _
    unfold Kernel.next
    rw [links p]
    exact ⟨rfl,Iff.rfl,fun _ => rfl⟩

theorem orderly_log (orderly : Orderly k) : Orderly (k.log cells) :=
  orderly_same orderly rfl rfl rfl rfl rfl fun _ => ⟨rfl,rfl⟩

theorem counter_update {v : Word} (r : Nat) :
    (Function.update k.sem s {k.sem s with semCompteur := v} r).semCtxBlocked = (k.sem r).semCtxBlocked ∧
      (Function.update k.sem s {k.sem s with semCompteur := v} r).semMagicNumber = (k.sem r).semMagicNumber := by
  by_cases equal : r = s
  · subst equal
    rw [Function.update_self]
    exact ⟨rfl,rfl⟩
  · rw [Function.update_of_ne equal]
    exact ⟨rfl,rfl⟩

theorem orderly_took (orderly : Orderly k) : Orderly (k.took c s) :=
  orderly_same orderly rfl rfl rfl rfl rfl counter_update

theorem orderly_freed (orderly : Orderly k) : Orderly (k.freed c s) :=
  orderly_same orderly rfl rfl rfl rfl rfl counter_update

theorem orderly_begun (orderly : Orderly k) (top : k.cpu c = call :: rest) : Orderly (k.begun c call rest) := by
  obtain ⟨turn,ready,free⟩ := orderly.running top
  obtain ⟨sound,settled⟩ := orderly
  obtain ⟨w,waits⟩ := sound.queued
  constructor
  · refine ⟨sound.canary,sound.steady,sound.magic,⟨w,?_⟩,sound.parked,?_⟩
    · exact waits_frame waits (Nat.le_refl _) (fun p _ => ⟨rfl,Iff.rfl⟩) (fun p bound old => absurd bound (Nat.not_lt.mpr old)) fun _ => rfl
    · intro first
      have idle := sound.opening first c
      rw [top] at idle
      cases idle
  · intro d
    by_cases here : d = c
    · subst here
      refine .inr ⟨call.owner,turn_frame turn rfl (fun _ => Iff.rfl) fun _ _ => ⟨rfl,Iff.rfl⟩,.inl ⟨ready,?_⟩⟩
      exact ⟨{call with pc := call.pc+1},rest,by simp [Kernel.begun],rfl,free⟩
    · exact settled_frame (settled d) rfl (Function.update_of_ne here _ _) (fun _ => Iff.rfl) fun _ _ => ⟨rfl,Iff.rfl,fun _ => rfl⟩

-- The first of a waiting list leaves it.
theorem waits_woken (waits : Waits k w) (head : (k.sem s).semCtxBlocked = some p) :
    ∃ rest, w s = p :: rest ∧ Waits (k.woken c s p) (Function.update w s rest) := by
  have list := waits.list s
  rw [head] at list
  cases equal : w s with
  | nil =>
      rw [equal] at list
      cases list
  | cons a rest =>
      rw [equal] at list
      obtain ⟨same,_,onward⟩ := list
      cases same
      have nodup : (p :: rest).Nodup := by
        have whole := linked_nodup (waits.list s)
        rw [equal] at whole
        exact List.Nodup.of_map _ whole
      have apart := (List.nodup_cons.mp nodup).1
      have here : p ∈ w s := by simp [equal]
      have left : ∀ r x, x ∈ Function.update w s rest r → x ∈ w r ∧ x ≠ p := by
        intro r x member
        by_cases own : r = s
        · subst own
          rw [Function.update_self] at member
          refine ⟨by rw [equal]; exact List.mem_cons_of_mem p member,?_⟩
          intro twice
          exact apart (twice ▸ member)
        · rw [Function.update_of_ne own] at member
          refine ⟨member,?_⟩
          intro twice
          exact own (waits.once r s p (twice ▸ member) here)
      have kept : ∀ x, ((k.woken c s p).ctx x).nextSemaphoreContext = (k.ctx x).nextSemaphoreContext := by
        intro x
        by_cases own : x = p
        · subst own
          simp [Kernel.woken]
        · simp [Kernel.woken,own]
      have link : (k.woken c s p).link = k.link := by
        funext o
        cases o with
        | none => rfl
        | some x => exact kept x
      refine ⟨rest,rfl,?_,?_,?_,?_⟩
      · intro r
        rw [link]
        by_cases own : r = s
        · subst own
          have next : k.link (some p) = (k.ctx p).nextSemaphoreContext := rfl
          rw [next] at onward
          simpa [Kernel.woken] using onward
        · simpa [Kernel.woken,own] using waits.list r
      · intro r x member
        obtain ⟨old,other⟩ := left r x member
        obtain ⟨bound,blocked⟩ := waits.blocked r x old
        exact ⟨bound,by simpa [Kernel.woken,other] using blocked⟩
      · intro x bound blocked
        have other : x ≠ p := by
          intro same
          subst same
          simp [Kernel.woken] at blocked
        have before : (k.ctx x).state = .blocked := by simpa [Kernel.woken,other] using blocked
        obtain ⟨r,member⟩ := waits.listed x bound before
        refine ⟨r,?_⟩
        by_cases own : r = s
        · subst own
          rw [equal] at member
          rw [Function.update_self]
          exact (List.mem_cons.mp member).resolve_left other
        · rwa [Function.update_of_ne own]
      · intro r r' x one two
        exact waits.once r r' x (left r x one).1 (left r' x two).1

theorem orderly_woken (orderly : Orderly k) (head : (k.sem s).semCtxBlocked = some p) : Orderly (k.woken c s p) := by
  obtain ⟨sound,settled⟩ := orderly
  obtain ⟨w,waits⟩ := sound.queued
  obtain ⟨rest,equal,woken⟩ := waits_woken (c := c) waits head
  obtain ⟨bound,blocked⟩ := waits.blocked s p (by simp [equal])
  have fields : ∀ x, ((k.woken c s p).ctx x).canary = (k.ctx x).canary ∧ ((k.woken c s p).ctx x).home = (k.ctx x).home ∧
      ((k.woken c s p).ctx x).next = (k.ctx x).next ∧ ((k.woken c s p).ctx x).esp = (k.ctx x).esp ∧
      (((k.woken c s p).ctx x).state = if x = p then .activable else (k.ctx x).state) := by
    intro x
    by_cases own : x = p
    · subst own
      simp [Kernel.woken]
    · simp [Kernel.woken,own]
  have owns : ∀ d x, (k.woken c s p).Owns d x ↔ k.Owns d x := by
    intro d x
    unfold Kernel.Owns
    rw [(fields x).2.1]
    exact Iff.rfl
  constructor
  · constructor
    · intro x old
      rw [(fields x).1]
      exact sound.canary x old
    · intro x old
      rw [(fields x).2.2.2.2]
      split
      · decide
      · exact sound.steady x old
    · intro r
      by_cases own : r = s
      · subst own
        simpa [Kernel.woken] using sound.magic r
      · simpa [Kernel.woken,own] using sound.magic r
    · exact ⟨_,woken⟩
    · intro d x own ready away
      rw [(fields x).2.2.2.2] at ready
      rw [(fields x).2.2.2.1]
      split at ready
      · cases ready
      · exact sound.parked d x ((owns d x).mp own) ready away
    · exact sound.opening
  · intro d
    refine settled_frame (settled d) rfl rfl (owns d) ?_
    intro x _
    unfold Kernel.next
    rw [(fields x).2.2.1,(fields x).2.2.2.2]
    refine ⟨rfl,?_,?_⟩
    · split
      · rename_i own
        rw [own,blocked]
        decide
      · exact Iff.rfl
    · intro free
      split
      · rename_i own
        rw [own,blocked] at free
        exact absurd rfl free
      · rfl

-- The ring read from a context of it.
theorem Turn.around (turn : Turn k c q) (alive : k.Alive c q) :
    ∃ l, Circular k.next (q :: l) ∧ ∀ p, p ∈ q :: l ↔ k.Alive c p := by
  obtain ⟨cells,ring,_,members⟩ := turn.ring
  obtain ⟨l,around,same⟩ := circular_from ring ((members q).mpr alive)
  exact ⟨l,around,fun p => (same p).trans (members p)⟩

theorem turn_of_around {l : List Nat} (current : k.currentCtx c = some q) (own : k.Owns c q) (ring : Circular k.next (q :: l))
    (members : ∀ p, p ∈ q :: l ↔ k.Alive c p) : Turn k c q := by
  obtain ⟨turned,head⟩ := circular_turn ring
  refine ⟨current,own,l ++ [q],turned,head,fun p => ?_⟩
  rw [← members p,List.mem_append,List.mem_singleton,List.mem_cons]
  exact or_comm

-- A new context changes no other one, links apart.
structure NewCtx (k t : Kernel) (c : Nat) : Prop where
  count : t.count = k.count+1
  first : t.firstContext = k.firstContext
  sem : t.sem = k.sem
  cpu : t.cpu = k.cpu
  current : ∀ d x, k.currentCtx d = some x → t.currentCtx d = some x
  other : ∀ d, d ≠ c → t.currentCtx d = k.currentCtx d
  old : ∀ x < k.count, (t.ctx x).canary = (k.ctx x).canary ∧ (t.ctx x).state = (k.ctx x).state ∧ (t.ctx x).esp = (k.ctx x).esp ∧
    (t.ctx x).home = (k.ctx x).home ∧ (t.ctx x).nextSemaphoreContext = (k.ctx x).nextSemaphoreContext
  links : ∀ d x, d ≠ c → k.Owns d x → t.next x = k.next x
  canary : (t.ctx k.count).canary = ctxCanary
  state : (t.ctx k.count).state = .activable
  home : (t.ctx k.count).home = c

theorem NewCtx.owns (created : NewCtx k t c) (d p : Nat) : t.Owns d p ↔ k.Owns d p ∨ d = c ∧ p = k.count := by
  unfold Kernel.Owns
  rw [created.count]
  rcases Nat.lt_trichotomy p k.count with below | equal | above
  · rw [(created.old p below).2.2.2.1]
    constructor
    · intro own
      exact .inl ⟨below,own.2⟩
    · intro own
      rcases own with own | ⟨_,equal⟩
      · exact ⟨Nat.lt_succ_of_lt below,own.2⟩
      · exact absurd equal (Nat.ne_of_lt below)
  · subst equal
    rw [created.home]
    constructor
    · intro own
      exact .inr ⟨own.2.symm,rfl⟩
    · intro own
      rcases own with own | ⟨equal,_⟩
      · exact absurd own.1 (Nat.lt_irrefl _)
      · exact ⟨Nat.lt_succ_self _,equal.symm⟩
  · constructor
    · intro own
      omega
    · intro own
      omega

theorem NewCtx.alive (created : NewCtx k t c) (d p : Nat) : t.Alive d p ↔ k.Alive d p ∨ d = c ∧ p = k.count := by
  unfold Kernel.Alive
  rw [created.owns d p]
  constructor
  · intro alive
    obtain ⟨own | new,running⟩ := alive
    · rw [(created.old p own.1).2.1] at running
      exact .inl ⟨own,running⟩
    · exact .inr new
  · intro alive
    rcases alive with ⟨own,running⟩ | ⟨equal,new⟩
    · rw [(created.old p own.1).2.1]
      exact ⟨.inl own,running⟩
    · subst new
      rw [created.state]
      exact ⟨.inr ⟨equal,rfl⟩,by decide⟩

theorem NewCtx.sound (created : NewCtx k t c) (sound : Intact k) : Intact t := by
  obtain ⟨w,waits⟩ := sound.queued
  have split : ∀ p < t.count, p < k.count ∨ p = k.count := by
    intro p bound
    rw [created.count] at bound
    exact Nat.lt_or_eq_of_le (Nat.le_of_lt_succ bound)
  constructor
  · intro p bound
    rcases split p bound with old | new
    · rw [(created.old p old).1]
      exact sound.canary p old
    · rw [new]
      exact created.canary
  · intro p bound
    rcases split p bound with old | new
    · rw [(created.old p old).2.1]
      exact sound.steady p old
    · rw [new,created.state]
      decide
  · rw [created.sem]
    exact sound.magic
  · refine ⟨w,waits_frame waits (by rw [created.count]; exact Nat.le_succ _) ?_ ?_ fun s => by rw [created.sem]⟩
    · intro p old
      rw [(created.old p old).2.1]
      exact ⟨(created.old p old).2.2.2.2,Iff.rfl⟩
    · intro p bound new
      rcases split p bound with old | equal
      · exact absurd old (Nat.not_lt.mpr new)
      · rw [equal,created.state]
        decide
  · intro d p own ready away
    rcases (created.owns d p).mp own with old | ⟨_,new⟩
    · rw [(created.old p old.1).2.1] at ready
      rw [(created.old p old.1).2.2.1]
      exact sound.parked d p old ready fun here => away (created.current d p here)
    · rw [new,created.state] at ready
      cases ready
  · rw [created.first,created.cpu]
    exact sound.opening

theorem NewCtx.others (created : NewCtx k t c) (settled : Settled k d) (apart : d ≠ c) : Settled t d := by
  have owns : ∀ p, t.Owns d p ↔ k.Owns d p := by
    intro p
    rw [created.owns d p]
    constructor
    · intro own
      exact own.resolve_right fun both => apart both.1
    · exact .inl
  refine settled_frame settled (created.other d apart) (congrFun created.cpu d) owns ?_
  intro p own
  rw [(created.old p own.1).2.1]
  exact ⟨created.links d p apart own,Iff.rfl,fun _ => rfl⟩

theorem founded_created (none : k.currentCtx c = none) : NewCtx k (k.founded c f) c := by
  have old : ∀ x, x < k.count → (k.founded c f).ctx x = k.ctx x := by
    intro x bound
    simp [Kernel.founded,Nat.ne_of_lt bound]
  constructor
  · rfl
  · rfl
  · rfl
  · rfl
  · intro d x current
    have apart : d ≠ c := by
      intro equal
      rw [equal,none] at current
      cases current
    simpa [Kernel.founded,apart] using current
  · intro d apart
    simp [Kernel.founded,apart]
  · intro x bound
    rw [old x bound]
    exact ⟨rfl,rfl,rfl,rfl,rfl⟩
  · intro d x _ own
    unfold Kernel.next
    rw [old x own.1]
  · simp [Kernel.founded]
  · simp [Kernel.founded]
  · simp [Kernel.founded]

theorem joined_created (own : k.Owns c q) : NewCtx k (k.joined c q f) c := by
  have apart := Nat.ne_of_lt own.1
  have old : ∀ x, x < k.count → x ≠ q → (k.joined c q f).ctx x = k.ctx x := by
    intro x bound other
    simp [Kernel.joined,Nat.ne_of_lt bound,other]
  constructor
  · rfl
  · rfl
  · rfl
  · rfl
  · intro d x current
    exact current
  · intro d _
    rfl
  · intro x bound
    by_cases equal : x = q
    · subst equal
      simp [Kernel.joined]
    · rw [old x bound equal]
      exact ⟨rfl,rfl,rfl,rfl,rfl⟩
  · intro d x different owned
    unfold Kernel.next
    rw [old x owned.1 (owns_ne own owned different)]
  · simp [Kernel.joined,Ne.symm apart]
  · simp [Kernel.joined,Ne.symm apart]
  · simp [Kernel.joined,Ne.symm apart]

theorem orderly_founded (orderly : Orderly k) (none : k.currentCtx c = none) : Orderly (k.founded c f) := by
  have created := founded_created (f := f) none
  refine ⟨created.sound orderly.sound,fun d => ?_⟩
  by_cases here : d = c
  · subst here
    rcases orderly.settled d with ⟨_,idle,empty⟩ | ⟨q,turn,_⟩
    · refine .inr ⟨k.count,turn_of_around (l := []) (by simp [Kernel.founded]) ?_ ?_ ?_,.inr ⟨created.state,idle⟩⟩
      · exact (created.owns d k.count).mpr (.inr ⟨rfl,rfl⟩)
      · refine circular_single.mpr ?_
        simp [Kernel.next,Kernel.founded]
      · intro p
        rw [created.alive d p,List.mem_singleton]
        constructor
        · intro equal
          exact .inr ⟨rfl,equal⟩
        · intro alive
          rcases alive with old | ⟨_,new⟩
          · exact absurd old (empty p)
          · exact new
    · rw [turn.current] at none
      cases none
  · exact created.others (orderly.settled d) here

theorem orderly_joined (orderly : Orderly k) (current : k.currentCtx c = some q) (own : k.Owns c q) : Orderly (k.joined c q f) := by
  have created := joined_created (f := f) own
  refine ⟨created.sound orderly.sound,fun d => ?_⟩
  by_cases here : d = c
  · subst here
    rcases orderly.settled d with ⟨none,_,_⟩ | ⟨p,turn,on⟩
    · rw [none] at current
      cases current
    · have equal : p = q := by
        rw [turn.current] at current
        exact Option.some.inj current
      subst equal
      obtain ⟨l,ring,members⟩ := turn.around (on.alive own)
      have fresh : k.count ∉ p :: l := by
        intro member
        exact Nat.lt_irrefl _ ((members k.count).mp member).1.1
      have new : (k.joined d p f).next p = k.count := by simp [Kernel.next,Kernel.joined]
      have behind : (k.joined d p f).next k.count = k.next p := by
        simp [Kernel.next,Kernel.joined,Ne.symm (Nat.ne_of_lt own.1)]
      have longer : Circular (k.joined d p f).next (p :: k.count :: l) := by
        refine circular_insert ring fresh new behind ?_
        intro x member
        have alive := (members x).mp (List.mem_cons_of_mem p member)
        have other : x ≠ p := fun equal => (List.nodup_cons.mp ring.nodup).1 (equal ▸ member)
        simp [Kernel.next,Kernel.joined,other,Nat.ne_of_lt alive.1.1]
      refine .inr ⟨p,turn_of_around current ((created.owns d p).mpr (.inl own)) longer ?_,?_⟩
      · intro x
        rw [created.alive d x,← members x,List.mem_cons,List.mem_cons,List.mem_cons]
        constructor
        · intro member
          rcases member with first | second | rest
          · exact .inl (.inl first)
          · exact .inr ⟨rfl,second⟩
          · exact .inl (.inr rest)
        · intro member
          rcases member with (first | rest) | ⟨_,second⟩
          · exact .inl first
          · exact .inr (.inr rest)
          · exact .inr (.inl second)
      · unfold OnCpu
        rw [(created.old p own.1).2.1,created.cpu]
        exact on
  · exact created.others (orderly.settled d) here

-- In an operation that gives the processor away only its own core is unsettled.
structure Pending (k : Kernel) (c q : Nat) : Prop where
  sound : Intact k
  turn : Turn k c q
  others : ∀ d, d ≠ c → Settled k d

theorem Orderly.pending (orderly : Orderly k) (current : k.currentCtx c = some q) : Pending k c q ∧ OnCpu k c q := by
  rcases orderly.settled c with ⟨none,_,_⟩ | ⟨p,turn,on⟩
  · rw [none] at current
    cases current
  · have equal : p = q := by
      rw [turn.current] at current
      exact Option.some.inj current
    subst equal
    exact ⟨⟨orderly.sound,turn,fun d _ => orderly.settled d⟩,on⟩

-- A context at the head of a waiting list.
theorem waits_blocked (waits : Waits k w) (bound : q < k.count) (free : (k.ctx q).state ≠ .blocked) :
    Waits (k.blockedIn c q s) (Function.update w s (q :: w s)) := by
  have fresh : ∀ r, q ∉ w r := fun r member => free (waits.blocked r q member).2
  have old : ∀ x, x ≠ q → (k.blockedIn c q s).ctx x = k.ctx x := by
    intro x other
    simp [Kernel.blockedIn,other]
  have new : ((k.blockedIn c q s).ctx q).state = .blocked := by simp [Kernel.blockedIn]
  have members : ∀ r x, x ∈ Function.update w s (q :: w s) r ↔ x ∈ w r ∨ x = q ∧ r = s := by
    intro r x
    by_cases here : r = s
    · subst here
      rw [Function.update_self,List.mem_cons]
      constructor
      · intro member
        rcases member with first | rest
        · exact .inr ⟨first,rfl⟩
        · exact .inl rest
      · intro member
        rcases member with rest | ⟨first,_⟩
        · exact .inr rest
        · exact .inl first
    · rw [Function.update_of_ne here]
      constructor
      · exact .inl
      · intro member
        exact member.resolve_right fun both => here both.2
  have tail : ∀ r, Linked (k.blockedIn c q s).link none (k.sem r).semCtxBlocked ((w r).map some) := by
    intro r
    refine linked_congr (waits.list r) ?_
    intro o member
    obtain ⟨x,inside,equal⟩ := List.mem_map.mp member
    subst equal
    have other : x ≠ q := fun equal => fresh r (equal ▸ inside)
    exact congrArg Ctx.nextSemaphoreContext (old x other)
  constructor
  · intro r
    by_cases here : r = s
    · subst here
      have head : ((k.blockedIn c q r).sem r).semCtxBlocked = some q := by simp [Kernel.blockedIn]
      have next : (k.blockedIn c q r).link (some q) = (k.sem r).semCtxBlocked := by simp [Kernel.link,Kernel.blockedIn]
      rw [head,Function.update_self]
      refine ⟨rfl,by simp,?_⟩
      rw [next]
      exact tail r
    · have head : ((k.blockedIn c q s).sem r).semCtxBlocked = (k.sem r).semCtxBlocked := by simp [Kernel.blockedIn,here]
      rw [head,Function.update_of_ne here]
      exact tail r
  · intro r x member
    rcases (members r x).mp member with inside | ⟨equal,_⟩
    · obtain ⟨below,blocked⟩ := waits.blocked r x inside
      have other : x ≠ q := fun equal => fresh r (equal ▸ inside)
      refine ⟨below,?_⟩
      rw [old x other]
      exact blocked
    · subst equal
      exact ⟨bound,new⟩
  · intro x below blocked
    by_cases equal : x = q
    · exact ⟨s,(members s x).mpr (.inr ⟨equal,rfl⟩)⟩
    · rw [old x equal] at blocked
      obtain ⟨r,inside⟩ := waits.listed x below blocked
      exact ⟨r,(members r x).mpr (.inl inside)⟩
  · intro r r' x one two
    rcases (members r x).mp one with inside | ⟨equal,here⟩
    · rcases (members r' x).mp two with again | ⟨equal,_⟩
      · exact waits.once r r' x inside again
      · exact absurd (equal ▸ inside) (fresh r)
    · rcases (members r' x).mp two with again | ⟨_,there⟩
      · exact absurd (equal ▸ again) (fresh r')
      · rw [here,there]

theorem pending_blocked (orderly : Orderly k) (current : k.currentCtx c = some q) :
    Pending (k.blockedIn c q s) c q ∧ ((k.blockedIn c q s).ctx q).state = .blocked := by
  obtain ⟨⟨sound,turn,others⟩,on⟩ := orderly.pending current
  obtain ⟨w,waits⟩ := sound.queued
  have old : ∀ x, x ≠ q → (k.blockedIn c q s).ctx x = k.ctx x := by
    intro x other
    simp [Kernel.blockedIn,other]
  have fields : ∀ x, ((k.blockedIn c q s).ctx x).canary = (k.ctx x).canary ∧ ((k.blockedIn c q s).ctx x).home = (k.ctx x).home ∧
      ((k.blockedIn c q s).ctx x).next = (k.ctx x).next := by
    intro x
    by_cases equal : x = q
    · subst equal
      simp [Kernel.blockedIn]
    · rw [old x equal]
      exact ⟨rfl,rfl,rfl⟩
  have new : ((k.blockedIn c q s).ctx q).state = .blocked := by simp [Kernel.blockedIn]
  have owns : ∀ d x, (k.blockedIn c q s).Owns d x ↔ k.Owns d x := by
    intro d x
    unfold Kernel.Owns
    rw [(fields x).2.1]
    exact Iff.rfl
  refine ⟨⟨⟨?_,?_,?_,⟨_,waits_blocked waits turn.owns.1 on.state.1⟩,?_,?_⟩,?_,?_⟩,new⟩
  · intro x bound
    rw [(fields x).1]
    exact sound.canary x bound
  · intro x bound
    by_cases equal : x = q
    · rw [equal,new]
      decide
    · rw [old x equal]
      exact sound.steady x bound
  · intro r
    by_cases here : r = s
    · subst here
      simpa [Kernel.blockedIn] using sound.magic r
    · simpa [Kernel.blockedIn,here] using sound.magic r
  · intro d x own ready away
    have other : x ≠ q := by
      intro equal
      rw [equal,new] at ready
      cases ready
    rw [old x other] at ready ⊢
    exact sound.parked d x ((owns d x).mp own) ready away
  · intro first d
    have idle := sound.opening first
    by_cases here : d = c
    · subst here
      simp [Kernel.blockedIn,waitIn,idle d]
    · simpa [Kernel.blockedIn,here] using idle d
  · refine turn_frame turn rfl (owns c) fun x _ => ⟨(fields x).2.2,?_⟩
    by_cases equal : x = q
    · rw [equal,new]
      constructor
      · intro ended
        cases ended
      · intro ended
        exact absurd ended on.state.2
    · rw [old x equal]
  · intro d apart
    refine settled_frame (others d apart) rfl (by simp [Kernel.blockedIn,apart]) (owns d) ?_
    intro x own
    have other := owns_ne turn.owns own apart
    unfold Kernel.next
    rw [old x other]
    exact ⟨rfl,Iff.rfl,fun _ => rfl⟩

-- A context that returns: `q` has ended, and `z` led to it.
section ended
variable (apart : z ≠ q)
include apart

theorem ended_kept (x : Nat) : (((k.popped c q rest).unlinked q z).ctx x).canary = (k.ctx x).canary ∧
    (((k.popped c q rest).unlinked q z).ctx x).home = (k.ctx x).home ∧ (((k.popped c q rest).unlinked q z).ctx x).esp = (k.ctx x).esp ∧
    (((k.popped c q rest).unlinked q z).ctx x).nextSemaphoreContext = (k.ctx x).nextSemaphoreContext := by
  by_cases here : x = q
  · subst here
    simp [Kernel.unlinked,Kernel.popped,Ne.symm apart]
  · by_cases there : x = z
    · subst there
      simp [Kernel.unlinked,Kernel.popped,here]
    · simp [Kernel.unlinked,Kernel.popped,here,there]

theorem ended_state (x : Nat) :
    (((k.popped c q rest).unlinked q z).ctx x).state = if x = q then .terminated else (k.ctx x).state := by
  by_cases here : x = q
  · subst here
    simp [Kernel.unlinked,Kernel.popped,Ne.symm apart]
  · by_cases there : x = z
    · subst there
      simp [Kernel.unlinked,Kernel.popped,here]
    · simp [Kernel.unlinked,Kernel.popped,here,there]

theorem ended_next (x : Nat) : ((k.popped c q rest).unlinked q z).next x = if x = z then k.next q else k.next x := by
  by_cases here : x = q
  · subst here
    simp [Kernel.unlinked,Kernel.popped,Kernel.next,Ne.symm apart]
  · by_cases there : x = z
    · subst there
      simp [Kernel.unlinked,Kernel.popped,Kernel.next,here]
    · simp [Kernel.unlinked,Kernel.popped,Kernel.next,here,there]

theorem ended_owns (d x : Nat) : ((k.popped c q rest).unlinked q z).Owns d x ↔ k.Owns d x := by
  unfold Kernel.Owns
  rw [(ended_kept apart x).2.1]
  exact Iff.rfl

theorem ended_alive (p : Nat) : ((k.popped c q rest).unlinked q z).Alive d p ↔ k.Alive d p ∧ p ≠ q := by
  unfold Kernel.Alive
  rw [ended_owns apart d p,ended_state apart p]
  by_cases here : p = q
  · simp [here]
  · simp [here]

theorem ended_intact (sound : Intact k) (ready : (k.ctx q).state = .ready) (top : k.cpu c = call :: rest) :
    Intact ((k.popped c q rest).unlinked q z) := by
  obtain ⟨w,waits⟩ := sound.queued
  refine ⟨?_,?_,sound.magic,⟨w,?_⟩,?_,?_⟩
  · intro x bound
    rw [(ended_kept apart x).1]
    exact sound.canary x bound
  · intro x bound
    rw [ended_state apart x]
    split
    · decide
    · exact sound.steady x bound
  · refine waits_frame waits (Nat.le_refl _) ?_ (fun x bound old => absurd bound (Nat.not_lt.mpr old)) fun s => rfl
    intro x _
    refine ⟨(ended_kept apart x).2.2.2,?_⟩
    rw [ended_state apart x]
    split
    · rename_i here
      rw [here,ready]
      decide
    · exact Iff.rfl
  · intro d x own parked away
    rw [ended_state apart x] at parked
    rw [(ended_kept apart x).2.2.1]
    split at parked
    · cases parked
    · exact sound.parked d x ((ended_owns apart d x).mp own) parked away
  · intro begun
    have idle := sound.opening begun c
    rw [top] at idle
    cases idle

theorem ended_ring {l : List Nat} (ring : Circular k.next (q :: (l ++ [z]))) :
    Circular ((k.popped c q rest).unlinked q z).next (l ++ [z]) ∧
      (l ++ [z]).head? = some (((k.popped c q rest).unlinked q z).next q) := by
  obtain ⟨_,nodup⟩ := List.nodup_cons.mp ring.nodup
  have same : ∀ x ∈ l, ((k.popped c q rest).unlinked q z).next x = k.next x := by
    intro x member
    have other : x ≠ z := fun here =>
      (List.nodup_append.mp nodup).2.2 x member z (List.mem_singleton.mpr rfl) here
    rw [ended_next apart,if_neg other]
  have last : ((k.popped c q rest).unlinked q z).next z = k.next q := by rw [ended_next apart,if_pos rfl]
  obtain ⟨shorter,head⟩ := circular_cut ring last same
  refine ⟨shorter,?_⟩
  rw [head,ended_next apart,if_neg (Ne.symm apart)]

end ended

-- It leaves the ring.
theorem pending_ended {l : List Nat} (orderly : Orderly k) (top : k.cpu c = call :: rest) (ring : Circular k.next (call.owner :: (l ++ [z])))
    (members : ∀ p, p ∈ call.owner :: (l ++ [z]) ↔ k.Alive c p) :
    Pending ((k.popped c call.owner rest).unlinked call.owner z) c call.owner ∧
      (((k.popped c call.owner rest).unlinked call.owner z).ctx call.owner).state = .terminated := by
  obtain ⟨turn,ready,_⟩ := orderly.running top
  obtain ⟨first,_⟩ := List.nodup_cons.mp ring.nodup
  have apart : z ≠ call.owner := circular_apart ring
  have zed : k.Alive c z := (members z).mp (by simp)
  obtain ⟨shorter,head⟩ : Circular ((k.popped c call.owner rest).unlinked call.owner z).next (l ++ [z]) ∧
      (l ++ [z]).head? = some (((k.popped c call.owner rest).unlinked call.owner z).next call.owner) := ended_ring apart ring
  refine ⟨⟨ended_intact apart orderly.sound ready top,⟨turn.current,(ended_owns apart c _).mpr turn.owns,l ++ [z],shorter,head,?_⟩,?_⟩,?_⟩
  · intro p
    rw [ended_alive apart p,← members p,List.mem_cons]
    constructor
    · intro member
      refine ⟨.inr member,?_⟩
      intro here
      exact first (here ▸ member)
    · intro both
      exact both.1.resolve_left both.2
  · intro d other
    have cpu : ((k.popped c call.owner rest).unlinked call.owner z).cpu d = k.cpu d := by simp [Kernel.unlinked,Kernel.popped,other]
    refine settled_frame (orderly.settled d) rfl cpu (ended_owns apart d) ?_
    intro x own
    have far := owns_ne turn.owns own other
    have further := owns_ne zed.1 own other
    rw [ended_next apart,if_neg further,ended_state apart,if_neg far]
    exact ⟨rfl,Iff.rfl,fun _ => rfl⟩
  · rw [ended_state apart,if_pos rfl]

end AsePlusPlus
