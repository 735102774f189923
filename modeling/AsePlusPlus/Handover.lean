import Mathlib.Data.List.Find
import AsePlusPlus.Schedule

namespace AsePlusPlus
open Words Program Chain Ring

variable {k t u : Kernel} {c core p q s x z : Nat} {l cells : List Nat} {call : Call} {rest : List Call} {e : Event}

-- Contexts whose links stay, and of which none begins to wait.
def SameLinks (f g : Nat → Ctx) : Prop := ∀ x, (g x).next = (f x).next ∧ ((g x).state = .blocked → (f x).state = .blocked)

variable {f g h : Nat → Ctx} {v : Ctx}

theorem SameLinks.trans (one : SameLinks f g) (two : SameLinks g h) : SameLinks f h :=
  fun x => ⟨(two x).1.trans (one x).1,(one x).2 ∘ (two x).2⟩

theorem spares_update (next : v.next = (f x).next) (state : v.state = .blocked → (f x).state = .blocked) :
    SameLinks f (Function.update f x v) := by
  intro y
  by_cases here : y = x
  · subst here
    rw [Function.update_self]
    exact ⟨next,state⟩
  · rw [Function.update_of_ne here]
    exact ⟨rfl,id⟩

theorem resume_keeps : Returns (resume core) k fun _ t =>
    t.currentCtx = k.currentCtx ∧ t.firstContext = k.firstContext ∧ t.count = k.count ∧ t.ctx = k.ctx := by
  unfold Returns resume
  rw [runs_modify]
  cases k.cpu core with
  | nil => exact ⟨rfl,rfl,rfl,rfl⟩
  | cons call rest =>
      dsimp only
      cases call.inside with
      | none => exact ⟨rfl,rfl,rfl,rfl⟩
      | some s => exact ⟨rfl,rfl,rfl,rfl⟩

-- A switch makes `x` the current context, and it has begun.
theorem switch_spares (core : Nat) (current : k.currentCtx k.currentCore = some q) : Runs (switchToCtx core x) k (fun _ t =>
    t.currentCtx k.currentCore = some x ∧ t.firstContext = k.firstContext ∧ t.count = k.count ∧ SameLinks k.ctx t.ctx ∧
      (t.ctx x).state ≠ .activable) (fun _ _ => True) := by
  have saved : SameLinks k.ctx (Function.update k.ctx q {k.ctx q with esp := k.cpu core}) := spares_update rfl id
  simp only [switchToCtx,runs_bind,runs_get,runs_readCurrent,current,writeCtx,runs_modify,Kernel.log,runs_readCtx,runs_ensure,
    writeCurrent,runs_ite,List.cons_append,List.nil_append]
  split
  · split
    · split
      · refine ⟨Function.update_self ..,trivial,trivial,saved.trans (spares_update rfl (by simp)),?_⟩
        rw [Function.update_self]
        simp
      · rename_i begun
        refine Runs.of_returns resume_keeps ?_
        intro _ t post
        obtain ⟨now,first,count,ctx⟩ := post
        rw [now,ctx]
        exact ⟨Function.update_self ..,first,count,saved,begun⟩
    · trivial
  · trivial

-- yield has given the processor to the first context of `line` that is not
-- blocked, or started the context that is current already.
def Follows (k : Kernel) (c q : Nat) (line : List Nat) (t : Kernel) : Prop := ∃ p, t.currentCtx c = some p ∧
  (k.firstContext = true → p = q) ∧ (k.firstContext = false → line.find? (fun x => (k.ctx x).state ≠ .blocked) = some p) ∧
  (k.firstContext = true ∨ p ≠ q → (t.ctx p).state ≠ .activable)

theorem Follows.same (follows : Follows u c q cells t) (first : u.firstContext = k.firstContext)
    (state : ∀ x, (u.ctx x).state = (k.ctx x).state) : Follows k c q cells t := by
  unfold Follows at follows ⊢
  rw [first] at follows
  simpa only [state] using follows

theorem Follows.resumed (follows : Follows k c q cells t) (current : u.currentCtx = t.currentCtx) (ctx : u.ctx = t.ctx) : Follows k c q cells u := by
  unfold Follows at follows ⊢
  rwa [current,ctx]

-- The search of yield, on a ring that `q` leads into.
theorem yield_follows (home : k.currentCore = c) (current : k.currentCtx c = some q) (ring : Circular k.next cells)
    (head : cells.head? = some (k.next q)) (bound : cells.length ≤ k.count) :
    Runs (yieldCtx c) k (fun _ t => Follows k c q cells t) (fun _ _ => True) := by
  subst home
  simp only [yieldCtx,runs_bind,runs_get,runs_readCurrent,current,runs_ite,runs_modify,runs_pure]
  by_cases first : k.firstContext = true
  · rw [if_pos first]
    refine (switch_spares (k := (k.log _).opened) _ current).mono ?_ (fun _ _ _ => trivial)
    intro _ t post
    obtain ⟨now,_,_,_,begun⟩ := post
    exact ⟨q,now,fun _ => rfl,fun other => (by rw [first] at other; cases other),fun _ => begun⟩
  · rw [if_neg first,runs_readCtx]
    by_cases free : ∃ p ∈ cells, (k.ctx p).state ≠ .blocked
    · obtain ⟨before,p,after,rfl,blocked,runnable⟩ := first_of free
      have stuck : ∀ x ∈ before, (k.ctx x).state = .blocked := fun x member => Decidable.not_not.mp (blocked x member)
      have fuel : before.length < k.count := by
        simp only [List.length_append,List.length_cons] at bound
        omega
      have turn : (before ++ p :: after).find? (fun x => (k.ctx x).state ≠ .blocked) = some p := by
        rw [List.find?_append,List.find?_eq_none.mpr (by simpa using stuck),Option.none_or,List.find?_cons_of_pos (by simpa using runnable)]
      obtain ⟨met,_,found⟩ := seekRunnable_finds (k := (k.log [.current k.currentCore]).log [.ctx q]) (circular_until ring head) stuck runnable fuel
      refine (runs_eq found).mpr ?_
      by_cases other : p = q
      · subst other
        rw [if_neg (not_not.mpr rfl)]
        exact ⟨p,current,fun _ => rfl,fun _ => turn,fun gone => (gone.resolve_left first).elim rfl⟩
      · rw [if_pos other]
        refine (switch_spares (k := ((k.log _).log _).log _) _ current).mono ?_ (fun _ _ _ => trivial)
        intro _ t post
        obtain ⟨now,_,_,_,begun⟩ := post
        exact ⟨p,now,fun opening => absurd opening first,fun _ => turn,fun _ => begun⟩
    · have stuck : ∀ x ∈ cells, (k.ctx x).state = .blocked := by
        intro x member
        by_contra runnable
        exact free ⟨x,member,runnable⟩
      obtain ⟨met,_,spins⟩ := seekRunnable_spins (k := (k.log [.current k.currentCore]).log [.ctx q]) (n := k.count)
        (fun x member => circular_closed ring member) stuck (List.mem_of_mem_head? head)
      exact (runs_error spins).mpr trivial

theorem resumed_follows {b : Bool} (follows : Follows k c q cells t) :
    Runs (if b = true then pure () else resume c) t (fun _ u => Follows k c q cells u) (fun _ _ => True) := by
  cases b with
  | true => exact follows
  | false =>
      refine Runs.of_returns resume_keeps ?_
      intro _ u post
      exact follows.resumed post.1 post.2.2.2

-- The contexts that yield tries in turn behind an operation of `q`, where the ring
-- is `q :: l`: one that blocks has left them.
def Op.line (q : Nat) (l : List Nat) : Op → List Nat
  | .down _ => l
  | _ => l ++ [q]

section ring
variable (home : k.currentCore = c) (current : k.currentCtx c = some q) (ring : Circular k.next (q :: l)) (bound : l.length < k.count)
include home current ring bound

theorem turn_follows (same : u.ctx = k.ctx) (core : u.currentCore = k.currentCore) (now : u.currentCtx = k.currentCtx) (count : u.count = k.count)
    (first : u.firstContext = k.firstContext) : Runs (yieldCtx c) u (fun _ t => Follows k c q (l ++ [q]) t) (fun _ _ => True) := by
  obtain ⟨turned,head⟩ := circular_turn ring
  have next : u.next = k.next := by
    unfold Kernel.next
    rw [same]
  have fits : (l ++ [q]).length ≤ u.count := by
    rw [count,List.length_append,List.length_singleton]
    exact bound
  refine (yield_follows (core.trans home) (by rw [now]; exact current) (by rw [next]; exact turned) (by rw [next]; exact head) fits).mono ?_
    (fun _ _ => id)
  intro _ t follows
  exact follows.same first fun x => by rw [same]

theorem semDown_follows (blocks : ¬ 0 < (k.sem s).semCompteur.toInt) :
    Runs (semDown c s) k (fun _ t => Follows k c q l t) (fun _ _ => True) := by
  have fresh := (List.nodup_cons.mp ring.nodup).1
  simp only [semDown,runs_bind,runs_get,runs_ensure]
  split
  · simp only [runs_bind,runs_readCurrent,current,writeCtx,runs_modify]
    have state : ∀ x, ((k.blockedIn c q s).ctx x).state = if x = q then .blocked else (k.ctx x).state := by
      intro x
      by_cases here : x = q
      · subst here
        simp [Kernel.blockedIn]
      · simp [Kernel.blockedIn,here]
    have next : (k.blockedIn c q s).next = k.next := by
      funext x
      by_cases here : x = q
      · subst here
        simp [Kernel.blockedIn,Kernel.next]
      · simp [Kernel.blockedIn,Kernel.next,here]
    have around : Circular ((k.blockedIn c q s).log [.ctx q,.ctx q,.current c]).next (q :: l) := by
      have equal : ((k.blockedIn c q s).log [.ctx q,.ctx q,.current c]).next = k.next := next
      rwa [equal]
    have yielded := turn_follows (k := (k.blockedIn c q s).log [.ctx q,.ctx q,.current c]) home current around bound rfl rfl rfl rfl rfl
    have left : ∀ t, Follows ((k.blockedIn c q s).log [.ctx q,.ctx q,.current c]) c q (l ++ [q]) t → Follows k c q l t := by
      intro t follows
      obtain ⟨p,now,opens,found,begun⟩ := follows
      refine ⟨p,now,opens,fun first => ?_,begun⟩
      have found := found first
      have same : ∀ x ∈ l, (decide (((k.blockedIn c q s).ctx x).state ≠ .blocked)) = decide ((k.ctx x).state ≠ .blocked) := by
        intro x member
        have away : x ≠ q := fun here => fresh (here ▸ member)
        rw [state x,if_neg away]
      have last : [q].find? (fun x => ((k.blockedIn c q s).ctx x).state ≠ .blocked) = none := by
        simp [state q]
      have shown : (l ++ [q]).find? (fun x => ((k.blockedIn c q s).ctx x).state ≠ .blocked) = some p := found
      rw [List.find?_append,last,Option.or_none,List.find?_congr same] at shown
      exact shown
    simp only [Kernel.blockedIn,Kernel.log,Function.update_self,Function.update_idem,List.cons_append,List.nil_append] at yielded left ⊢
    refine yielded.mono ?_ (fun _ _ _ => trivial)
    intro away t follows
    exact resumed_follows (left t follows)
  · trivial

theorem semUp_follows (yields : (Op.up s).Yields k) : Runs (semUp c s) k (fun _ t => Follows k c q (l ++ [q]) t) (fun _ _ => True) := by
  have yielded : Runs (do let _ ← yieldCtx c) (k.freed c s) (fun _ t => Follows k c q (l ++ [q]) t) (fun _ _ => True) := by
    rw [runs_bind]
    exact turn_follows (u := k.freed c s) home current ring bound rfl rfl rfl rfl rfl
  unfold Kernel.freed at yielded
  dsimp only at yielded
  simp only [semUp,runs_bind,runs_get,runs_ensure,runs_modify,Function.update_self]
  split
  · cases head : (k.sem s).semCtxBlocked with
    | none =>
        rw [head] at yielded
        exact yielded
    | some p =>
        have short : ¬ 1 ≤ ((k.sem s).semCompteur+1).toInt := yields.resolve_left (by rw [head]; simp)
        rw [head] at yielded
        rw [runs_ite,if_neg short]
        exact yielded
  · trivial

theorem perform_follows {op : Op} (yields : op.Yields k) :
    Runs (perform c op) k (fun _ t => Follows k c q (op.line q l) t) (fun _ _ => True) := by
  cases op with
  | down s => exact semDown_follows home current ring bound yields
  | up s => exact semUp_follows home current ring bound yields
  | yield =>
      rw [perform,runs_bind]
      exact turn_follows home current ring bound rfl rfl rfl rfl rfl
  | create f => exact yields.elim

-- A function returns: the search begins behind its context, which has left.
theorem returned_follows :
    Runs (returned c) {k with cpu := Function.update k.cpu c rest} (fun _ t => Follows k c q l t) (fun _ _ => True) := by
  rw [returned_unfolds home current,runs_bind]
  have nodup := List.nodup_cons.mp ring.nodup
  have kept : ∀ x, (k.popped c q rest).next x = k.next x := fun x => (popped_kept x).2
  rcases List.eq_nil_or_concat l with empty | ⟨before,z,longer⟩
  · subst empty
    have loop : (k.popped c q rest).next q = q := (kept q).trans (circular_single.mp ring)
    obtain ⟨_,_,exits⟩ := deleteCtx_alone (u := (k.popped c q rest).log [.ctx q,.current c]) home current loop
      (Nat.lt_of_le_of_lt (Nat.zero_le _) bound)
    exact (runs_error exits).mpr trivial
  · rw [List.concat_eq_append] at longer
    subst longer
    have apart : z ≠ q := circular_apart ring
    have around : Circular (k.popped c q rest).next (q :: (before ++ [z])) := circular_congr ring fun x _ => kept x
    have short : before.length+1 < k.count := by simpa using bound
    obtain ⟨met,_,unlinks⟩ := deleteCtx_unlinks (u := (k.popped c q rest).log [.ctx q,.current c]) home current around short
    rw [runs_eq unlinks,runs_bind]
    obtain ⟨shorter,head⟩ : Circular ((k.popped c q rest).unlinked q z).next (before ++ [z]) ∧
        (before ++ [z]).head? = some (((k.popped c q rest).unlinked q z).next q) := ended_ring apart ring
    refine (yield_follows (k := (((k.popped c q rest).log [.ctx q,.current c]).unlinked q z).log met) home current shorter head
      (Nat.le_of_lt bound)).mono ?_ (fun _ _ => id)
    intro away t follows
    obtain ⟨p,now,opens,found,begins⟩ := follows
    refine resumed_follows ⟨p,now,opens,fun first => ?_,begins⟩
    have found : (before ++ [z]).find? (fun x => (((k.popped c q rest).unlinked q z).ctx x).state ≠ .blocked) = some p := found first
    have same : ∀ x ∈ before ++ [z], decide ((((k.popped c q rest).unlinked q z).ctx x).state ≠ .blocked) = decide ((k.ctx x).state ≠ .blocked) := by
      intro x member
      have other : x ≠ q := fun here => nodup.1 (here ▸ member)
      rw [ended_state apart,if_neg other]
    rwa [List.find?_congr same] at found

end ring

-- An operation that does not come to yield leaves the current context.
theorem perform_stays {op : Op} (current : k.currentCtx c = some q) (created : q < k.count) (stays : ¬ op.Yields k) :
    Runs (perform c op) k (fun _ t => t.currentCtx c = some q) (fun _ _ => True) := by
  cases op with
  | down s =>
      have free : 0 < (k.sem s).semCompteur.toInt := Decidable.not_not.mp stays
      simp only [perform,semDown,runs_bind,runs_get,runs_ensure]
      split
      · exact current
      · trivial
  | up s =>
      simp only [Op.Yields,not_or] at stays
      obtain ⟨waits,up⟩ := stays
      simp only [perform,semUp,runs_bind,runs_get,runs_ensure,runs_modify,Function.update_self]
      split
      · cases head : (k.sem s).semCtxBlocked with
        | none => exact absurd head waits
        | some p =>
            dsimp only
            rw [runs_ite,if_pos (Decidable.not_not.mp up)]
            simp only [runs_bind,runs_modify,writeCtx,runs_readCtx]
            exact current
      · trivial
  | yield => exact absurd trivial stays
  | create f =>
      rw [perform,runs_bind,runs_eq (createCtx_some current created)]
      exact current

-- The same for an operation of a running context, the timer or the code that has
-- booted the core.
def Event.line (k : Kernel) (e : Event) (q : Nat) (l : List Nat) : List Nat :=
  match e.op k with
  | none => l
  | some op => op.line q l

theorem act_follows (orderly : Orderly k) (current : k.currentCtx e.core = some q) (ring : Circular k.next (q :: l))
    (bound : l.length < k.count) (home : e.Yields k → k.currentCore = e.core) (enabled : e.Enabled k) :
    Runs e.act k (fun _ t => (e.Yields k → Follows k e.core q (e.line k q l) t) ∧ (¬ e.Yields k → t.currentCtx e.core = some q))
      (fun _ _ => True) := by
  have created : q < k.count := orderly.created current
  have issues : ∀ op, e.op k = some op → (e.Yields k ↔ op.Yields k) := by
    intro op issued
    constructor
    · exact fun yields => yields op issued
    · intro yields op' again
      rw [issued] at again
      cases again
      exact yields
  -- an operation, of the code that has booted the core or of a context
  have performs : ∀ op u, e.op k = some op → u.ctx = k.ctx → u.currentCore = k.currentCore → u.currentCtx = k.currentCtx →
      u.count = k.count → u.firstContext = k.firstContext → (op.Yields u ↔ op.Yields k) →
      Runs (perform e.core op) u (fun _ t => (e.Yields k → Follows k e.core q (e.line k q l) t) ∧ (¬ e.Yields k → t.currentCtx e.core = some q))
        (fun _ _ => True) := by
    intro op u issued ctx core now count first same
    have next : u.next = k.next := by
      unfold Kernel.next
      rw [ctx]
    have line : e.line k q l = op.line q l := by
      unfold Event.line
      rw [issued]
    rw [line,issues op issued]
    by_cases yields : op.Yields k
    · refine (perform_follows (core.trans (home ((issues op issued).mpr yields))) (by rw [now]; exact current) (by rw [next]; exact ring)
        (by rw [count]; exact bound) (same.mpr yields)).mono ?_ (fun _ _ => id)
      intro _ t follows
      exact ⟨fun _ => follows.same first fun x => by rw [ctx],fun stays => absurd yields stays⟩
    · refine (perform_stays (by rw [now]; exact current) (by rw [count]; exact created) fun later => yields (same.mp later)).mono ?_ (fun _ _ => id)
      intro _ t stays
      exact ⟨fun later => absurd later yields,fun _ => stays⟩
  cases e with
  | timer c =>
      have performed := performs .yield k rfl rfl rfl rfl rfl rfl Iff.rfl
      exact performed
  | boot c op => exact performs op k rfl rfl rfl rfl rfl rfl Iff.rfl
  | run c =>
      have busy : k.cpu c ≠ [] := enabled
      cases top : k.cpu c with
      | nil => exact absurd top busy
      | cons call rest =>
          have op : (Event.run c).op k = (k.ctx call.owner).function call.entry call.pc := by
            simp only [Event.op,top]
          show Runs (runNext c) k _ _
          unfold runNext
          simp only [runs_bind,runs_get,top]
          cases function : (k.ctx call.owner).function call.entry call.pc with
          | some op' =>
              rw [function] at op
              rw [runs_bind,runs_modify]
              exact performs op' (k.begun c call rest) op rfl rfl rfl rfl rfl (by cases op' <;> exact Iff.rfl)
          | none =>
              rw [function] at op
              have yields : (Event.run c).Yields k := by
                intro op' issued
                rw [op] at issued
                cases issued
              have owner : call.owner = q := Option.some.inj ((orderly.running top).1.current.symm.trans current)
              have line : (Event.run c).line k q l = l := by
                unfold Event.line
                rw [op]
              rw [runs_bind,runs_modify,line]
              refine (returned_follows (home yields) current ring bound).mono ?_ (fun _ _ => id)
              intro _ t follows
              exact ⟨fun _ => follows,fun stays => absurd yields stays⟩

end AsePlusPlus
