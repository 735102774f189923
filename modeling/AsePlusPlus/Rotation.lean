import AsePlusPlus.Schedule

namespace AsePlusPlus
open Words Program Chain Ring

variable {k t u : Kernel} {core p q : Nat} {l m : List Nat}

-- A ring in the order in which a search behind `q` meets its contexts, `q` itself
-- last.
structure Turned (k : Kernel) (q : Nat) (l turned : List Nat) : Prop where
  ring : Circular k.next turned
  head : turned.head? = some (k.next q)
  same : turned.Perm l
  last : q ∈ l → turned.getLast? = some q

theorem perm_from {a : Nat} (ring : Circular k.next l) (around : Circular k.next (a :: m)) (same : ∀ x, x ∈ a :: m ↔ x ∈ l) :
    (a :: m).Perm l := (List.perm_ext_iff_of_nodup around.nodup ring.nodup).mpr same

-- A context that has been unlinked still leads onto the ring.
theorem ring_turned (ring : Circular k.next l) (stands : q ∈ l ∨ k.next q ∈ l) : ∃ turned, Turned k q l turned := by
  by_cases inside : q ∈ l
  · obtain ⟨m,around,same⟩ := circular_from ring inside
    obtain ⟨turned,head⟩ := circular_turn around
    have swap : (m ++ [q]).Perm (q :: m) := List.perm_append_comm
    exact ⟨m ++ [q],turned,head,swap.trans (perm_from ring around same),fun _ => by simp⟩
  · have onto : k.next q ∈ l := stands.resolve_left inside
    obtain ⟨m,around,same⟩ := circular_from ring onto
    exact ⟨k.next q :: m,around,rfl,perm_from ring around same,fun member => absurd member inside⟩

-- What delete_ctx leaves of a ring of several contexts, and the field through
-- which the deleted one still leads there.
theorem deleteCtx_leaves (current : u.currentCtx u.currentCore = some q) (ring : Circular u.next (q :: l)) (others : l ≠ [])
    (allocated : ∀ x ∈ q :: l, x < u.count) :
    ∃ t, deleteCtx u = (.ok (),t) ∧ Circular t.next l ∧ q ∉ l ∧ t.next q = u.next q ∧ t.next q ∈ l ∧
      t.currentCtx = u.currentCtx ∧ t.firstContext = u.firstContext ∧ t.count = u.count ∧ t.currentCore = u.currentCore ∧
      ∀ x, (t.ctx x).state = (u.ctx x).state ∧ (t.ctx x).canary = (u.ctx x).canary := by
  obtain ⟨m,z,rfl⟩ : ∃ m z, l = m ++ [z] := ⟨l.dropLast,l.getLast others,(List.dropLast_append_getLast others).symm⟩
  obtain ⟨apart,nodup⟩ := List.nodup_cons.mp ring.nodup
  have bound : m.length+1 < u.count := by
    have short := nodup_bound ring.nodup allocated
    simp only [List.length_cons,List.length_append,List.length_nil] at short
    omega
  obtain ⟨cells,_,deleted⟩ := deleteCtx_unlinks rfl current ring bound
  have zed : q ≠ z := by
    intro same
    exact apart (by simp [same])
  have kept : ((u.unlinked q z).log cells).next q = u.next q := by
    simp [Kernel.next,Kernel.unlinked,Kernel.log,zed]
  have last : ((u.unlinked q z).log cells).next z = u.next q := by
    simp [Kernel.next,Kernel.unlinked,Kernel.log]
  have same : ∀ x ∈ m, ((u.unlinked q z).log cells).next x = u.next x := by
    intro x member
    have away : x ≠ z := by
      intro equal
      subst equal
      exact (List.nodup_append.mp nodup).2.2 x member x (by simp) rfl
    simp [Kernel.next,Kernel.unlinked,Kernel.log,away]
  obtain ⟨left,head⟩ := circular_cut ring last same
  refine ⟨_,deleted,left,apart,kept,?_,rfl,rfl,rfl,rfl,?_⟩
  · rw [kept]
    exact List.mem_of_mem_head? head
  · intro x
    by_cases here : x = z
    · subst here
      simp [Kernel.unlinked,Kernel.log]
    · simp [Kernel.unlinked,Kernel.log,here]

theorem resume_current : Returns (resume core) k fun _ t => t.currentCtx = k.currentCtx := by
  unfold Returns resume
  rw [runs_modify]
  cases k.cpu core with
  | nil => rfl
  | cons call rest =>
      dsimp only
      cases call.inside with
      | none => rfl
      | some s => rfl

-- The asserts of switch_to_ctx are its only ways out.
theorem switchToCtx_arrives (core : Nat) (current : k.currentCtx k.currentCore = some q) (canary : (k.ctx p).canary = ctxCanary)
    (free : (k.ctx p).state ≠ .blocked) :
    ∃ t, switchToCtx core p k = (.ok (),t) ∧ t.currentCtx = Function.update k.currentCtx k.currentCore (some p) := by
  have kept : ((k.saved core q).ctx p).canary = ctxCanary ∧ ((k.saved core q).ctx p).state ≠ .blocked := by
    rw [saved_ctx]
    exact ⟨canary,free⟩
  dsimp only [Kernel.saved] at kept
  have ran : Returns (switchToCtx core p) k fun _ t => t.currentCtx = Function.update k.currentCtx k.currentCore (some p) := by
    simp only [Returns,switchToCtx,runs_bind,runs_get,runs_readCurrent,current,writeCtx,runs_modify,Kernel.log,runs_readCtx,runs_ensure,
      writeCurrent,if_pos kept.1,if_pos kept.2,List.cons_append,List.nil_append,runs_ite]
    split
    · exact trivial
    · exact resume_current
  obtain ⟨_,t,equal,post⟩ := returns_iff.mp ran
  exact ⟨t,equal,post⟩

-- yield searches behind the current context and switches to what it finds.
theorem yieldCtx_seeks {cells : List Cell} (core : Nat) (first : k.firstContext = false) (current : k.currentCtx k.currentCore = some q)
    (found : seekRunnable k.count (k.next q) (k.log ([.ctx q] ++ [.current k.currentCore])) = (.ok p,k.log cells)) :
    yieldCtx core k = (if p ≠ q then do switchToCtx core p; return true else return false : K Bool) (k.log cells) := by
  have begun : ¬ k.firstContext = true := by simp [first]
  have looked : readCurrent k.currentCore k = (.ok (some q),k.log [.current k.currentCore]) := by
    rw [← current]
    rfl
  have read : readCtx q (k.log [.current k.currentCore]) = (.ok (k.ctx q),k.log ([.ctx q] ++ [.current k.currentCore])) := rfl
  have got : (get : K Kernel) k = (.ok k,k) := rfl
  unfold yieldCtx
  refine (bind_ok got).trans ((bind_ok looked).trans ?_)
  refine (congrFun (if_neg begun) _).trans ((bind_ok read).trans ?_)
  exact bind_ok found

-- Scheduling has started, and `l` is a ring of living contexts not all of which
-- are blocked.
structure Scheduled (k : Kernel) (q : Nat) (l : List Nat) : Prop where
  first : k.firstContext = false
  current : k.currentCtx k.currentCore = some q
  ring : Circular k.next l
  allocated : ∀ x ∈ l, x < k.count
  live : ∀ x ∈ l, (k.ctx x).canary = ctxCanary
  runnable : ∃ x ∈ l, (k.ctx x).state ≠ .blocked

-- yield ends at the first context behind `q` that is not blocked.
def SearchEnds (core : Nat) (k : Kernel) (q : Nat) (l : List Nat) : Prop :=
  ∃ before p after, Turned k q l (before ++ p :: after) ∧ (∀ x ∈ before, (k.ctx x).state = .blocked) ∧
    (k.ctx p).state ≠ .blocked ∧
    (∀ n, before.length < n → ∃ cells, seekRunnable n (k.next q) k = (.ok p,k.log cells)) ∧
    ∃ cells, if p = q then yieldCtx core k = (.ok false,k.log cells)
      else ∃ t, switchToCtx core p (k.log cells) = (.ok (),t) ∧ yieldCtx core k = (.ok true,t) ∧
        t.currentCtx = Function.update k.currentCtx k.currentCore (some p)

theorem Scheduled.ends (core : Nat) (scheduled : Scheduled k q l) (stands : q ∈ l ∨ k.next q ∈ l) : SearchEnds core k q l := by
  obtain ⟨turned,turn⟩ := ring_turned scheduled.ring stands
  have reached : ∃ x ∈ turned, (k.ctx x).state ≠ .blocked := by
    obtain ⟨x,member,free⟩ := scheduled.runnable
    exact ⟨x,turn.same.mem_iff.mpr member,free⟩
  obtain ⟨before,p,after,rfl,passed,runnable⟩ := first_of reached
  have blocked : ∀ x ∈ before, (k.ctx x).state = .blocked := fun x member => Decidable.not_not.mp (passed x member)
  have way : Linked k.next p (k.next q) before := circular_until turn.ring turn.head
  have short : before.length < k.count := by
    have bound := nodup_bound turn.ring.nodup fun x member => scheduled.allocated x (turn.same.mem_iff.mp member)
    simp only [List.length_append,List.length_cons] at bound
    omega
  have canary : (k.ctx p).canary = ctxCanary := scheduled.live p (turn.same.mem_iff.mp (by simp))
  refine ⟨before,p,after,turn,blocked,runnable,?_,?_⟩
  · intro n fuel
    obtain ⟨cells,_,found⟩ := seekRunnable_finds way blocked runnable fuel
    exact ⟨cells,found⟩
  · obtain ⟨cells,_,found⟩ := seekRunnable_finds (k := k.log ([.ctx q] ++ [.current k.currentCore])) way blocked runnable short
    rw [log_log] at found
    generalize cells ++ ([.ctx q] ++ [.current k.currentCore]) = cells at found
    have seeks := yieldCtx_seeks core scheduled.first scheduled.current found
    refine ⟨cells,?_⟩
    by_cases itself : p = q
    · rw [if_pos itself,seeks,if_neg (not_not_intro itself)]
      rfl
    · rw [if_neg itself]
      obtain ⟨t,arrives,now⟩ := switchToCtx_arrives (k := k.log cells) core scheduled.current canary runnable
      refine ⟨t,arrives,?_,now⟩
      rw [seeks,if_pos itself,bind_ok arrives]
      rfl

-- The search of yield for any ring, from a context on it, from one off it that
-- still leads there, and behind a delete_ctx.
theorem yield_first_runnable (core : Nat) (q : Nat) (l : List Nat) :
    (∀ k, Scheduled k q l → (q ∈ l ∨ k.next q ∈ l) → SearchEnds core k q l) ∧
    ∀ u, Circular u.next (q :: l) → (∀ x ∈ q :: l, x < u.count) → u.firstContext = false →
      u.currentCtx u.currentCore = some q → (∀ x ∈ l, (u.ctx x).canary = ctxCanary) →
      (∃ x ∈ l, (u.ctx x).state ≠ .blocked) →
      ∃ k, deleteCtx u = (.ok (),k) ∧ q ∉ l ∧ k.next q = u.next q ∧ SearchEnds core k q l := by
  constructor
  · intro k scheduled stands
    exact scheduled.ends core stands
  · intro u ring allocated first current live runnable
    have others : l ≠ [] := by
      obtain ⟨x,member,_⟩ := runnable
      exact List.ne_nil_of_mem member
    obtain ⟨k,deleted,left,apart,kept,onto,now,begun,count,home,same⟩ := deleteCtx_leaves current ring others allocated
    have scheduled : Scheduled k q l := by
      refine ⟨begun.trans first,?_,left,?_,?_,?_⟩
      · rw [now,home]
        exact current
      · intro x member
        rw [count]
        exact allocated x (List.mem_cons_of_mem q member)
      · intro x member
        rw [(same x).2]
        exact live x member
      · obtain ⟨x,member,free⟩ := runnable
        refine ⟨x,member,?_⟩
        rw [(same x).1]
        exact free
    exact ⟨k,deleted,apart,kept,scheduled.ends core (.inr onto)⟩

-- Context 3 has left the ring of 0, 1 and 2 with its next field on 1, which is
-- blocked.
def leftKernel : Kernel where
  currentCtx := fun _ => some 3
  currentCore := 1
  firstContext := false
  ctx := fun p => ⟨if p = 1 then .blocked else if p = 3 then .terminated else .activable,fun _ _ => none,
    if p = 3 then 1 else (p+1)%3,none,ctxCanary,[],0,1⟩
  count := 4
  sem := fun _ => semInit 1
  cpu := fun _ => []
  touched := []
  semCalls := []
  performed := []

theorem yield_first_runnable_left : ∃ p ∈ [0,2], ∃ t, yieldCtx 1 leftKernel = (.ok true,t) ∧ t.currentCtx 1 = some p := by
  have scheduled : Scheduled leftKernel 3 [0,1,2] := by
    refine ⟨rfl,rfl,⟨⟨rfl,rfl,rfl⟩,by decide⟩,by decide,fun _ _ => rfl,⟨0,by simp,by decide⟩⟩
  obtain ⟨before,p,after,turn,_,free,_,cells,ends⟩ := (yield_first_runnable 1 3 [0,1,2]).1 leftKernel scheduled (.inr (by decide))
  have member : p ∈ [0,1,2] := turn.same.mem_iff.mp (by simp)
  have other : p ≠ 1 := by
    intro same
    subst same
    exact free rfl
  have away : p ≠ 3 := by
    intro same
    subst same
    simp at member
  rw [if_neg away] at ends
  obtain ⟨t,_,yields,now⟩ := ends
  refine ⟨p,?_,t,yields,?_⟩
  · simp only [List.mem_cons,List.not_mem_nil,or_false] at member ⊢
    rcases member with zero | one | two
    · exact .inl zero
    · exact absurd one other
    · exact .inr two
  · rw [now]
    exact Function.update_self ..

end AsePlusPlus
