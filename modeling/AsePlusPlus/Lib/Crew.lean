import Mathlib.Logic.Function.Basic
import AsePlusPlus.Lib.Resumption
import AsePlusPlus.Lib.Trace

namespace Resumption
open Program Trace

variable {ω σ ε α β : Type} {Ans : ω → Type} {act : (o : ω) → Prog σ ε (Ans o)} {C : σ → Prop} {Q : α → Prop} {R : β → Prop} {s t : σ}

namespace Task

-- Each request has one answer on a whole class of states, which it does not leave;
-- `Q` holds of what the task returns.
def Constant (act : (o : ω) → Prog σ ε (Ans o)) (C : σ → Prop) (Q : α → Prop) : Task ω Ans ε α → Prop
  | .done a => Q a
  | .halt _ => True
  | .ask o next => Steady C (act o) fun x => (next x).Constant act C Q

theorem constant_pure {a : α} (post : Q a) : (pure a : Task ω Ans ε α).Constant act C Q := post

theorem constant_halt (e : ε) : (.halt e : Task ω Ans ε α).Constant act C Q := trivial

theorem constant_request {o : ω} {Q : Ans o → Prop} (steady : Steady C (act o) Q) :
    (request o : Task ω Ans ε (Ans o)).Constant act C Q := steady

theorem constant_bind {t : Task ω Ans ε α} {f : α → Task ω Ans ε β} (first : t.Constant act C Q)
    (next : ∀ a, Q a → (f a).Constant act C R) : (t >>= f).Constant act C R := by
  induction t with
  | done a => exact next a first
  | halt e => trivial
  | ask o later ih => exact Steady.mono first fun x rest => ih x rest

theorem constant_ite {c : Prop} [Decidable c] {t u : Task ω Ans ε α} (left : c → t.Constant act C Q) (right : ¬ c → u.Constant act C Q) :
    (if c then t else u).Constant act C Q := by
  split
  · rename_i holds
    exact left holds
  · rename_i fails
    exact right fails

theorem Constant.mono {Q' : α → Prop} {t : Task ω Ans ε α} (constant : t.Constant act C Q) (weaker : ∀ a, Q a → Q' a) :
    t.Constant act C Q' := by
  induction t with
  | done a => exact weaker a constant
  | halt e => trivial
  | ask o later ih => exact Steady.mono constant fun x rest => ih x rest

-- Such a task is steady as a whole.
theorem Constant.steady {t : Task ω Ans ε α} (constant : t.Constant act C Q) : Steady C (t.run act) Q := by
  induction t with
  | done a => exact steady_pure a constant
  | halt e => exact steady_stop e
  | ask o later ih => exact steady_bind constant fun x rest => ih x rest

-- What it returns is what it returns from any state of the class.
theorem Constant.self {t : Task ω Ans ε α} (constant : t.Constant act C Q) (here : C s) :
    t.Constant act C (fun a => Q a ∧ (t.run act s).1 = .ok a) := by
  induction t generalizing s with
  | done a => exact ⟨constant,rfl⟩
  | halt e => trivial
  | ask o later ih =>
      have steady : Steady C (act o) fun x => (later x).Constant act C Q := constant
      refine (steady.self here).mono fun x rest => ?_
      obtain ⟨rest,answer⟩ := rest
      rcases did : act o s with ⟨e | y,u⟩
      · rw [did] at answer
        cases answer
      · have stays := steady.stays here
        rw [did] at answer stays
        cases answer
        have ran : (Task.ask o later).run act s = (later x).run act u := bind_ok did
        rw [ran]
        exact ih x rest stays

-- How many requests a task makes alone.
def requests (act : (o : ω) → Prog σ ε (Ans o)) : Task ω Ans ε α → σ → Nat
  | .done _,_ => 0
  | .halt _,_ => 0
  | .ask o next,s =>
    match act o s with
    | (.ok x,t) => (next x).requests act t+1
    | (.error _,_) => 1

end Task

variable {o : ω} {x : Ans o} {e : ε} {next : Ans o → Task ω Ans ε α}

theorem requests_answered (did : act o s = (.ok x,t)) : (Task.ask o next).requests act s = (next x).requests act t+1 := by
  rw [Task.requests,did]

theorem requests_stopped (did : act o s = (.error e,t)) : (Task.ask o next).requests act s = 1 := by
  rw [Task.requests,did]

theorem run_answered (did : act o s = (.ok x,t)) : (Task.ask o next).run act s = (next x).run act t := bind_ok did

theorem run_stopped (did : act o s = (.error e,t)) : ((Task.ask o next).run act s).1 = .error e := by
  rw [Task.run_ask]
  simp only [bind,did]

-- It asks as often anywhere in the class.
theorem Task.Constant.requests_same {task : Task ω Ans ε α} (constant : task.Constant act C Q) (one : C s) (two : C t) :
    task.requests act s = task.requests act t := by
  induction task generalizing s t with
  | done a => rfl
  | halt e => rfl
  | ask o next ih =>
      have steady : Steady C (act o) fun x => (next x).Constant act C Q := constant
      have same := steady.agree one two
      have stays := steady.stays one
      have stays' := steady.stays two
      rcases did : act o s with ⟨e | x,u⟩
      · rw [did] at same
        have did' : act o t = (.error e,(act o t).2) := Prod.ext same.symm rfl
        rw [requests_stopped did,requests_stopped did']
      · rw [did] at same stays
        have did' : act o t = (.ok x,(act o t).2) := Prod.ext same.symm rfl
        have rest := ((steady.post one).result did).1
        rw [requests_answered did,requests_answered did',ih x rest stays stays']

-- Several tasks that work on one state, and take turns at their requests.
structure Crew (σ ω : Type) (Ans : ω → Type) (ε α : Type) where
  state : σ
  tasks : Nat → Task ω Ans ε α

inductive CrewStep (act : (o : ω) → Prog σ ε (Ans o)) : Crew σ ω Ans ε α → Nat → Crew σ ω Ans ε α → Prop
  | answered {k : Crew σ ω Ans ε α} {p : Nat} {o : ω} {next : Ans o → Task ω Ans ε α} {x : Ans o} {t : σ}
      (here : k.tasks p = .ask o next) (did : act o k.state = (.ok x,t)) : CrewStep act k p ⟨t,Function.update k.tasks p (next x)⟩
  | stopped {k : Crew σ ω Ans ε α} {p : Nat} {o : ω} {next : Ans o → Task ω Ans ε α} {e : ε} {t : σ}
      (here : k.tasks p = .ask o next) (did : act o k.state = (.error e,t)) : CrewStep act k p ⟨t,Function.update k.tasks p (.halt e)⟩

variable {k l : Crew σ ω Ans ε α} {p : Nat} {Each : Nat → α → Prop}

-- What a task has still to do is what it had to do less the requests it has made.
structure Apart (act : (o : ω) → Prog σ ε (Ans o)) (C : σ → Prop) (Q : α → Prop) (before after : Task ω Ans ε α) (made : Nat) : Prop where
  constant : after.Constant act C Q
  outcome : ∀ s, C s → (after.run act s).1 = (before.run act s).1
  requests : ∀ s, C s → made+after.requests act s = before.requests act s

theorem CrewStep.apart (taken : CrewStep act k p l) (here : C k.state) (constant : ∀ q, (k.tasks q).Constant act C (Each q)) :
    C l.state ∧ ∀ q, Apart act C (Each q) (k.tasks q) (l.tasks q) (if q = p then 1 else 0) := by
  have idle : ∀ q, q ≠ p → ∀ task, Apart act C (Each q) (k.tasks q) (Function.update k.tasks p task q) (if q = p then 1 else 0) := by
    intro q other task
    rw [Function.update_of_ne other,if_neg other]
    exact ⟨constant q,fun _ _ => rfl,fun _ _ => Nat.zero_add _⟩
  cases taken with
  | @answered o next x t asks did =>
      have first := constant p
      rw [asks] at first
      have steady : Steady C (act o) fun x => (next x).Constant act C (Each p) := first
      obtain ⟨rest,stays⟩ := (steady.post here).result did
      refine ⟨stays,fun q => ?_⟩
      by_cases other : q = p
      · subst other
        show Apart act C (Each q) (k.tasks q) (Function.update k.tasks q (next x) q) _
        rw [Function.update_self,if_pos rfl,asks]
        refine ⟨rest,fun s inside => ?_,fun s inside => ?_⟩
        · have same := steady.agree here inside
          rw [did] at same
          rw [run_answered (Prod.ext same.symm rfl : act o s = (.ok x,(act o s).2))]
          exact rest.steady.agree inside (steady.stays inside)
        · have same := steady.agree here inside
          rw [did] at same
          rw [requests_answered (Prod.ext same.symm rfl : act o s = (.ok x,(act o s).2)),
            rest.requests_same inside (steady.stays inside),Nat.add_comm]
      · exact idle q other _
  | @stopped o next e t asks did =>
      have first := constant p
      rw [asks] at first
      have steady : Steady C (act o) fun x => (next x).Constant act C (Each p) := first
      have stays := steady.stays here
      rw [did] at stays
      refine ⟨stays,fun q => ?_⟩
      by_cases other : q = p
      · subst other
        show Apart act C (Each q) (k.tasks q) (Function.update k.tasks q (.halt e) q) _
        rw [Function.update_self,if_pos rfl,asks]
        refine ⟨Task.constant_halt e,fun s inside => ?_,fun s inside => ?_⟩
        · have same := steady.agree here inside
          rw [did] at same
          exact (run_stopped (Prod.ext same.symm rfl : act o s = (.error e,(act o s).2))).symm
        · have same := steady.agree here inside
          rw [did] at same
          rw [requests_stopped (Prod.ext same.symm rfl : act o s = (.error e,(act o s).2))]
          rfl
      · exact idle q other _

theorem Apart.trans {Q : α → Prop} {one two three : Task ω Ans ε α} {m n : Nat} (early : Apart act C Q one two m) (late : Apart act C Q two three n) :
    Apart act C Q one three (m+n) := by
  refine ⟨late.constant,fun s inside => (late.outcome s inside).trans (early.outcome s inside),fun s inside => ?_⟩
  have before := early.requests s inside
  have after := late.requests s inside
  omega

end Resumption
