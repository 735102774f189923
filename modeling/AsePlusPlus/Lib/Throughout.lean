import AsePlusPlus.Lib.Crew

namespace Resumption
open Program

variable {ω σ ε α β : Type} {Ans : ω → Type} {act : (o : ω) → Prog σ ε (Ans o)} {I : σ → Prop} {C : σ → Prop}
variable {Q R : α → σ → Prop} {s u : σ} {e : ε}

namespace Task

-- Wherever the task stands before a request, or has stopped, `I` holds; where it
-- is done, `Q`.
def Throughout (act : (o : ω) → Prog σ ε (Ans o)) (I : σ → Prop) : Task ω Ans ε α → σ → (α → σ → Prop) → Prop
  | .done a,s,Q => Q a s
  | .halt _,s,_ => I s
  | .ask o next,s,Q => I s ∧ ∀ x t, act o s = (.ok x,t) → (next x).Throughout act I t Q

theorem throughout_pure {a : α} (post : Q a s) : (pure a : Task ω Ans ε α).Throughout act I s Q := post

theorem throughout_halt (here : I s) : (.halt e : Task ω Ans ε α).Throughout act I s Q := here

theorem throughout_request {o : ω} {Q : Ans o → σ → Prop} (here : I s) (post : ∀ x t, act o s = (.ok x,t) → Q x t) :
    (request o : Task ω Ans ε (Ans o)).Throughout act I s Q := ⟨here,post⟩

theorem Throughout.bind {t : Task ω Ans ε α} {f : α → Task ω Ans ε β} {R : β → σ → Prop} (first : t.Throughout act I s Q)
    (next : ∀ a u, Q a u → (f a).Throughout act I u R) : (t >>= f).Throughout act I s R := by
  induction t generalizing s with
  | done a => exact next a s first
  | halt e => exact first
  | ask o later ih => exact ⟨first.1,fun x u did => ih x (first.2 x u did)⟩

theorem Throughout.mono {t : Task ω Ans ε α} (first : t.Throughout act I s Q) (weaker : ∀ a u, Q a u → R a u) :
    t.Throughout act I s R := by
  induction t generalizing s with
  | done a => exact weaker a s first
  | halt e => exact first
  | ask o later ih => exact ⟨first.1,fun x u did => ih x (first.2 x u did)⟩

-- What the whole task is known to do is known of its end.
theorem Throughout.ends {t : Task ω Ans ε α} {E : ε → σ → Prop} (first : t.Throughout act I s Q) (runs : Runs (t.run act) s R E) :
    t.Throughout act I s (fun a u => Q a u ∧ R a u) := by
  induction t generalizing s with
  | done a => exact ⟨first,runs⟩
  | halt e => exact first
  | ask o later ih =>
      refine ⟨first.1,fun x u did => ih x (first.2 x u did) ?_⟩
      rw [run_ask,runs_bind] at runs
      exact runs.result did

theorem throughout_ite {c : Prop} [Decidable c] {t u : Task ω Ans ε α} (left : c → t.Throughout act I s Q)
    (right : ¬ c → u.Throughout act I s Q) : (if c then t else u).Throughout act I s Q := by
  split
  · rename_i holds
    exact left holds
  · rename_i fails
    exact right fails

-- A task that makes no difference to a class of states.
theorem Constant.throughout {t : Task ω Ans ε α} {P : α → Prop} (constant : t.Constant act C P) (here : C s) (all : ∀ u, C u → I u) :
    t.Throughout act I s (fun a u => P a ∧ C u) := by
  induction t generalizing s with
  | done a => exact ⟨constant,here⟩
  | halt e => exact all s here
  | ask o later ih =>
      have steady : Steady C (act o) fun x => (later x).Constant act C P := constant
      refine ⟨all s here,fun x u did => ?_⟩
      obtain ⟨rest,stays⟩ := (steady.post here).result did
      exact ih x rest stays

-- Nothing is asked behind a request that is not quiet.
def Ends (quiet : ω → Prop) : Task ω Ans ε α → Prop
  | .done _ => True
  | .halt _ => True
  | .ask o next => ∀ x, (quiet o → (next x).Ends quiet) ∧ (¬ quiet o → ∃ a, next x = .done a)

section ends
variable {quiet : ω → Prop}

theorem ends_pure (a : α) : (pure a : Task ω Ans ε α).Ends quiet := trivial

theorem ends_request (o : ω) : (request o : Task ω Ans ε (Ans o)).Ends quiet := fun x => ⟨fun _ => trivial,fun _ => ⟨x,rfl⟩⟩

-- Quiet requests, and what may stand behind them.
def Hushed (quiet : ω → Prop) (t : Task ω Ans ε α) : Prop := t.Tame quiet fun _ _ => True

theorem Hushed.bind {t : Task ω Ans ε α} {f : α → Task ω Ans ε β} (first : Hushed quiet t) (next : ∀ a, (f a).Ends quiet) :
    (t >>= f).Ends quiet := by
  induction t with
  | done a => exact next a
  | halt e => trivial
  | ask o later ih => exact fun x => ⟨fun _ => ih x (first.2 x trivial),fun loud => absurd first.1 loud⟩

theorem Ends.returns {t : Task ω Ans ε α} (ends : t.Ends quiet) (f : α → β) : (t >>= fun a => pure (f a)).Ends quiet := by
  induction t with
  | done a => trivial
  | halt e => trivial
  | ask o later ih =>
      intro x
      refine ⟨fun hushed => ih x ((ends x).1 hushed),fun loud => ?_⟩
      obtain ⟨a,equal⟩ := (ends x).2 loud
      exact ⟨f a,by show (later x >>= _) = _; rw [equal]; rfl⟩

theorem ends_ite {c : Prop} [Decidable c] {t u : Task ω Ans ε α} (left : t.Ends quiet) (right : u.Ends quiet) :
    (if c then t else u).Ends quiet := by
  split
  · exact left
  · exact right

-- Up to such a request nothing is seen.
theorem Ends.throughout {t : Task ω Ans ε α} (ends : t.Ends quiet) (here : I s)
    (closed : ∀ o s x u, quiet o → act o s = (.ok x,u) → I s → I u) : t.Throughout act I s (fun _ _ => True) := by
  induction t generalizing s with
  | done a => trivial
  | halt e => exact here
  | ask o later ih =>
      refine ⟨here,fun x u did => ?_⟩
      by_cases hushed : quiet o
      · exact ih x ((ends x).1 hushed) (closed o s x u hushed did here)
      · obtain ⟨a,equal⟩ := (ends x).2 hushed
        rw [equal]
        trivial

theorem Hushed.throughout {t : Task ω Ans ε α} (hushed : Hushed quiet t) (here : I s)
    (closed : ∀ o s x u, quiet o → act o s = (.ok x,u) → I s → I u) : t.Throughout act I s (fun _ u => I u) := by
  induction t generalizing s with
  | done a => exact here
  | halt e => exact here
  | ask o later ih => exact ⟨here,fun x u did => ih x (hushed.2 x trivial) (closed o s x u hushed.1 did here)⟩

end ends

end Task

-- Where a task can stand that has been started.
inductive Stands (act : (o : ω) → Prog σ ε (Ans o)) : Task ω Ans ε α → σ → Task ω Ans ε α → σ → Prop
  | here (t : Task ω Ans ε α) (s : σ) : Stands act t s t s
  | asked {o : ω} {next : Ans o → Task ω Ans ε α} {x : Ans o} {s u v : σ} {rest : Task ω Ans ε α} (did : act o s = (.ok x,u))
      (stands : Stands act (next x) u rest v) : Stands act (.ask o next) s rest v

theorem Stands.throughout {t rest : Task ω Ans ε α} (stands : Stands act t s rest u) (all : t.Throughout act I s Q) :
    rest.Throughout act I u Q := by
  induction stands with
  | here => exact all
  | asked did _ ih => exact ih (all.2 _ _ did)

-- At the end of a task, too, where its result makes sure of it.
theorem Stands.always {t rest : Task ω Ans ε α} (stands : Stands act t s rest u) (all : t.Throughout act I s Q)
    (last : ∀ a u, Q a u → I u) : I u := by
  have there := stands.throughout all
  cases rest with
  | done a => exact last a u there
  | halt e => exact there
  | ask o next => exact there.1

end Resumption
