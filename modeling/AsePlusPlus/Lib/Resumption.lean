import AsePlusPlus.Lib.Program

namespace Resumption
open Program

-- A program that stands still at each of its requests: it is done, has stopped,
-- or asks and goes on with the answer.
inductive Task (ω : Type) (Ans : ω → Type) (ε α : Type) where
  | done (a : α)
  | halt (e : ε)
  | ask (o : ω) (next : Ans o → Task ω Ans ε α)

variable {ω σ ε α β : Type} {Ans : ω → Type} {s t : σ}

namespace Task

def bind : Task ω Ans ε α → (α → Task ω Ans ε β) → Task ω Ans ε β
  | .done a,f => f a
  | .halt e,_ => .halt e
  | .ask o next,f => .ask o fun x => (next x).bind f

instance : Monad (Task ω Ans ε) where
  pure := .done
  bind := .bind

def request (o : ω) : Task ω Ans ε (Ans o) := .ask o .done

def ensure (c : Prop) [Decidable c] (e : ε) : Task ω Ans ε Unit := if c then pure () else .halt e

theorem seq_assoc {γ : Type} (t : Task ω Ans ε α) (f : α → Task ω Ans ε β) (g : β → Task ω Ans ε γ) :
    t >>= f >>= g = t >>= fun a => f a >>= g := by
  induction t with
  | done a => rfl
  | halt e => rfl
  | ask o next ih => exact congrArg (Task.ask o) (funext ih)

-- All of it at once, with the answers of a state.
def run (act : (o : ω) → Prog σ ε (Ans o)) : Task ω Ans ε α → Prog σ ε α
  | .done a => pure a
  | .halt e => Program.stop e
  | .ask o next => do
    let x ← act o
    (next x).run act

section run
variable (act : (o : ω) → Prog σ ε (Ans o))

theorem run_pure (a : α) : (pure a : Task ω Ans ε α).run act = pure a := rfl

theorem run_ask (o : ω) (next : Ans o → Task ω Ans ε α) : (Task.ask o next).run act = act o >>= fun x => (next x).run act := rfl

theorem run_request (o : ω) : (request o : Task ω Ans ε (Ans o)).run act = act o := by
  funext s
  simp only [request,run,Bind.bind]
  rcases act o s with ⟨_ | x,t⟩
  · rfl
  · rfl

theorem run_bind (t : Task ω Ans ε α) (f : α → Task ω Ans ε β) : (t >>= f).run act = t.run act >>= fun a => (f a).run act := by
  induction t with
  | done a => rfl
  | halt e => rfl
  | ask o next ih =>
      have steps : (Task.ask o next >>= f).run act = act o >>= fun x => (next x >>= f).run act := rfl
      rw [steps]
      simp only [ih]
      funext s
      simp only [Bind.bind,run]
      rcases act o s with ⟨_ | x,t⟩
      · rfl
      · rfl

theorem run_ensure (c : Prop) [Decidable c] (e : ε) : (ensure c e : Task ω Ans ε Unit).run act = Program.ensure c e := by
  unfold ensure Program.ensure
  split <;> rfl

theorem run_ite (c : Prop) [Decidable c] (t u : Task ω Ans ε α) :
    (if c then t else u).run act = if c then t.run act else u.run act := by
  split <;> rfl

end run

-- Every request is good as long as the answers fit.
def Tame (good : ω → Prop) (fits : (o : ω) → Ans o → Prop) : Task ω Ans ε α → Prop
  | .done _ => True
  | .halt _ => True
  | .ask o next => good o ∧ ∀ x, fits o x → (next x).Tame good fits

section tame
variable {good : ω → Prop} {fits : (o : ω) → Ans o → Prop}

theorem tame_pure (a : α) : (pure a : Task ω Ans ε α).Tame good fits := trivial

theorem tame_request {o : ω} (kind : good o) : (request o : Task ω Ans ε (Ans o)).Tame good fits := ⟨kind,fun _ _ => trivial⟩

theorem Tame.bind {t : Task ω Ans ε α} {f : α → Task ω Ans ε β} (first : t.Tame good fits)
    (next : ∀ a, (f a).Tame good fits) : (t >>= f).Tame good fits := by
  induction t with
  | done a => exact next a
  | halt e => trivial
  | ask o later ih => exact ⟨first.1,fun x fit => ih x (first.2 x fit)⟩

theorem tame_ensure {c : Prop} [Decidable c] {e : ε} : (ensure c e : Task ω Ans ε Unit).Tame good fits := by
  unfold ensure
  split <;> trivial

theorem tame_ite {c : Prop} [Decidable c] {t u : Task ω Ans ε α} (left : t.Tame good fits) (right : u.Tame good fits) :
    (if c then t else u).Tame good fits := by
  split
  · exact left
  · exact right

end tame

end Task

end Resumption
