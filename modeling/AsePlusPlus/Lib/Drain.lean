import Mathlib.Data.List.Basic

namespace Drain

variable {σ α β : Type}

-- A source that is asked again and again until it has no more.
inductive Drains (ask : σ → Option α → σ → Prop) : σ → List α → σ → Prop
  | ended {s t : σ} (last : ask s none t) : Drains ask s [] t
  | more {s t u : σ} {a : α} {rest : List α} (one : ask s (some a) t) (others : Drains ask t rest u) :
      Drains ask s (a :: rest) u

variable {ask : σ → Option α → σ → Prop} {s t u : σ} {l l' : List α}

-- A source that answers in one way only.
def Determined (ask : σ → Option α → σ → Prop) : Prop := ∀ s a b t u, ask s a t → ask s b u → a = b ∧ t = u

theorem Drains.unique (sure : Determined ask) (one : Drains ask s l t) (two : Drains ask s l' u) : l = l' ∧ t = u := by
  induction one generalizing l' with
  | ended last =>
      cases two with
      | ended other => exact ⟨rfl,(sure _ _ _ _ _ last other).2⟩
      | more first _ => cases (sure _ _ _ _ _ last first).1
  | more first _ ih =>
      cases two with
      | ended other => cases (sure _ _ _ _ _ first other).1
      | more second others =>
          obtain ⟨equal,same⟩ := sure _ _ _ _ _ first second
          cases equal
          subst same
          obtain ⟨rest,end_⟩ := ih others
          exact ⟨by rw [rest],end_⟩

-- A source that answers as another one does.
theorem Drains.instead (drained : Drains ask t l u) (same : ∀ o u, ask t o u → ask s o u) : Drains ask s l u := by
  cases drained with
  | ended last => exact .ended (same _ _ last)
  | more one others => exact .more (same _ _ one) others

-- A source that goes through a list and gives what it picks of it: it gives an
-- element that it picks, and answers as if one that it does not pick were not there.
structure Picks (ask : σ → Option α → σ → Prop) (holds : List β → σ → Prop) (pick : β → Option α) (stop : σ → Prop) : Prop where
  last : ∀ s, holds [] s → ∃ t, ask s none t ∧ stop t
  take : ∀ s b a rest, holds (b :: rest) s → pick b = some a → ∃ t, ask s (some a) t ∧ holds rest t
  skip : ∀ s b rest, holds (b :: rest) s → pick b = none → ∃ t, holds rest t ∧ ∀ o u, ask t o u → ask s o u

variable {holds : List β → σ → Prop} {pick : β → Option α} {stop : σ → Prop} {rest : List β}

theorem Picks.drains (picks : Picks ask holds pick stop) (here : holds rest s) :
    ∃ t, Drains ask s (rest.filterMap pick) t ∧ stop t := by
  induction rest generalizing s with
  | nil =>
      obtain ⟨t,last,stopped⟩ := picks.last s here
      exact ⟨t,.ended last,stopped⟩
  | cons b rest ih =>
      cases picked : pick b with
      | none =>
          obtain ⟨t,there,same⟩ := picks.skip s b rest here picked
          obtain ⟨u,drained,stopped⟩ := ih there
          rw [List.filterMap_cons_none picked]
          exact ⟨u,drained.instead same,stopped⟩
      | some a =>
          obtain ⟨t,one,there⟩ := picks.take s b a rest here picked
          obtain ⟨u,drained,stopped⟩ := ih there
          rw [List.filterMap_cons_some picked]
          exact ⟨u,.more one drained,stopped⟩

end Drain
