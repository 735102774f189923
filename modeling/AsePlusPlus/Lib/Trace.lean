import Mathlib.Data.List.Basic
import Mathlib.Data.List.Induction

namespace Trace

variable {σ ι : Type}

-- Runs of a step relation, with the state before each call kept next to the call.
inductive Run (step : σ → ι → σ → Prop) : σ → List (σ × ι) → σ → Prop
  | start (s : σ) : Run step s [] s
  | next {s t u : σ} {past : List (σ × ι)} {c : ι} (run : Run step s past t) (taken : step t c u) :
      Run step s (past ++ [(t,c)]) u

variable {step : σ → ι → σ → Prop} {ok : σ → ι → Prop} {P Q : σ → Prop} {r s t u : σ} {c : ι} {past later : List (σ × ι)}

def Met (ok : σ → ι → Prop) (past : List (σ × ι)) : Prop := ∀ entry ∈ past, ok entry.1 entry.2

theorem met_nil : Met ok ([] : List (σ × ι)) := fun _ none => absurd none List.not_mem_nil

theorem met_snoc : Met ok (past ++ [(t,c)]) ↔ Met ok past ∧ ok t c := by
  simp only [Met,List.forall_mem_append,List.forall_mem_singleton]

theorem Met.append (one : Met ok past) (two : Met ok later) : Met ok (past ++ later) := List.forall_mem_append.mpr ⟨one,two⟩

theorem Run.single (taken : step s c t) : Run step s [(s,c)] t := (Run.start s).next taken

theorem Run.trans (one : Run step r past s) (two : Run step s later t) : Run step r (past ++ later) t := by
  induction two with
  | start => rwa [List.append_nil]
  | next _ taken ih => rw [← List.append_assoc]; exact ih.next taken

-- Each call of a run was taken from the state kept next to it, which the run
-- before it had reached.
theorem Run.split (run : Run step s (past ++ (t,c) :: later) u) : Run step s past t ∧ ∃ v, step t c v := by
  generalize whole : past ++ (t,c) :: later = all at run
  induction run generalizing later with
  | start => exact absurd whole (List.append_ne_nil_of_right_ne_nil past (List.cons_ne_nil _ _))
  | next front taken ih =>
      cases later using List.reverseRecOn with
      | nil =>
          obtain ⟨same,last⟩ := List.append_inj' whole rfl
          cases same
          cases last
          exact ⟨front,_,taken⟩
      | append_singleton later last =>
          rw [← List.cons_append,← List.append_assoc] at whole
          exact ih (List.append_inj' whole rfl).1

def Reaches (step : σ → ι → σ → Prop) (s t : σ) : Prop := ∃ past, Run step s past t

theorem Reaches.trans (one : Reaches step r s) (two : Reaches step s t) : Reaches step r t := by
  obtain ⟨early,begun⟩ := one
  obtain ⟨late,went⟩ := two
  exact ⟨_,begun.trans went⟩

theorem Reaches.next (taken : step s c t) : Reaches step s t := ⟨_,.single taken⟩

-- What every step that meets the condition keeps holds at the end of the run
-- and at each state it passed.
theorem Run.keeps (ok : σ → ι → Prop) (run : Run step s past t) (keep : ∀ t c u, P t → ok t c → step t c u → P u) (first : P s)
    (met : Met ok past) : P t ∧ ∀ entry ∈ past, P entry.1 := by
  induction run with
  | start => exact ⟨first,by simp⟩
  | next _ taken ih =>
      obtain ⟨before,last⟩ := met_snoc.mp met
      obtain ⟨here,passed⟩ := ih before
      refine ⟨keep _ _ _ here last taken,?_⟩
      simp only [List.forall_mem_append,List.forall_mem_singleton]
      exact ⟨passed,here⟩

-- Where a step that breaks the condition also breaks the observed property, the
-- property holds throughout exactly when the condition does.
theorem Run.exact (ok : σ → ι → Prop) (run : Run step s past t) (keep : ∀ t c u, P t → ok t c → step t c u → P u) (first : P s)
    (seen : ∀ t, P t → Q t) (force : ∀ t c u, P t → step t c u → Q u → ok t c) :
    (Q t ∧ ∀ entry ∈ past, Q entry.1) ↔ Met ok past := by
  constructor
  · intro observed
    induction run with
    | start => simp [Met]
    | next run taken ih =>
        obtain ⟨last,passed⟩ := observed
        simp only [List.forall_mem_append,List.forall_mem_singleton] at passed
        have before := ih ⟨passed.2,passed.1⟩
        have here := (run.keeps ok keep first before).1
        exact met_snoc.mpr ⟨before,force _ _ _ here taken last⟩
  · intro met
    obtain ⟨last,passed⟩ := run.keeps ok keep first met
    exact ⟨seen _ last,fun entry member => seen _ (passed entry member)⟩

end Trace
