import Mathlib.Data.List.Forall2
import AsePlusPlus.Lib.Trace

namespace Trace

variable {σ τ ι κ : Type} {step : σ → ι → σ → Prop} {move : τ → κ → τ → Prop} {s t : σ} {h : τ} {past : List (σ × ι)}

-- Where every step that meets the condition has its image from a related state, a
-- run has its image, call by call, and the states stay related.
theorem Run.mirrored (ok : σ → ι → Prop) (related : σ → τ → Prop) (meant : τ → ι → κ → Prop) (run : Run step s past t)
    (mirror : ∀ t c u h, related t h → ok t c → step t c u → ∃ a g, move h a g ∧ meant h c a ∧ related u g)
    (first : related s h) (met : Met ok past) :
    ∃ g images, Run move h images g ∧ related t g ∧
      List.Forall₂ (fun entry image => related entry.1 image.1 ∧ meant image.1 entry.2 image.2) past images := by
  induction run with
  | start => exact ⟨h,[],.start h,first,.nil⟩
  | @next t u past c run taken ih =>
      obtain ⟨early,fits⟩ := met_snoc.mp met
      obtain ⟨g,images,went,here,pairs⟩ := ih early
      obtain ⟨a,g',moved,means,there⟩ := mirror _ _ _ _ here fits taken
      exact ⟨g',images ++ [(g,a)],went.next moved,there,List.rel_append pairs (.cons ⟨here,means⟩ .nil)⟩

theorem run_nil (run : Run step s [] t) : t = s := by
  generalize none : ([] : List (σ × ι)) = past at run
  cases run with
  | start => rfl
  | next => exact absurd none.symm (List.concat_ne_nil _ _)

theorem run_one {entry : σ × ι} (run : Run step s [entry] t) : entry.1 = s ∧ step s entry.2 t := by
  generalize one : [entry] = past at run
  cases run with
  | start => cases one
  | next front taken =>
      obtain ⟨early,last⟩ := List.append_inj' ((List.nil_append [entry]).trans one) rfl
      subst early
      cases last
      cases run_nil front
      exact ⟨rfl,taken⟩

end Trace
