import Mathlib.Data.List.Basic
import Mathlib.Data.List.Infix

namespace Forest

variable {ι α : Type}

-- Paths from a root along labelled edges.
inductive Path (edge : ι → α → ι → Prop) (root : ι) : List α → ι → Prop
  | start : Path edge root [] root
  | step {p : List α} {i j : ι} {a : α} (path : Path edge root p i) (taken : edge i a j) : Path edge root (p ++ [a]) j

variable {edge edge' : ι → α → ι → Prop} {root i j d n : ι} {a c : α} {p q : List α}

theorem path_nil : Path edge root [] i ↔ i = root := by
  constructor
  · intro path
    generalize none : ([] : List α) = q at path
    cases path with
    | start => rfl
    | step _ _ => exact absurd none (by simp)
  · intro same
    obtain rfl := same
    exact .start

theorem path_snoc : Path edge root (p ++ [a]) j ↔ ∃ i, Path edge root p i ∧ edge i a j := by
  constructor
  · intro path
    generalize whole : p ++ [a] = q at path
    cases path with
    | start => exact absurd whole (by simp)
    | step path taken =>
        obtain ⟨rfl,rfl⟩ := List.append_singleton_inj.mp whole
        exact ⟨_,path,taken⟩
  · intro post
    obtain ⟨i,path,taken⟩ := post
    exact path.step taken

theorem Path.mono (path : Path edge root p i) (more : ∀ {i a j}, edge i a j → edge' i a j) : Path edge' root p i := by
  induction path with
  | start => exact .start
  | step _ taken ih => exact ih.step (more taken)

-- Edges that give every node one name, and none to the root.
structure Named (edge : ι → α → ι → Prop) (root : ι) : Prop where
  det : ∀ {i a j k}, edge i a j → edge i a k → j = k
  inj : ∀ {i a j b k}, edge i a k → edge j b k → i = j ∧ a = b
  top : ∀ {i a}, ¬ edge i a root

theorem Path.det (named : Named edge root) (one : Path edge root p i) (two : Path edge root p j) : i = j := by
  induction one generalizing j with
  | start => exact (path_nil.mp two).symm
  | step _ taken ih =>
      obtain ⟨_,path,taken'⟩ := path_snoc.mp two
      obtain rfl := ih path
      exact named.det taken taken'

theorem Path.unique (named : Named edge root) (one : Path edge root p i) (two : Path edge root q i) : p = q := by
  induction one generalizing q with
  | start =>
      cases two with
      | start => rfl
      | step _ taken => exact absurd taken named.top
  | step _ taken ih =>
      cases two with
      | start => exact absurd taken named.top
      | step path taken' =>
          obtain ⟨rfl,rfl⟩ := named.inj taken taken'
          rw [ih path]

-- A new leaf `n` below `d`.
section link
variable (named : Named edge root) (link : ∀ i a j, edge' i a j ↔ edge i a j ∨ (i = d ∧ a = c ∧ j = n))
include named link

theorem link_path (barren : ∀ a j, ¬ edge n a j) (fresh : n ≠ d) (path : Path edge root p d) :
    Path edge' root q i ↔ Path edge root q i ∨ (q = p ++ [c] ∧ i = n) := by
  constructor
  · intro along
    induction along with
    | start => exact Or.inl .start
    | step _ taken ih =>
        rcases (link _ _ _).mp taken with old | ⟨rfl,rfl,rfl⟩
        · rcases ih with before | ⟨_,rfl⟩
          · exact Or.inl (before.step old)
          · exact absurd old (barren _ _)
        · rcases ih with before | ⟨_,here⟩
          · exact Or.inr ⟨by rw [before.unique named path],rfl⟩
          · exact absurd here.symm fresh
  · have more : ∀ {i a j}, edge i a j → edge' i a j := fun old => (link _ _ _).mpr (Or.inl old)
    intro post
    rcases post with old | ⟨rfl,rfl⟩
    · exact old.mono more
    · exact (path.mono more).step ((link _ _ _).mpr (Or.inr ⟨rfl,rfl,rfl⟩))

end link

-- One edge less: what was below it is out of reach.
section cut
variable (named : Named edge root) (cut : ∀ i a j, edge' i a j ↔ edge i a j ∧ ¬ (i = d ∧ a = c))
include named cut

theorem cut_path (path : Path edge root p d) : Path edge' root q i ↔ Path edge root q i ∧ ¬ p ++ [c] <+: q := by
  constructor
  · intro along
    induction along with
    | start => exact ⟨.start,by simp⟩
    | step _ taken ih =>
        obtain ⟨old,other⟩ := (cut _ _ _).mp taken
        obtain ⟨before,outside⟩ := ih
        refine ⟨before.step old,fun below => ?_⟩
        rcases List.prefix_concat_iff.mp below with whole | inner
        · obtain ⟨rfl,rfl⟩ := List.append_singleton_inj.mp whole
          exact other ⟨before.det named path,rfl⟩
        · exact outside inner
  · intro post
    obtain ⟨along,outside⟩ := post
    induction along with
    | start => exact .start
    | step before taken ih =>
        refine (ih fun inner => outside (inner.trans (List.prefix_append _ _))).step ((cut _ _ _).mpr ⟨taken,?_⟩)
        intro post
        obtain ⟨rfl,rfl⟩ := post
        obtain rfl := before.unique named path
        exact outside (List.prefix_refl _)

end cut

end Forest
