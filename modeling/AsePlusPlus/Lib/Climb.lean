import Mathlib.Data.List.Basic
import Mathlib.Tactic.Common

namespace Climb

-- A walk in a tree of names: a step goes up, stays, or goes down to a child.
inductive Way where
  | up
  | stay
  | down
  deriving DecidableEq

variable {α : Type} {f g : α → Way} {a : α} {cs : List α}

def step (f : α → Way) (kept : List α) (c : α) : List α :=
  match f c with
  | .up => kept.dropLast
  | .stay => kept
  | .down => kept ++ [c]

def walk (f : α → Way) (kept cs : List α) : List α := cs.foldl (step f) kept

-- How far above its start a walk gets.
def climbs (f : α → Way) : List α → Nat
  | [] => 0
  | c :: cs =>
    match f c with
    | .up => climbs f cs + 1
    | .stay => climbs f cs
    | .down => climbs f cs - 1

theorem step_up (here : f a = .up) (kept : List α) : step f kept a = kept.dropLast := by rw [step,here]
theorem step_stay (here : f a = .stay) (kept : List α) : step f kept a = kept := by rw [step,here]
theorem step_down (here : f a = .down) (kept : List α) : step f kept a = kept ++ [a] := by rw [step,here]

theorem climbs_up (here : f a = .up) : climbs f (a :: cs) = climbs f cs + 1 := by rw [climbs,here]
theorem climbs_stay (here : f a = .stay) : climbs f (a :: cs) = climbs f cs := by rw [climbs,here]
theorem climbs_down (here : f a = .down) : climbs f (a :: cs) = climbs f cs - 1 := by rw [climbs,here]

theorem walk_cons (kept : List α) : walk f kept (a :: cs) = walk f (step f kept a) cs := rfl

theorem walk_append (kept front rest : List α) : walk f kept (front ++ rest) = walk f (walk f kept front) rest :=
  List.foldl_append

-- A walk removes as much of what it starts from as it climbs above it.
theorem walk_from (kept cs : List α) : walk f kept cs = kept.take (kept.length - climbs f cs) ++ walk f [] cs := by
  induction cs generalizing kept with
  | nil => simp [walk,climbs]
  | cons c cs ih =>
      rw [walk_cons,walk_cons,ih,ih (step f [] c),← List.append_assoc]
      congr 1
      cases here : f c with
      | up =>
          rw [step_up here,step_up here,climbs_up here,List.dropLast_nil,List.take_nil,List.append_nil,
            List.dropLast_eq_take,List.take_take,List.length_take]
          congr 1
          omega
      | stay => rw [step_stay here,step_stay here,climbs_stay here,List.take_nil,List.append_nil]
      | down =>
          rw [step_down here,step_down here,climbs_down here]
          cases above : climbs f cs with
          | zero => simp [List.take_of_length_le]
          | succ n =>
              rw [List.take_append_of_le_length (by simp),List.nil_append,List.length_singleton,
                show 1-(n+1) = 0 by omega,List.take_zero,List.append_nil,List.length_append,List.length_singleton]
              congr 1
              omega

theorem walk_keep (here : f a = .down) (low : climbs f cs = 0) : walk f [] (a :: cs) = a :: walk f [] cs := by
  rw [walk_cons,walk_from,step_down here,low]
  rfl

theorem walk_lose (gone : f a = .down → climbs f cs ≠ 0) : walk f [] (a :: cs) = walk f [] cs := by
  cases here : f a with
  | up => rw [walk_cons,step_up here]; rfl
  | stay => rw [walk_cons,step_stay here]
  | down =>
      have above := gone here
      rw [walk_cons,walk_from,step_down here,List.nil_append,List.length_singleton,show 1-climbs f cs = 0 by omega]
      rfl

theorem walk_sublist (cs : List α) : (walk f [] cs).Sublist cs := by
  induction cs with
  | nil => exact List.Sublist.refl _
  | cons c cs ih =>
      by_cases kept : f c = .down ∧ climbs f cs = 0
      · rw [walk_keep kept.1 kept.2]
        exact ih.cons_cons c
      · rw [walk_lose fun down low => kept ⟨down,low⟩]
        exact ih.cons c

theorem walk_down (cs : List α) : ∀ c ∈ walk f [] cs, f c = .down := by
  induction cs with
  | nil => intro c member; cases member
  | cons c cs ih =>
      by_cases kept : f c = .down ∧ climbs f cs = 0
      · rw [walk_keep kept.1 kept.2]
        exact List.forall_mem_cons.mpr ⟨kept.1,ih⟩
      · rw [walk_lose fun down low => kept ⟨down,low⟩]
        exact ih

-- A walk down only.
theorem walk_names (kept : List α) (names : ∀ c ∈ cs, f c = .down) : walk f kept cs = kept ++ cs := by
  induction cs generalizing kept with
  | nil => exact (List.append_nil kept).symm
  | cons c cs ih =>
      rw [walk_cons,step_down (names c (List.mem_cons_self ..)),ih _ fun d member => names d (List.mem_cons_of_mem c member),
        List.append_assoc]
      rfl

theorem walk_suffix (front rest : List α) : (walk f [] rest).length ≤ (walk f [] (front ++ rest)).length := by
  rw [walk_append,walk_from (walk f [] front) rest,List.length_append]
  exact Nat.le_add_left _ _

-- All that the front of a walk kept is left again by the rest of it.
theorem walk_rest (front rest : List α) : walk f [] (front ++ rest) = walk f [] rest ↔
    (walk f [] front).length ≤ climbs f rest := by
  rw [walk_append,walk_from (walk f [] front) rest]
  constructor
  · intro same
    have long := congrArg List.length same
    rw [List.length_append,List.length_take] at long
    omega
  · intro above
    rw [Nat.sub_eq_zero_of_le above]
    rfl

theorem climbs_same (equal : ∀ c ∈ cs, g c = f c) : climbs g cs = climbs f cs := by
  induction cs with
  | nil => rfl
  | cons c cs ih =>
      have rest := ih fun d member => equal d (List.mem_cons_of_mem c member)
      rw [climbs,climbs,equal c (List.mem_cons_self ..),rest]

-- Two readings of the steps, of which `g` passes some of those by or climbs
-- on them that `f` takes down.
section readings
variable (lower : ∀ c, g c ≠ f c → f c = .down)
include lower

theorem climbs_le (cs : List α) : climbs f cs ≤ climbs g cs := by
  induction cs with
  | nil => exact Nat.le_refl 0
  | cons c cs ih =>
      by_cases same : g c = f c
      · cases here : f c with
        | up => rw [climbs_up here,climbs_up (same.trans here)]; omega
        | stay => rw [climbs_stay here,climbs_stay (same.trans here)]; exact ih
        | down => rw [climbs_down here,climbs_down (same.trans here)]; omega
      · rw [climbs_down (lower c same)]
        cases other : g c with
        | up => rw [climbs_up other]; omega
        | stay => rw [climbs_stay other]; omega
        | down => exact absurd (other.trans (lower c same).symm) same

theorem down_of (here : g a = .down) : f a = .down := by
  by_cases same : g a = f a
  · exact same.symm.trans here
  · exact lower a same

theorem walks_sublist (cs : List α) : (walk g [] cs).Sublist (walk f [] cs) := by
  induction cs with
  | nil => exact List.Sublist.refl _
  | cons c cs ih =>
      by_cases kept : g c = .down ∧ climbs g cs = 0
      · have low := climbs_le lower cs
        rw [walk_keep kept.1 kept.2,walk_keep (down_of lower kept.1) (by omega)]
        exact ih.cons_cons c
      · rw [walk_lose (f := g) fun down low => kept ⟨down,low⟩]
        by_cases named : f c = .down ∧ climbs f cs = 0
        · rw [walk_keep named.1 named.2]
          exact ih.cons c
        · rw [walk_lose fun down low => named ⟨down,low⟩]
          exact ih

theorem walks_same (front rest : List α) (same : walk g [] (front ++ rest) = walk f [] (front ++ rest)) :
    walk g [] rest = walk f [] rest := by
  induction front with
  | nil => exact same
  | cons c front ih =>
      apply ih
      rw [List.cons_append] at same
      have sub := walks_sublist lower (front ++ rest)
      by_cases kept : g c = .down ∧ climbs g (front ++ rest) = 0
      · have low := climbs_le lower (front ++ rest)
        rw [walk_keep kept.1 kept.2,walk_keep (down_of lower kept.1) (by omega)] at same
        exact (List.cons.inj same).2
      · rw [walk_lose (f := g) fun down low => kept ⟨down,low⟩] at same
        by_cases named : f c = .down ∧ climbs f (front ++ rest) = 0
        · rw [walk_keep named.1 named.2] at same
          have long := congrArg List.length same
          have short := sub.length_le
          rw [List.length_cons] at long
          omega
        · rw [walk_lose (f := f) fun down low => named ⟨down,low⟩] at same
          exact same

-- Once the readings differ on a step and the walks are still equal, `f` is
-- strictly less high, and keeps nothing further to the left.
theorem walks_behind (other : g a ≠ f a) (rest : List α) : ∀ front,
    walk g [] (front ++ a :: rest) = walk f [] (front ++ a :: rest) →
    walk f [] (front ++ a :: rest) = walk f [] rest ∧ climbs f (front ++ a :: rest) < climbs g (front ++ a :: rest) := by
  intro front
  have first := lower a other
  induction front with
  | nil =>
      intro same
      rw [List.nil_append] at same ⊢
      have low := climbs_le lower rest
      have gone : walk g [] (a :: rest) = walk g [] rest :=
        walk_lose fun down => absurd (down.trans first.symm) other
      have above : climbs f rest ≠ 0 := by
        intro zero
        have long := congrArg List.length same
        have short := (walks_sublist lower rest).length_le
        rw [gone,walk_keep first zero,List.length_cons] at long
        omega
      refine ⟨walk_lose fun _ => above,?_⟩
      rw [climbs_down first]
      cases here : g a with
      | up => rw [climbs_up here]; omega
      | stay => rw [climbs_stay here]; omega
      | down => exact absurd (here.trans first.symm) other
  | cons c front ih =>
      intro same
      have before := walks_same lower [c] (front ++ a :: rest) same
      obtain ⟨left,less⟩ := ih before
      rw [List.cons_append] at same ⊢
      have kept : f c = .down → climbs f (front ++ a :: rest) ≠ 0 := by
        intro down zero
        have gone : walk g [] (c :: (front ++ a :: rest)) = walk g [] (front ++ a :: rest) :=
          walk_lose fun _ => by omega
        have long := congrArg List.length same
        rw [gone,walk_keep down zero,before,List.length_cons] at long
        omega
      refine ⟨(walk_lose kept).trans left,?_⟩
      cases here : f c with
      | up =>
          have there : g c = .up := by
            by_cases equal : g c = f c
            · exact equal.trans here
            · rw [lower c equal] at here; cases here
          rw [climbs_up here,climbs_up there]
          omega
      | stay =>
          have there : g c = .stay := by
            by_cases equal : g c = f c
            · exact equal.trans here
            · rw [lower c equal] at here; cases here
          rw [climbs_stay here,climbs_stay there]
          exact less
      | down =>
          have some := kept here
          rw [climbs_down here]
          cases there : g c with
          | up => rw [climbs_up there]; omega
          | stay => rw [climbs_stay there]; omega
          | down => rw [climbs_down there]; omega

-- The walks end alike exactly when each step that `g` reads otherwise is left
-- again, with all that was kept before it.
theorem walks_eq (cs : List α) : walk g [] cs = walk f [] cs ↔
    ∀ front a rest, cs = front ++ a :: rest → g a ≠ f a → (walk f [] (front ++ [a])).length ≤ climbs f rest := by
  have split : ∀ front a rest, walk f [] (front ++ a :: rest) = walk f [] rest ↔
      (walk f [] (front ++ [a])).length ≤ climbs f rest := by
    intro front a rest
    rw [← walk_rest,List.append_assoc,List.singleton_append]
  constructor
  · intro same front a rest equal other
    subst equal
    exact (split front a rest).mp (walks_behind lower other rest front same).1
  · intro left
    induction cs with
    | nil => rfl
    | cons c cs ih =>
        have later : ∀ front a rest, cs = front ++ a :: rest → g a ≠ f a → walk f [] (c :: cs) = walk f [] rest := by
          intro front a rest equal other
          subst equal
          exact (split (c :: front) a rest).mpr (left (c :: front) a rest rfl other)
        have same : walk g [] cs = walk f [] cs := by
          apply ih
          intro front a rest equal other
          subst equal
          have longer := walk_suffix (f := f) [c] (front ++ [a])
          exact Nat.le_trans longer (left (c :: front) a rest rfl other)
        by_cases other : g c = f c
        · by_cases named : f c = .down
          · by_cases zero : climbs f cs = 0
            · have none : ∀ a ∈ cs, g a = f a := by
                intro a member
                by_contra differ
                obtain ⟨front,rest,equal⟩ := List.append_of_mem member
                have whole := congrArg List.length (later front a rest equal differ)
                have outer := walk_suffix (f := f) (front ++ [a]) rest
                rw [List.append_assoc,List.singleton_append,← equal] at outer
                rw [walk_keep named zero,List.length_cons] at whole
                omega
              rw [walk_keep named zero,walk_keep (other.trans named) ((climbs_same none).trans zero),same]
            · have high := climbs_le lower cs
              rw [walk_lose fun _ => zero,walk_lose fun _ => by omega,same]
          · rw [walk_lose fun down => absurd down named,walk_lose fun down => absurd (other.symm.trans down) named,same]
        · have gone := (split [] c cs).mpr (left [] c cs rfl other)
          rw [List.nil_append] at gone
          rw [gone,walk_lose fun down => absurd (down.trans (lower c other).symm) other,same]

end readings

end Climb
