import Mathlib.Data.List.Basic
import Mathlib.Data.List.Nodup
import Mathlib.Data.List.Perm.Subperm
import AsePlusPlus.Lib.Chain

namespace Ring

variable {α : Type} {next next' : α → α} {a b c x z : α} {l m cells : List α} {P : α → Prop}

-- Following `next` from `a` meets exactly the cells of the list, in order, and
-- then `b`.
def Leads (next : α → α) : α → List α → α → Prop
  | a,[],b => next a = b
  | a,c :: rest,b => next a = c ∧ Leads next c rest b

-- A circular list, read from its first cell.
def Circular (next : α → α) : List α → Prop
  | [] => False
  | a :: l => Leads next a l a ∧ (a :: l).Nodup

theorem leads_append : Leads next a (l ++ c :: m) b ↔ Leads next a l c ∧ Leads next c m b := by
  induction l generalizing a with
  | nil => exact Iff.rfl
  | cons d rest ih =>
      constructor
      · intro leads
        exact ⟨⟨leads.1,(ih.mp leads.2).1⟩,(ih.mp leads.2).2⟩
      · intro both
        exact ⟨both.1.1,ih.mpr ⟨both.1.2,both.2⟩⟩

theorem leads_snoc : Leads next a (l ++ [c]) b ↔ Leads next a l c ∧ next c = b := leads_append

theorem leads_congr (leads : Leads next a l b) (same : ∀ x ∈ a :: l, next' x = next x) : Leads next' a l b := by
  induction l generalizing a with
  | nil => exact (same a (by simp)).trans leads
  | cons c rest ih =>
      refine ⟨(same a (by simp)).trans leads.1,ih leads.2 fun x member => same x (List.mem_cons_of_mem _ member)⟩

theorem circular_congr (ring : Circular next l) (same : ∀ x ∈ l, next' x = next x) : Circular next' l := by
  cases l with
  | nil => exact ring
  | cons a rest => exact ⟨leads_congr ring.1 same,ring.2⟩

theorem Circular.nodup (ring : Circular next l) : l.Nodup := by
  cases l with
  | nil => exact ring.elim
  | cons a rest => exact ring.2

theorem circular_single : Circular next [a] ↔ next a = a := by
  constructor
  · intro ring
    exact ring.1
  · intro loop
    exact ⟨loop,List.nodup_singleton a⟩

-- The same ring read from another of its cells.
theorem circular_rotate (ring : Circular next (a :: (l ++ b :: m))) : Circular next (b :: (m ++ a :: l)) := by
  obtain ⟨leads,nodup⟩ := ring
  obtain ⟨front,back⟩ := leads_append.mp leads
  refine ⟨leads_append.mpr ⟨back,front⟩,?_⟩
  have same : (b :: (m ++ a :: l)).Perm (a :: (l ++ b :: m)) := by
    have swap : (b :: m ++ a :: l).Perm (a :: l ++ b :: m) := List.perm_append_comm
    simpa using swap
  exact same.nodup_iff.mpr nodup

theorem circular_from (ring : Circular next cells) (member : a ∈ cells) :
    ∃ l, Circular next (a :: l) ∧ ∀ x, x ∈ a :: l ↔ x ∈ cells := by
  obtain ⟨front,back,rfl⟩ := List.append_of_mem member
  cases front with
  | nil => exact ⟨back,ring,fun x => Iff.rfl⟩
  | cons b rest =>
      refine ⟨back ++ b :: rest,circular_rotate ring,fun x => ?_⟩
      have same : (a :: back ++ b :: rest).Perm (b :: rest ++ a :: back) := List.perm_append_comm
      exact same.mem_iff

-- The cells met from the first one's successor on: the others, then the first.
theorem circular_turn (ring : Circular next (a :: l)) : Circular next (l ++ [a]) ∧ (l ++ [a]).head? = some (next a) := by
  cases l with
  | nil => exact ⟨ring,congrArg some ring.1.symm⟩
  | cons b rest =>
      have turned : Circular next (b :: (rest ++ a :: [])) := circular_rotate (l := []) ring
      exact ⟨turned,congrArg some ring.1.1.symm⟩

-- A new cell behind the first.
theorem circular_insert (ring : Circular next (a :: l)) (fresh : b ∉ a :: l) (first : next' a = b) (new : next' b = next a)
    (same : ∀ x ∈ l, next' x = next x) : Circular next' (a :: b :: l) := by
  obtain ⟨leads,nodup⟩ := ring
  refine ⟨⟨first,?_⟩,?_⟩
  · cases l with
    | nil => exact new.trans leads
    | cons c rest => exact ⟨new.trans leads.1,leads_congr leads.2 same⟩
  · rw [List.nodup_cons] at nodup ⊢
    rw [List.mem_cons,not_or] at fresh
    refine ⟨?_,List.nodup_cons.mpr ⟨fresh.2,nodup.2⟩⟩
    rw [List.mem_cons,not_or]
    exact ⟨Ne.symm fresh.1,nodup.1⟩

-- The cell before the first is the last one.
theorem circular_apart (ring : Circular next (a :: (l ++ [z]))) : z ≠ a := by
  intro equal
  exact (List.nodup_cons.mp ring.nodup).1 (equal ▸ List.mem_append_right l (List.mem_singleton.mpr rfl))

-- Unlinking the first cell from a ring of several.
theorem circular_cut (ring : Circular next (a :: (l ++ [z]))) (last : next' z = next a) (same : ∀ x ∈ l, next' x = next x) :
    Circular next' (l ++ [z]) ∧ (l ++ [z]).head? = some (next a) := by
  obtain ⟨leads,nodup⟩ := ring
  have rest := (List.nodup_cons.mp nodup).2
  cases l with
  | nil =>
      have first : next a = z := leads.1
      exact ⟨circular_single.mpr (last.trans first),congrArg some first.symm⟩
  | cons b m =>
      have first : next a = b := leads.1
      refine ⟨⟨leads_snoc.mpr ⟨leads_congr (leads_snoc.mp leads.2).1 same,last.trans first⟩,rest⟩,congrArg some first.symm⟩

theorem leads_until (leads : Leads next a l z) (apart : z ∉ a :: l) : Chain.Linked next z a (a :: l) := by
  induction l generalizing a with
  | nil => exact ⟨rfl,fun equal => apart (by simp [equal]),leads⟩
  | cons b rest ih =>
      rw [List.mem_cons,not_or] at apart
      refine ⟨rfl,Ne.symm apart.1,?_⟩
      rw [leads.1]
      exact ih leads.2 apart.2

-- The way around the ring from its first cell up to a later one.
theorem circular_until (ring : Circular next (l ++ z :: m)) (first : (l ++ z :: m).head? = some a) : Chain.Linked next z a l := by
  cases l with
  | nil => exact (Option.some.inj first).symm
  | cons b rest =>
      cases first
      obtain ⟨leads,nodup⟩ := ring
      refine leads_until (leads_append.mp leads).1 ?_
      intro member
      have apart : ((a :: rest) ++ z :: m).Nodup := nodup
      exact (List.nodup_append.mp apart).2.2 z member z List.mem_cons_self rfl

theorem leads_closed (leads : Leads next a l b) (member : x ∈ a :: l) : next x ∈ l ++ [b] := by
  induction l generalizing a with
  | nil =>
      rw [List.mem_singleton.mp member]
      exact List.mem_singleton.mpr leads
  | cons c rest ih =>
      rcases List.mem_cons.mp member with first | later
      · rw [first,leads.1]
        exact List.mem_cons_self
      · exact List.mem_cons_of_mem c (ih leads.2 later)

theorem circular_closed (ring : Circular next l) (member : x ∈ l) : next x ∈ l := by
  cases l with
  | nil => cases member
  | cons a rest =>
      rcases List.mem_append.mp (leads_closed ring.1 member) with later | back
      · exact List.mem_cons_of_mem a later
      · rw [List.mem_singleton.mp back]
        exact List.mem_cons_self

-- No list without repetition is longer than what it is drawn from.
theorem nodup_bound {n : Nat} {l : List Nat} (nodup : l.Nodup) (allocated : ∀ x ∈ l, x < n) : l.length ≤ n := by
  have inside : l ⊆ List.range n := fun x member => List.mem_range.mpr (allocated x member)
  have short := (nodup.subperm inside).length_le
  rwa [List.length_range] at short

-- The first cell of a list with a property.
theorem first_of [DecidablePred P] (some : ∃ c ∈ cells, P c) : ∃ l c m, cells = l ++ c :: m ∧ (∀ x ∈ l, ¬ P x) ∧ P c := by
  induction cells with
  | nil => simp at some
  | cons a rest ih =>
      by_cases here : P a
      · exact ⟨[],a,rest,rfl,by simp,here⟩
      obtain ⟨c,member,holds⟩ := some
      have later : ∃ c ∈ rest, P c := by
        rcases List.mem_cons.mp member with head | tail
        · exact absurd (head ▸ holds) here
        · exact ⟨c,tail,holds⟩
      obtain ⟨l,d,m,equal,before,found⟩ := ih later
      refine ⟨a :: l,d,m,by rw [equal,List.cons_append],?_,found⟩
      intro x inside
      rcases List.mem_cons.mp inside with head | tail
      · rw [head]
        exact here
      · exact before x tail

end Ring
