import Mathlib.Data.List.Basic
import Mathlib.Logic.Function.Basic

-- Arrays of slots that are searched from the front: a slot has a key or is free.
namespace Slots

variable {α κ : Type} {key : α → Option κ} {l : List α} {x blank : α} {k k' : κ} {i j : Nat}

-- The first free slot, or their number.
def vacancy (key : α → Option κ) (l : List α) : Nat := l.findIdx (key · = none)

def add (key : α → Option κ) (l : List α) (x : α) : List α :=
  if vacancy key l < l.length then l.set (vacancy key l) x else l ++ [x]

-- No key is in two slots.
def Distinct (key : α → Option κ) (l : List α) : Prop :=
  ∀ (i j : Nat) (k : κ), l[i]?.bind key = some k → l[j]?.bind key = some k → i = j

theorem distinct_nil (key : α → Option κ) : Distinct key [] := fun _ _ _ used => by cases used

theorem vacancy_le (key : α → Option κ) (l : List α) : vacancy key l ≤ l.length := List.findIdx_le_length

theorem getElem?_add (key : α → Option κ) (l : List α) (x : α) (i : Nat) :
    (add key l x)[i]? = if i = vacancy key l then some x else l[i]? := by
  have high := vacancy_le key l
  unfold add
  split
  · rename_i inside
    by_cases here : i = vacancy key l
    · subst here
      rw [List.getElem?_set_self inside,if_pos rfl]
    · rw [List.getElem?_set_ne (Ne.symm here),if_neg here]
  · rename_i outside
    have last : vacancy key l = l.length := by omega
    rw [last]
    by_cases here : i = l.length
    · subst here
      rw [List.getElem?_concat_length,if_pos rfl]
    · rw [if_neg here]
      rcases Nat.lt_or_gt_of_ne here with before | after
      · exact List.getElem?_append_left before
      · rw [List.getElem?_eq_none (by simp; omega),List.getElem?_eq_none (Nat.le_of_lt after)]

theorem vacancy_free (key : α → Option κ) (l : List α) : l[vacancy key l]?.bind key = none := by
  by_cases inside : vacancy key l < l.length
  · have free := List.findIdx_getElem (p := (key · = none)) (w := inside)
    rw [List.getElem?_eq_getElem inside]
    exact of_decide_eq_true free
  · rw [List.getElem?_eq_none (Nat.le_of_not_lt inside)]
    rfl

-- What is in use stays in its slot.
theorem add_keeps (used : l[i]?.bind key = some k) : (add key l x)[i]? = l[i]? := by
  rw [getElem?_add,if_neg]
  intro here
  rw [here,vacancy_free] at used
  cases used

variable [DecidableEq κ]

def place (key : α → Option κ) (l : List α) (k : κ) : Nat := l.findIdx (key · = some k)

def find (key : α → Option κ) (l : List α) (k : κ) : Option α := l.find? (key · = some k)

def drop (key : α → Option κ) (l : List α) (k : κ) (blank : α) : List α := l.set (place key l k) blank

theorem place_key (inside : place key l k < l.length) : l[place key l k]?.bind key = some k := by
  have found := List.findIdx_getElem (p := (key · = some k)) (w := inside)
  rw [List.getElem?_eq_getElem inside]
  exact of_decide_eq_true found

theorem getElem?_drop (key : α → Option κ) (l : List α) (k : κ) (blank : α) (i : Nat) :
    (drop key l k blank)[i]? = if i = place key l k ∧ i < l.length then some blank else l[i]? := by
  unfold drop
  by_cases here : i = place key l k
  · subst here
    by_cases inside : place key l k < l.length
    · rw [List.getElem?_set_self inside,if_pos ⟨rfl,inside⟩]
    · rw [List.set_eq_of_length_le (Nat.le_of_not_lt inside),if_neg (fun both => inside both.2)]
  · rw [List.getElem?_set_ne (Ne.symm here),if_neg (fun both => here both.1)]

theorem drop_keeps (used : l[i]?.bind key = some k') (other : k' ≠ k) : (drop key l k blank)[i]? = l[i]? := by
  rw [getElem?_drop,if_neg]
  intro both
  obtain ⟨rfl,inside⟩ := both
  rw [place_key inside] at used
  exact other (Option.some.inj used).symm

theorem find_none : find key l k = none ↔ ∀ i : Nat, l[i]?.bind key ≠ some k := by
  unfold find
  rw [List.find?_eq_none]
  constructor
  · intro absent i used
    obtain ⟨x,slot,named⟩ := Option.bind_eq_some_iff.mp used
    exact absent x (List.mem_of_getElem? slot) (decide_eq_true named)
  · intro absent x member named
    obtain ⟨i,slot⟩ := List.mem_iff_getElem?.mp member
    apply absent i
    rw [slot]
    exact of_decide_eq_true named

theorem drop_absent (absent : find key l k = none) (blank : α) : drop key l k blank = l := by
  unfold drop
  apply List.set_eq_of_length_le
  have missed := List.find?_eq_none.mp absent
  apply Nat.le_of_eq
  symm
  apply List.findIdx_eq_length.mpr
  intro x member
  simpa using missed x member

theorem find_some (distinct : Distinct key l) : find key l k = some x ↔ ∃ i : Nat, l[i]? = some x ∧ key x = some k := by
  unfold find
  constructor
  · intro found
    obtain ⟨i,slot⟩ := List.mem_iff_getElem?.mp (List.mem_of_find?_eq_some found)
    have named := List.find?_some found
    exact ⟨i,slot,of_decide_eq_true named⟩
  · intro post
    obtain ⟨i,slot,named⟩ := post
    cases found : l.find? (key · = some k) with
    | none =>
        have missed := List.find?_eq_none.mp found x (List.mem_of_getElem? slot)
        exact absurd (decide_eq_true named) missed
    | some y =>
        obtain ⟨j,slot'⟩ := List.mem_iff_getElem?.mp (List.mem_of_find?_eq_some found)
        have named' := List.find?_some found
        have named' : key y = some k := of_decide_eq_true named'
        have same := distinct i j k (by rw [slot]; exact named) (by rw [slot']; exact named')
        subst same
        rw [slot] at slot'
        exact slot'.symm

theorem distinct_add (distinct : Distinct key l) (named : key x = some k) (new : find key l k = none) :
    Distinct key (add key l x) := by
  intro i j k' one two
  rw [getElem?_add] at one two
  have absent := find_none.mp new
  have mine : ∀ k'', (some x).bind key = some k'' → k = k'' := fun k'' same =>
    Option.some.inj (named.symm.trans same)
  by_cases first : i = vacancy key l
  · rw [if_pos first] at one
    by_cases second : j = vacancy key l
    · exact first.trans second.symm
    · rw [if_neg second] at two
      rw [← mine k' one] at two
      exact absurd two (absent j)
  · rw [if_neg first] at one
    by_cases second : j = vacancy key l
    · rw [if_pos second] at two
      rw [← mine k' two] at one
      exact absurd one (absent i)
    · rw [if_neg second] at two
      exact distinct i j k' one two

theorem distinct_drop (distinct : Distinct key l) (null : key blank = none) (k : κ) : Distinct key (drop key l k blank) := by
  have old : ∀ (i : Nat) (k' : κ), (drop key l k blank)[i]?.bind key = some k' → l[i]?.bind key = some k' := by
    intro i k' used
    rw [getElem?_drop] at used
    split at used
    · rw [Option.bind_some,null] at used
      cases used
    · exact used
  exact fun i j k' one two => distinct i j k' (old i k' one) (old j k' two)

theorem find_add (distinct : Distinct key l) (named : key x = some k) (new : find key l k = none) (k' : κ) :
    find key (add key l x) k' = if k' = k then some x else find key l k' := by
  have after := distinct_add distinct named new
  by_cases same : k' = k
  · subst same
    rw [if_pos rfl,find_some after]
    exact ⟨vacancy key l,by rw [getElem?_add,if_pos rfl],named⟩
  rw [if_neg same]
  cases found : find key l k' with
  | some y =>
      obtain ⟨i,slot,named'⟩ := (find_some distinct).mp found
      rw [find_some after]
      exact ⟨i,by rw [add_keeps (by rw [slot]; exact named'),slot],named'⟩
  | none =>
      rw [find_none]
      intro i used
      rw [getElem?_add] at used
      split at used
      · exact same (Option.some.inj (named.symm.trans used)).symm
      · exact find_none.mp found i used

theorem find_drop (distinct : Distinct key l) (null : key blank = none) (k k' : κ) :
    find key (drop key l k blank) k' = if k' = k then none else find key l k' := by
  have after := distinct_drop distinct null k
  by_cases same : k' = k
  · subst same
    rw [if_pos rfl,find_none]
    intro i used
    rw [getElem?_drop] at used
    split at used
    · rw [Option.bind_some,null] at used
      cases used
    · rename_i away
      obtain ⟨x,slot,named⟩ := Option.bind_eq_some_iff.mp used
      have inside := (List.getElem?_eq_some_iff.mp slot).1
      have first : place key l k' < l.length :=
        List.findIdx_lt_length.mpr ⟨x,List.mem_of_getElem? slot,decide_eq_true named⟩
      exact away ⟨distinct i _ k' used (place_key first),inside⟩
  rw [if_neg same]
  cases found : find key l k' with
  | some y =>
      obtain ⟨i,slot,named⟩ := (find_some distinct).mp found
      rw [find_some after]
      exact ⟨i,by rw [drop_keeps (by rw [slot]; exact named) same,slot],named⟩
  | none =>
      rw [find_none]
      intro i used
      rw [getElem?_drop] at used
      split at used
      · rw [Option.bind_some,null] at used
        cases used
      · exact find_none.mp found i used

end Slots
