import Mathlib.Data.List.Basic

namespace Chain

variable {α : Type} {next next' : α → α} {nil head : α} {cells : List α}

-- `cells` are met, in order, when `next` is followed from `head` until `nil`.
def Linked (next : α → α) (nil : α) : α → List α → Prop
  | head,[] => head = nil
  | head,cell :: rest => head = cell ∧ cell ≠ nil ∧ Linked next nil (next cell) rest

theorem linked_nil : Linked next nil nil [] := rfl

theorem linked_empty_iff : Linked next nil head [] ↔ head = nil := Iff.rfl

theorem linked_at_nil (chain : Linked next nil nil cells) : cells = [] := by
  cases cells with
  | nil => rfl
  | cons cell rest => exact absurd chain.1.symm chain.2.1

theorem linked_of_ne (chain : Linked next nil head cells) (live : head ≠ nil) :
    ∃ rest, cells = head :: rest ∧ Linked next nil (next head) rest := by
  cases cells with
  | nil => exact absurd chain live
  | cons cell rest => obtain ⟨rfl,_,tail⟩ := chain; exact ⟨rest,rfl,tail⟩

theorem linked_mem_ne (chain : Linked next nil head cells) : ∀ cell ∈ cells, cell ≠ nil := by
  induction cells generalizing head with
  | nil => simp
  | cons cell rest ih =>
      intro other member
      rcases List.mem_cons.mp member with rfl | tail
      · exact chain.2.1
      · exact ih chain.2.2 other tail

-- Only the links of the chain's own cells matter.
theorem linked_congr (chain : Linked next nil head cells) (same : ∀ cell ∈ cells, next' cell = next cell) :
    Linked next' nil head cells := by
  induction cells generalizing head with
  | nil => exact chain
  | cons cell rest ih =>
      refine ⟨chain.1,chain.2.1,?_⟩
      rw [same cell (by simp)]
      exact ih chain.2.2 fun other member => same other (List.mem_cons_of_mem _ member)

theorem linked_unique {others : List α} (one : Linked next nil head cells) (two : Linked next nil head others) :
    cells = others := by
  induction cells generalizing head others with
  | nil =>
      have empty : head = nil := one
      subst head
      exact (linked_at_nil two).symm
  | cons cell rest ih =>
      obtain ⟨rfl,live,tail⟩ := one
      obtain ⟨rest',rfl,tail'⟩ := linked_of_ne two live
      rw [ih tail tail']

theorem linked_suffix (chain : Linked next nil head (front ++ cell :: back)) : Linked next nil cell (cell :: back) := by
  induction front generalizing head with
  | nil => obtain ⟨rfl,live,tail⟩ := chain; exact ⟨rfl,live,tail⟩
  | cons _ _ ih => exact ih chain.2.2

-- A chain that reaches `nil` cannot meet a cell twice: what follows a cell is
-- determined by the cell.
theorem linked_nodup (chain : Linked next nil head cells) : cells.Nodup := by
  induction cells generalizing head with
  | nil => exact List.nodup_nil
  | cons cell rest ih =>
      refine List.nodup_cons.mpr ⟨?_,ih chain.2.2⟩
      intro again
      obtain ⟨front,back,split⟩ := List.append_of_mem again
      have later : Linked next nil cell (cell :: back) := linked_suffix (split ▸ chain.2.2)
      have whole : Linked next nil cell (cell :: rest) := ⟨rfl,chain.2⟩
      have equal := linked_unique whole later
      rw [split] at equal
      have lengths := congrArg List.length equal
      simp at lengths
      omega

-- A cell whose link is itself is never left, so no chain passes through it.
theorem linked_not_loop (chain : Linked next nil head cells) (loop : next cell = cell) : cell ∉ cells := by
  intro member
  obtain ⟨front,back,rfl⟩ := List.append_of_mem member
  have tail := (linked_suffix chain).2.2
  rw [loop] at tail
  have equal := linked_unique tail (linked_suffix chain)
  exact absurd (congrArg List.length equal) (by simp)

end Chain
