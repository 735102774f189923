import AsePlusPlus.MapRuns
import AsePlusPlus.Same

namespace AsePlusPlus
open Words Program

-- The blocs that the pointers of inode_s can lead to.
def capacity : Nat := 124+128+128*128

-- The bloc that an inode and its tables have for a position of the file.
def Machine.mapped (s : Machine) (i f : Nat) : Word :=
  if f < 124 then
    s.entryAt i (f+2)
  else if f < 124+128 then
    if s.entryAt i 126 = 0 then 0 else s.entryAt (s.entryAt i 126).toNat (f-124)
  else if f < capacity then
    if s.indexOf i f = 0 then 0 else s.entryAt (s.indexOf i f).toNat ((f-252)%128)
  else
    0

-- What the capacity of a file means for one position, where blocs are left.
structure Bounded (s : Machine) (i f : Word) : Prop where
  accepts : f.toNat < capacity → Returns (vblocOfFbloc i f true) s fun r t => r ≠ 0 ∧ r.toNat < t.nsec ∧ t.mapped i.toNat f.toNat = r
  refuses : capacity ≤ f.toNat → ∀ doAllocate, Returns (vblocOfFbloc i f doAllocate) s fun r t => r = blocNull ∧ Same s t
  write : capacity ≤ f.toNat → ∀ fd c, fd.fdsInumber = i → blocOfPos fd.fdsPos = f → fd.fdsDirty = false →
    Returns (writecIfile fd c) s fun r t => r.1 = returnFailure ∧ Same s t

variable {role : Nat → Role} {free : List Nat} {s t : Machine} {i f r : Word}

theorem mapped_supported (s : Machine) (i : Nat) {f : Nat} (reach : Supported f) : s.mapped i f = s.lookup i f := by
  unfold Machine.mapped
  rcases reach with direct | far
  · rw [if_pos direct,lookup_direct s i direct]
  · rw [if_neg (by omega),if_neg (by omega),if_pos (by unfold capacity; omega),lookup_far s i far.1 far.2]

theorem mapped_indirect {i f : Nat} (low : 124 ≤ f) (high : f < 252) (none : s.entryAt i 126 = 0) : s.mapped i f = 0 := by
  unfold Machine.mapped
  rw [if_neg (by omega),if_pos (by omega),if_pos none]

-- Between the direct pointers and the double indirect table nothing is mapped.
theorem indirect_refused (layout : Layout s role free) (node : role i.toNat = .inode) (room : free ≠ [])
    (low : 124 ≤ f.toNat) (high : f.toNat < 252) : ¬ Bounded s i f := by
  intro bounded
  obtain ⟨r,t,equal,live,_,mapped⟩ := returns_iff.mp (bounded.accepts (by unfold capacity; omega))
  have none : s.entryAt i.toNat 126 = 0 := (layout.blocks i.toNat).indirect node
  have kept : t.blk i.toNat = s.blk i.toNat := by
    by_cases null : s.entryAt 0 (f.toNat-124) = 0
    · cases free with
      | nil => exact absurd rfl room
      | cons b rest => exact ((runs_vbloc_indirect_new layout node low high null).result equal).2
    · have quiet := Runs.exact (fun _ => runs_vbloc_indirect_word layout node low high (Or.inr null)) equal
      rw [quiet.2]
      rfl
  have empty : t.entryAt i.toNat 126 = 0 := by
    unfold Machine.entryAt at none ⊢
    rw [kept]
    exact none
  rw [mapped_indirect low high empty] at mapped
  exact live mapped.symm

-- Behind it the answer is -1, not BLOC_NULL and no bloc either.
theorem beyond_refused (layout : Layout s role free) (node : role i.toNat = .inode) (beyond : 888 ≤ f.toNat) : ¬ Bounded s i f := by
  intro bounded
  by_cases far : capacity ≤ f.toNat
  · have refused := bounded.refuses far true
    rw [Returns,runs_vbloc_beyond layout node beyond] at refused
    exact absurd refused.1 (by decide)
  · have accepted := bounded.accepts (by omega)
    rw [Returns,runs_vbloc_beyond layout node beyond] at accepted
    have inside := accepted.2.1
    have fits := layout.mounted.fits
    have nsec : (s.load i.toNat).nsec = s.nsec := rfl
    have value : (-1 : Word).toNat = 4294967295 := rfl
    omega

theorem capacity_exact (layout : Layout s role free) (node : role i.toNat = .inode) (room : 3 ≤ free.length) :
    Bounded s i f ↔ Supported f.toNat := by
  constructor
  · intro bounded
    by_contra outside
    unfold Supported at outside
    by_cases high : f.toNat < 252
    · refine indirect_refused layout node ?_ (by omega) high bounded
      intro empty
      rw [empty] at room
      exact absurd room (by decide)
    · exact beyond_refused layout node (by omega) bounded
  · intro reach
    have below : f.toNat < capacity := by
      unfold Supported at reach
      unfold capacity
      omega
    refine ⟨fun _ => ?_,fun far => by omega,fun far => by omega⟩
    refine (runs_vbloc_allocate layout node reach).mono ?_ (fun _ _ => id)
    intro r t ended
    obtain ⟨role',free',grew,value,ended⟩ := ended
    cases ended with
    | mapped live _ _ =>
        refine ⟨live,?_,?_⟩
        · rw [value] at live ⊢
          exact (grew.layout.lookup_inside (grew.node node) live).2
        · rw [mapped_supported t i.toNat reach,value]
    | short _ _ lack _ =>
        have few := needed_le s i.toNat f.toNat
        omega

-- The first position of the root of a fresh volume, and the first one that the
-- double indirect table has and the code does not.
theorem capacity_exact_first : ∃ s, initSuper 0 0 (zeros 8 32) (recordedDisk (volumeOf 64)) = (.ok (),s) ∧
    (Bounded s 1 0 ↔ Supported (0 : Word).toNat) := by
  obtain ⟨s,equal,fresh,size⟩ := volumeOf_fresh (n := 64) (by decide) (by decide) 0 (zeros 8 32)
  have node : freshRole s.nsec (1 : Word).toNat = .inode := fresh.tracked.nodes 1 (by simp)
  refine ⟨s,equal,capacity_exact fresh.layout node ?_⟩
  rw [List.length_range',size]
  decide

theorem capacity_short : ∃ s, initSuper 0 0 (zeros 8 32) (recordedDisk (volumeOf 64)) = (.ok (),s) ∧ ¬ Bounded s 1 888 := by
  obtain ⟨s,equal,fresh,_⟩ := volumeOf_fresh (n := 64) (by decide) (by decide) 0 (zeros 8 32)
  have node : freshRole s.nsec (1 : Word).toNat = .inode := fresh.tracked.nodes 1 (by simp)
  exact ⟨s,equal,beyond_refused fresh.layout node (by decide)⟩

end AsePlusPlus
