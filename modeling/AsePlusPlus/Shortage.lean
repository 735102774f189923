import AsePlusPlus.Formatting
import AsePlusPlus.Indirect
import AsePlusPlus.Writing

namespace AsePlusPlus
open Words Program

variable {role : Nat → Role} {free : List Nat} {s t : Machine} {inumber fbloc : Word} {fd : FileDesc} {c : Byte}

-- Blocs that the layout of an inode (direct, indirect and double indirect
-- pointers) lacks for a position.
def demand (s : Machine) (i f : Nat) : Nat :=
  if f < 124 then (if s.entryAt i (f+2) = 0 then 1 else 0)
  else if f < 252 then
    if s.entryAt i 126 = 0 then 2 else if s.entryAt (s.entryAt i 126).toNat (f-124) = 0 then 1 else 0
  else
    if s.entryAt i 127 = 0 then 3 else if s.indexOf i f = 0 then 2
    else if s.entryAt (s.indexOf i f).toNat ((f-252)%128) = 0 then 1 else 0

theorem demand_supported (s : Machine) (i : Nat) (reach : Supported f) : demand s i f = needed s i f := by
  unfold demand needed
  by_cases direct : f < 124
  · rw [if_pos direct,if_pos direct,lookup_direct s i direct]
  obtain ⟨low,high⟩ := reach.resolve_left direct
  rw [if_neg direct,if_neg direct,if_neg (by omega),lookup_far s i low high]
  by_cases null : s.entryAt i 127 = 0
  · rw [if_pos null,if_pos null]
  rw [if_neg null,if_neg null]
  by_cases hole : s.indexOf i f = 0
  · rw [if_pos hole,if_pos hole]
  · rw [if_neg hole,if_neg hole,if_neg hole]

-- BLOC_NULL is answered, no bloc in use has changed, and bloc 0 is the superbloc.
structure Harmless (s : Machine) (free : List Nat) (r : Word) (t : Machine) : Prop where
  null : r = blocNull
  kept : ∀ b, b < s.nsec → b ∉ free → t.blk b = s.blk b
  super : Super.decode (t.blk 0) = t.super

-- The same for writec_ifile, whose cursor and size stay where they are.
structure WriteHarmless (s : Machine) (free : List Nat) (fd : FileDesc) (r : Word × FileDesc) (t : Machine) : Prop where
  failure : r.1 = returnFailure
  position : r.2.fdsPos = fd.fdsPos
  size : r.2.fdsSize = fd.fdsSize
  kept : ∀ b, b < s.nsec → b ∉ free → t.blk b = s.blk b
  super : Super.decode (t.blk 0) = t.super

theorem zeros_not_super (magic : t.super.magic = superMagic) (lost : t.blk 0 = zeros 8 512) :
    Super.decode (t.blk 0) ≠ t.super := by
  intro same
  have word : wordAt (t.blk 0) 0 = superMagic := (congrArg Super.magic same).trans magic
  rw [lost,wordAt_zeros] at word
  exact absurd word (by decide)

theorem shortage_supported (layout : Layout s role free) (node : role inumber.toNat = .inode)
    (reach : Supported fbloc.toNat) (short : free.length < demand s inumber.toNat fbloc.toNat) :
    ¬ Returns (vblocOfFbloc inumber fbloc true) s (Harmless s free) := by
  rw [demand_supported s _ reach] at short
  refine Runs.excludes ((runs_vbloc_allocate layout node reach).mono (fun _ _ => id) fun _ _ _ => trivial) ?_
  intro r t result harmless
  obtain ⟨role',free',grew,_,ended⟩ := result
  cases ended with
  | mapped _ _ count => omega
  | short _ _ _ lost => exact zeros_not_super grew.layout.mounted.super lost harmless.super

-- The one case that leaves no trace: bloc 0 is zeroed and restored.
def Restored (s : Machine) (free : List Nat) (f : Nat) : Prop :=
  124 ≤ f ∧ f < 252 ∧ free = [] ∧ s.entryAt 0 (f-124) = 0 ∧ Synced s

theorem shortage_indirect (layout : Layout s role free) (node : role inumber.toNat = .inode)
    (low : 124 ≤ fbloc.toNat) (high : fbloc.toNat < 252) (short : free.length < demand s inumber.toNat fbloc.toNat) :
    Returns (vblocOfFbloc inumber fbloc true) s (Harmless s free) ↔ Restored s free fbloc.toNat := by
  by_cases null : s.entryAt 0 (fbloc.toNat-124) = 0
  swap
  · rw [Returns,runs_vbloc_indirect_word layout node low high (Or.inr null)]
    exact ⟨fun harmless => absurd harmless.null null,fun restored => absurd restored.2.2.2.1 null⟩
  cases free with
  | nil =>
      rw [Returns,runs_vbloc_indirect_full layout node low high null layout.chain.empty]
      have blk : ∀ b, ((((s.load inumber.toNat).load 0).cleared).store 0 (s.blk 0) (.bloc s.currentVolume 0)).blk b =
          s.blk b := by
        intro b
        rw [store_blk]
        by_cases zero : b = 0
        · rw [if_pos zero,zero]
        · rw [if_neg zero]
          exact (store_blk _ _ _ _ _).trans (if_neg zero)
      constructor
      · intro harmless
        have super := harmless.super
        rw [blk] at super
        exact ⟨low,high,rfl,null,super⟩
      · intro post
        obtain ⟨_,_,_,_,synced⟩ := post
        exact ⟨rfl,fun b _ _ => blk b,by rw [blk]; exact synced⟩
  | cons b rest =>
      refine ⟨fun harmless => ?_,fun restored => absurd restored.2.2.1 (by simp)⟩
      obtain ⟨r,t,equal,post⟩ := returns_iff.mp harmless
      have value := ((runs_vbloc_indirect_new layout node low high null).result equal).1
      exact absurd (value.symm.trans post.null) layout.chain.head_ne

-- However it goes on, a write that gets past the test moves the cursor.
theorem runs_writecStore_moves (fd : FileDesc) (s : Machine) :
    Runs (writecStore fd) s (fun r _ => r.2.fdsPos = fd.fdsPos+1) (fun _ _ => True) := by
  have advance : ∀ fd' : FileDesc, (writecAdvance fd').2.fdsPos = fd'.fdsPos+1 := by
    intro fd'
    unfold writecAdvance
    dsimp only
    split <;> rfl
  unfold writecStore
  rw [runs_ite]
  split
  · simp only [runs_bind,runs_pure,advance]
    exact Runs.always fun _ _ => Runs.always fun _ _ => Runs.always fun _ _ => Runs.always fun _ _ =>
      Runs.always fun _ _ => trivial
  · rw [runs_pure]
    exact advance fd

theorem shortage_vbloc (layout : Layout s role free) (node : role inumber.toNat = .inode)
    (short : free.length < demand s inumber.toNat fbloc.toNat) :
    Returns (vblocOfFbloc inumber fbloc true) s (Harmless s free) ↔ Restored s free fbloc.toNat := by
  by_cases reach : Supported fbloc.toNat
  · refine ⟨fun harmless => absurd harmless (shortage_supported layout node reach short),?_⟩
    intro post
    obtain ⟨low,high,_⟩ := post
    unfold Supported at reach
    omega
  by_cases high : fbloc.toNat < 252
  · exact shortage_indirect layout node (by unfold Supported at reach; omega) high short
  · rw [Returns,runs_vbloc_beyond layout node (by unfold Supported at reach; omega)]
    exact ⟨fun harmless => absurd harmless.null (by decide),fun restored => absurd restored.2.1 high⟩

-- writec_ifile fails exactly as the allocation it asks for does.
theorem writec_harmless (clean : fd.fdsDirty = false) :
    Returns (writecIfile fd c) s (WriteHarmless s free fd) ↔
      Returns (vblocOfFbloc fd.fdsInumber (blocOfPos fd.fdsPos) true) s (Harmless s free) := by
  rw [Returns,runs_writec_clean clean]
  refine Runs.congr fun r t => ?_
  by_cases null : r = 0
  · rw [if_pos null]
    exact ⟨fun whole => ⟨null,whole.kept,whole.super⟩,fun whole => ⟨rfl,rfl,rfl,whole.kept,whole.super⟩⟩
  · rw [if_neg null]
    refine ⟨fun ran => absurd ran (Runs.excludes (runs_writecStore_moves _ t) ?_),fun whole => absurd whole.null null⟩
    intro result u moved whole
    have same := moved.symm.trans whole.position
    dsimp only at same
    have wrapped := congrArg BitVec.toNat same
    have one : (1 : Word).toNat = 1 := rfl
    rw [BitVec.toNat_add] at wrapped
    omega

-- A call for which the chain is too short, on a consistent volume: it is harmless
-- exactly when the lookup goes through a sound bloc 0 and the chain is empty.
theorem shortage_harmless_exact (layout : Layout s role free) (node : role inumber.toNat = .inode)
    (short : free.length < demand s inumber.toNat fbloc.toNat)
    (fd : FileDesc) (c : Byte) (own : fd.fdsInumber = inumber) (here : blocOfPos fd.fdsPos = fbloc)
    (clean : fd.fdsDirty = false) :
    (Returns (vblocOfFbloc inumber fbloc true) s (Harmless s free) ↔ Restored s free fbloc.toNat) ∧
    (Returns (writecIfile fd c) s (WriteHarmless s free fd) ↔ Restored s free fbloc.toNat) := by
  subst own here
  exact ⟨shortage_vbloc layout node short,(writec_harmless clean).trans (shortage_vbloc layout node short)⟩

-- A volume of two sectors is full once it is formatted.
theorem full_root : ∃ s, initSuper 0 0 (zeros 8 32) (recordedDisk (volumeOf 2)) = (.ok (),s) ∧
    Layout s (freshRole s.nsec) [] ∧ freshRole s.nsec 1 = .inode ∧ 0 < demand s 1 0 := by
  obtain ⟨s,equal,fresh,size⟩ := volumeOf_fresh (n := 2) (by decide) (by decide) 0 (zeros 8 32)
  have layout := fresh.layout
  have empty : List.range' 2 (s.nsec-2) = [] := by rw [size]; rfl
  rw [empty] at layout
  have null : s.entryAt 1 (0+2) = 0 := (lookup_direct s 1 (by decide)).symm.trans (fresh.unmapped 0)
  have lacks : demand s 1 0 = 1 := (if_pos (by decide)).trans (if_pos null)
  exact ⟨s,equal,layout,Function.update_self _ _ _,Nat.lt_of_lt_of_eq (by decide) lacks.symm⟩

theorem shortage_harmless_root : ∃ s, initSuper 0 0 (zeros 8 32) (recordedDisk (volumeOf 2)) = (.ok (),s) ∧
    ¬ Returns (writecIfile ⟨1,0,0,zeros 8 512,false⟩ 65) s (WriteHarmless s [] ⟨1,0,0,zeros 8 512,false⟩) := by
  obtain ⟨s,equal,layout,node,short⟩ := full_root
  refine ⟨s,equal,fun harmless => ?_⟩
  have exact := shortage_harmless_exact layout (show freshRole s.nsec (1 : Word).toNat = .inode from node)
    (show [].length < demand s (1 : Word).toNat (0 : Word).toNat from short) ⟨1,0,0,zeros 8 512,false⟩ 65 rfl
    (by decide) rfl
  have restored := exact.2.mp harmless
  exact absurd restored.1 (by decide)

-- The first bloc of the root cannot be had, and the superbloc on disk is gone.
theorem shortage_lost : ∃ s, initSuper 0 0 (zeros 8 32) (recordedDisk (volumeOf 2)) = (.ok (),s) ∧
    FreeChain s [] ∧ 0 < demand s 1 0 ∧ ¬ Returns (vblocOfFbloc 1 0 true) s (Harmless s []) := by
  obtain ⟨s,equal,layout,node,short⟩ := full_root
  exact ⟨s,equal,layout.chain,short,shortage_supported layout node (Or.inl (by decide)) short⟩

end AsePlusPlus
