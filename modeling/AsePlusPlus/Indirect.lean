import AsePlusPlus.Vbloc

namespace AsePlusPlus
open Words Program

variable {role : Nat → Role} {free rest : List Nat} {s : Machine} {b : Nat}
variable {inumber fbloc : Word} {doAllocate : Bool} {Q : Word → Machine → Prop} {E : Stop → Machine → Prop}

-- The positions 124..251 are looked up in bloc 0, the superbloc, since no
-- inode ever gets an index bloc for them.
section indirect
variable (layout : Layout s role free) (node : role inumber.toNat = .inode)
variable (low : 124 ≤ fbloc.toNat) (high : fbloc.toNat < 252)
include layout node low high

theorem runs_vbloc_indirect : Runs (vblocOfFbloc inumber fbloc doAllocate) s Q E ↔
    Runs (if s.entryAt 0 (fbloc.toNat-124) = 0 ∧ doAllocate = false then return blocNull else
      blocOrAllocate (s.entryAt 0 (fbloc.toNat-124)) fun bloc => do
        writeBloc (← current) 0 (Table.encode (put (Table.decode (s.blk 0)) (fbloc.toNat-124) bloc)))
      ((s.load inumber.toNat).load 0) Q E := by
  have mounted := layout.mounted
  have inside := (layout.bound node (by simp)).2
  have loaded : Mounted (s.load inumber.toNat) := (load_mounted _ _).mpr mounted
  have zero : (0 : Word).toNat < (s.load inumber.toNat).nsec := Nat.lt_of_lt_of_le (by decide : 0 < 2) mounted.room
  have table : (s.inodeAt inumber.toNat).blocsIndirect = 0 := (layout.blocks _).indirect node
  have offset : (fbloc-124).toNat = fbloc.toNat-124 := by
    have constant : (124 : Word).toNat = 124 := rfl
    rw [BitVec.toNat_sub]
    omega
  have entry := table_entry s 0 (k := fbloc.toNat-124) (by omega)
  rw [vblocOfFbloc_eq,runs_bind,runs_readInode mounted inside,if_neg (by omega),if_pos high]
  simp only [indirectBloc,table,offset,runs_bind,runs_current,runs_readBloc loaded zero]
  rw [show (0 : Word).toNat = 0 from rfl,load_blk,entry]

-- Whatever stands there is returned as a bloc number.
theorem runs_vbloc_indirect_word (settled : doAllocate = false ∨ s.entryAt 0 (fbloc.toNat-124) ≠ 0) :
    Runs (vblocOfFbloc inumber fbloc doAllocate) s Q E ↔
      Q (s.entryAt 0 (fbloc.toNat-124)) ((s.load inumber.toNat).load 0) := by
  rw [runs_vbloc_indirect layout node low high]
  by_cases null : s.entryAt 0 (fbloc.toNat-124) = 0
  · have reading := settled.resolve_right (not_not_intro null)
    rw [if_pos ⟨null,reading⟩,null]
    rfl
  · rw [if_neg (fun both => null both.1),runs_blocOrAllocate_kept null]

-- On a full disk bloc 0 is zeroed and then written back from the copy.
theorem runs_vbloc_indirect_full (null : s.entryAt 0 (fbloc.toNat-124) = 0) (full : s.super.premierLibre = 0) :
    Runs (vblocOfFbloc inumber fbloc true) s Q E ↔
      Q 0 ((((s.load inumber.toNat).load 0).cleared).store 0 (s.blk 0) (.bloc s.currentVolume 0)) := by
  have mounted := layout.mounted
  have loaded : Mounted ((s.load inumber.toNat).load 0) := (load_mounted _ _).mpr ((load_mounted _ _).mpr mounted)
  have cleared : Mounted ((s.load inumber.toNat).load 0).cleared := (store_mounted _ _ _ _).mpr loaded
  have zero : (0 : Word).toNat < s.nsec := Nat.lt_of_lt_of_le (by decide : 0 < 2) mounted.room
  have stores := writeTable_stores (put (Table.decode (s.blk 0)) (fbloc.toNat-124))
    (fun p => encode_table (s.blk 0) p (by omega)) 0 s.currentVolume
  rw [runs_vbloc_indirect layout node low high,null,if_neg (by simp),runs_blocOrAllocate_full loaded full,
    stores 0 _ _ _ cleared zero rfl,putWord_same _ null]
  rfl

end indirect

-- Otherwise the superbloc gets the pointer, and no inode does.
theorem runs_vbloc_indirect_new (layout : Layout s role (b :: rest)) (node : role inumber.toNat = .inode)
    (low : 124 ≤ fbloc.toNat) (high : fbloc.toNat < 252) (null : s.entryAt 0 (fbloc.toNat-124) = 0) :
    Returns (vblocOfFbloc inumber fbloc true) s fun v t => v = s.super.premierLibre ∧ t.blk inumber.toNat = s.blk inumber.toNat := by
  have real := (layout.bound node (by simp)).1
  have apart : inumber.toNat ≠ s.super.premierLibre.toNat := by
    rw [layout.chain.head]
    intro same
    exact layout.not_free node (by simp) (same ▸ List.mem_cons_self ..)
  have quiet := (Quiet.load s inumber.toNat).trans (Quiet.load _ 0)
  have loaded := layout.quiet quiet
  have claimed : Mounted (((s.load inumber.toNat).load 0).claimed (zeros 8 512)) :=
    (store_mounted _ _ _ _).mpr (took_mounted loaded.mounted)
  have zero : (0 : Word).toNat < s.nsec := Nat.lt_of_lt_of_le (by decide : 0 < 2) layout.mounted.room
  have stores := writeTable_stores (put (Table.decode (s.blk 0)) (fbloc.toNat-124))
    (fun p => encode_table (s.blk 0) p (by omega)) 0 s.currentVolume
  rw [Returns,runs_vbloc_indirect layout node low high,null,if_neg (by simp),runs_blocOrAllocate_new loaded,
    stores _ _ _ _ claimed zero rfl]
  refine ⟨rfl,?_⟩
  rw [store_blk,if_neg (by exact real),claimed_blk _ _ real]
  exact if_neg apart

-- Positions that no branch covers answer -1.
theorem runs_vbloc_beyond (layout : Layout s role free) (node : role inumber.toNat = .inode)
    (beyond : 888 ≤ fbloc.toNat) : Runs (vblocOfFbloc inumber fbloc doAllocate) s Q E ↔ Q (-1) (s.load inumber.toNat) := by
  have inside := (layout.bound node (by simp)).2
  rw [vblocOfFbloc_eq,runs_bind,runs_readInode layout.mounted inside,if_neg (by omega),if_neg (by omega),
    if_neg (by omega),runs_pure]

end AsePlusPlus
