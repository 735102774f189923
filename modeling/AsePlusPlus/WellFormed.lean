import AsePlusPlus.Mknfs

namespace AsePlusPlus
open Words Program Chain

variable {m s t u : Machine} {vol numSerie : Word} {nom : Vector Byte 32} {b : Nat}

-- What init_super of a volume makes of the machine `m`.
structure WellFormed (m : Machine) (vol : Word) (s : Machine) : Prop where
  volume : s.currentVolume = vol
  table : s.mbr = Mbr.decode (m.hda.sectors 0)
  root : s.super.rootInumber = 1
  directory : s.inodeAt 1 = Inode.fresh .directory
  chain : Linked s.nextFree 0 s.super.premierLibre.toNat (List.range' 2 (s.nsec-2))
  magic : ∀ b, 2 ≤ b → b < s.nsec → s.entryAt b 0 = blocMagic
  count : s.super.nbBlocLibre.toNat = s.nsec-2
  synced : Super.decode (s.blk 0) = s.super
  calls : ∃ calls, s.journal = calls ++ m.journal ∧ ∀ call ∈ calls, call.volume = vol ∧ call.target < s.nsec
  outside : ∀ p, p < s.start ∨ s.start + s.nsec ≤ p → s.hda.sectors p = m.hda.sectors p

-- Every bloc that init_super writes is one of the volume.
theorem formatted_inside (room : 2 ≤ s.nsec) (written : s.Formatted b) : b < s.nsec := by
  rcases written with chained | ⟨_,zero | ⟨one,_⟩⟩
  · have high := chained.2.1
    omega
  · omega
  · omega

theorem sited_read (sited : Sited m vol) : m.recorded = Mbr.decode (m.hda.sectors 0) := by
  unfold Machine.recorded
  rw [if_neg (not_not.mpr sited.magic)]

-- The blocs of a volume that lies on the disk are sought at their linear position.
theorem sited_seek (sited : Sited m vol) (inside : b < (m.opened vol).nsec) : (m.opened vol).vol.seek b = (m.opened vol).start+b := by
  have fits : (m.opened vol).start + (m.opened vol).nsec ≤ 32768 := by
    unfold Machine.start Machine.nsec Machine.vol Machine.opened
    rw [sited_read sited]
    exact sited.fits
  unfold Vol.seek
  change ((m.opened vol).start+b) % 2097152 = _
  omega

-- load_super, also of a program that starts later, gives super back.
theorem WellFormed.reload (formed : WellFormed m vol s) (mounted : Mounted s) (table : t.mbr = s.mbr)
    (disk : t.hda.sectors = s.hda.sectors) :
    Returns (loadSuper vol) t fun status u => status = 0 ∧ u.super = s.super ∧ u.currentVolume = vol := by
  have vol_eq : Machine.vol {t with currentVolume := vol} = s.vol := by
    unfold Machine.vol
    rw [table,formed.volume]
  have slotted : Selected {t with currentVolume := vol} := by
    refine ⟨?_,?_⟩
    · rw [table]
      exact mounted.magic
    · rw [← formed.volume]
      exact mounted.slot
  have zero : (0 : Word).toNat = 0 := rfl
  have start : s.vol.seek 0 = s.start := by
    have fits := mounted.fits
    have room := mounted.room
    unfold Vol.seek
    change (s.start+0) % 2097152 = _
    omega
  have reading := runs_readNbloc_at (b := 0) slotted (show 512 ≠ 0 by decide)
  rw [vol_eq,zero,start] at reading
  unfold loadSuper
  rw [Returns,runs_bind,runs_modify,runs_bind]
  refine reading.mono ?_ ?_
  · intro buf u read
    obtain ⟨_,value,writes,_⟩ := read
    have superbloc : buf = s.blk 0 := by
      rw [value,build_cell,disk]
      rfl
    have super : Super.decode buf = s.super := by
      rw [superbloc]
      exact formed.synced
    simp only [runs_bind,runs_modify,runs_get,runs_ensure,runs_pure]
    rw [super,if_pos mounted.super]
    exact ⟨trivial,rfl,writes.volume⟩
  · intro _ _ stopped
    have fits := mounted.fits
    have room := mounted.room
    omega

theorem format_well_formed (sited : Sited m vol) (numSerie : Word) (nom : Vector Byte 32) :
    Returns (initSuper vol numSerie nom) m fun _ s => WellFormed m vol s ∧
      ∀ t, t.mbr = s.mbr → t.hda.sectors = s.hda.sectors →
        Returns (loadSuper vol) t fun status u => status = 0 ∧ u.super = s.super ∧ u.currentVolume = vol := by
  have selected : Selected (m.opened vol) := by
    refine ⟨?_,sited.slot⟩
    change m.recorded.magicNumber = mbrMagic
    rw [sited_read sited]
    exact sited.magic
  obtain ⟨_,s,equal,fresh,table,volume,_,_,root⟩ := returns_iff.mp (runs_initSuper sited numSerie nom)
  have writes := (initSuper_writes selected numSerie nom).result equal
  have same : s.vol = (m.opened vol).vol := writes.vol
  have nsec : s.nsec = (m.opened vol).nsec := congrArg (fun v : Vol => v.volNsectors.toNat) same
  have layout := fresh.layout
  have inside : ∀ b, (m.opened vol).Formatted b → b < s.nsec := by
    intro b written
    rw [nsec]
    exact formatted_inside (by rw [← nsec]; exact layout.mounted.room) written
  have formed : WellFormed m vol s := by
    refine ⟨volume,table,fresh.root,?_,layout.chain.linked,?_,?_,fresh.synced,?_,?_⟩
    · unfold Machine.inodeAt
      rw [root]
      exact Inode.decode_encode _
    · intro b low high
      exact layout.chain.magic b (List.mem_range'_1.mpr ⟨low,by omega⟩)
    · rw [layout.chain.count,List.length_range']
    · obtain ⟨calls,journal,own,targets⟩ := writes.journal
      exact ⟨calls,journal,fun call member => ⟨own call member,inside _ ((targets _).mpr ⟨call,member,rfl⟩)⟩⟩
    · intro p away
      refine writes.disk p fun b written here => ?_
      have low := inside b written
      rw [nsec] at low
      rw [sited_seek sited low] at here
      have start : s.start = (m.opened vol).start := by
        unfold Machine.start
        rw [same]
      omega
  exact Runs.of_eq equal ⟨formed,fun t table disk => formed.reload layout.mounted table disk⟩

-- A volume with a chain of three blocs.
theorem format_well_formed_five :
    Returns (initSuper 0 7 (zeros 8 32)) (recordedDisk (volumeOf 5)) fun _ s => WellFormed (recordedDisk (volumeOf 5)) 0 s ∧
      ∀ t, t.mbr = s.mbr → t.hda.sectors = s.hda.sectors →
        Returns (loadSuper 0) t fun status u => status = 0 ∧ u.super = s.super ∧ u.currentVolume = 0 := by
  have sited : Sited (recordedDisk (volumeOf 5)) 0 := volumeOf_sited (by decide) (by decide)
  generalize recordedDisk (volumeOf 5) = m at sited ⊢
  exact format_well_formed sited 7 (zeros 8 32)

end AsePlusPlus
