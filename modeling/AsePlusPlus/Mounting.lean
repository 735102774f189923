import AsePlusPlus.Tenure
import AsePlusPlus.WellFormed
import AsePlusPlus.Commands
import AsePlusPlus.Lib.Mirror

namespace AsePlusPlus
open Words Program Trace

variable {role : Nat → Role} {free : List Nat} {s t m : Machine} {v w : Word} {i b q : Nat}

-- Two machines with the same volume mounted, whatever else is on their disks.
structure Alike (s t : Machine) : Prop where
  mbr : t.mbr = s.mbr
  volume : t.currentVolume = s.currentVolume
  super : t.super = s.super
  blocs : ∀ b, b < s.nsec → t.blk b = s.blk b

section alike
variable (alike : Alike s t)
include alike

theorem Alike.vol : t.vol = s.vol := by
  unfold Machine.vol
  rw [alike.mbr,alike.volume]

theorem Alike.start : t.start = s.start := by
  unfold Machine.start
  rw [alike.vol]

theorem Alike.nsec : t.nsec = s.nsec := by
  unfold Machine.nsec
  rw [alike.vol]

theorem Alike.entryAt (inside : b < s.nsec) (k : Nat) : t.entryAt b k = s.entryAt b k := by
  unfold Machine.entryAt
  rw [alike.blocs b inside]

variable (layout : Layout s role free)
include layout

theorem Alike.lookup (node : role i = .inode) (f : Nat) : t.lookup i f = s.lookup i f := by
  refine layout.lookup_same node fun c k _ pointer => alike.entryAt ?_ k
  exact (layout.inside c (pointer_real pointer)).2

theorem Alike.fblock (node : role i = .inode) (f : Nat) : t.fblock i f = s.fblock i f := by
  unfold Machine.fblock
  rw [alike.lookup layout node]
  split
  · rfl
  · rename_i mapped
    exact alike.blocs _ (layout.lookup_inside node mapped).2

theorem Alike.byteAt (node : role i = .inode) : t.byteAt i = s.byteAt i := by
  funext q
  unfold Machine.byteAt
  rw [alike.fblock layout node]

theorem Alike.keeps : Layout t role free := by
  obtain ⟨mounted,chain,vacant,inside,blocks⟩ := layout
  refine ⟨⟨?_,?_,?_,?_,?_⟩,⟨?_,?_,?_,?_⟩,vacant,?_,?_⟩
  · rw [alike.mbr]
    exact mounted.magic
  · rw [alike.volume]
    exact mounted.slot
  · rw [alike.start,alike.nsec]
    exact mounted.fits
  · rw [alike.nsec]
    exact mounted.room
  · rw [alike.super]
    exact mounted.super
  · rw [alike.super]
    refine Chain.linked_congr chain.linked fun b member => ?_
    unfold Machine.nextFree
    rw [alike.blocs b (chain.inside b member)]
  · intro b member
    rw [alike.blocs b (chain.inside b member)]
    exact chain.magic b member
  · intro b member
    rw [alike.nsec]
    exact chain.inside b member
  · rw [alike.super]
    exact chain.count
  · intro b used
    rw [alike.nsec]
    exact inside b used
  · intro b
    by_cases low : b < s.nsec
    · rw [alike.blocs b low]
      exact blocks b
    · have none : role b = .none := by
        by_contra used
        exact low (inside b used).2
      refine ⟨fun node => ?_,fun k _ pointer => ?_⟩
      · rw [none] at node
        cases node
      · rw [none] at pointer
        exact absurd rfl pointer

theorem Alike.isDir (node : role i = .inode) : t.IsDir i ↔ s.IsDir i := by
  unfold Machine.IsDir
  rw [alike.entryAt (layout.bound node (by simp)).2]

theorem Alike.slots (node : role i = .inode) : t.slots i = s.slots i := by
  unfold Machine.slots
  rw [alike.entryAt (layout.bound node (by simp)).2]

theorem Alike.slotAt (node : role i = .inode) (k : Nat) : t.slotAt i k = s.slotAt i k := by
  unfold Machine.slotAt
  rw [alike.byteAt layout node]

theorem Alike.entries (node : role i = .inode) : t.entries i = s.entries i := by
  unfold Machine.entries
  rw [alike.slots layout node]
  exact List.map_congr_left fun k _ => alike.slotAt layout node k

theorem Alike.live {d k : Nat} {e : Entry} : Live t role d k e ↔ Live s role d k e := by
  constructor
  · intro live
    obtain ⟨node,dir,slot,entry,real⟩ := live
    rw [alike.isDir layout node] at dir
    rw [alike.slots layout node] at slot
    rw [alike.slotAt layout node] at entry
    exact ⟨node,dir,slot,entry,real⟩
  · intro live
    obtain ⟨node,dir,slot,entry,real⟩ := live
    exact ⟨node,(alike.isDir layout node).mpr dir,by rw [alike.slots layout node]; exact slot,
      by rw [alike.slotAt layout node]; exact entry,real⟩

theorem Alike.browsable (browsable : Browsable s role) : Browsable t role := by
  refine ⟨?_,fun d node dir => ?_,fun d node dir e member => ?_⟩
  · rw [alike.super]
    exact browsable.root
  · refine (browsable.dirs d node ((alike.isDir layout node).mp dir)).carried ?_ (alike.byteAt layout node) fun f mapped => ?_
    · exact alike.entryAt (layout.bound node (by simp)).2 1
    · rw [alike.lookup layout node]
      exact mapped
  · rw [alike.entries layout node] at member
    exact browsable.nodes d node ((alike.isDir layout node).mp dir) e member

end alike

theorem Alike.ordered (alike : Alike s t) (ordered : Ordered s role free) : Ordered t role free := by
  have layout := ordered.layout
  refine ⟨alike.keeps layout,?_,ordered.synced.imp ?_ id⟩
  · refine ordered.tree.less (alike.browsable layout ordered.tree.toBrowsable) ?_ (alike.live layout).mp
    rw [alike.super]
  · intro synced
    unfold Synced
    rw [alike.blocs 0 (by have room := layout.mounted.room; omega),alike.super]
    exact synced

theorem Alike.step (alike : Alike s t) (layout : Layout s role free) {d : Word} (node : role d.toNat = .inode) (name : List Byte) :
    t.step d name = s.step d name := by
  unfold Machine.step Machine.child
  rw [alike.entries layout node]
  exact if_congr (alike.isDir layout node) rfl rfl

theorem Alike.walk (alike : Alike s t) (ordered : Ordered s role free) {d : Word} (node : role d.toNat = .inode) (names : List (List Byte)) :
    t.walk d names = s.walk d names := by
  induction names generalizing d with
  | nil => rfl
  | cons c names ih =>
      rw [Machine.walk,Machine.walk,alike.step ordered.layout node]
      by_cases none : s.step d (c.take 16) = 0
      · rw [if_pos none,if_pos none]
      · rw [if_neg none,if_neg none]
        exact ih (step_node ordered.tree.toBrowsable node none)

theorem Alike.files (alike : Alike s t) (ordered : Ordered s role free) : t.files = s.files := by
  have layout := ordered.layout
  funext names
  unfold Machine.files
  rw [alike.super,alike.walk ordered ordered.tree.root]
  unfold Machine.nodeAt
  by_cases none : s.walk s.super.rootInumber names = 0
  · rw [if_pos none,if_pos none]
  have node := ordered.walk_node names none
  rw [if_neg none,if_neg none]
  refine if_congr (alike.isDir layout node) rfl ?_
  rw [contents_same (alike.entryAt (layout.bound node (by simp)).2 1) (alike.byteAt layout node)]

-- What mounting a volume would find.
theorem on_mbr (s : Machine) (v : Word) : (s.on v).mbr = s.recorded := rfl
theorem on_volume (s : Machine) (v : Word) : (s.on v).currentVolume = v := rfl

theorem reached_start (fits : s.start + s.nsec ≤ 32768) : reached (s.cylinderOf 0) (s.sectorOf 0) = s.start := by
  have linear := seek_linear s.vol 0
  have zero : (0 : Word).toNat = 0 := rfl
  unfold reached
  rw [out_pair,out_pair]
  have seek : s.vol.seek (0 : Word).toNat = s.start := by
    unfold Vol.seek Machine.start
    unfold Machine.start at fits
    rw [zero]
    omega
  rw [← seek]
  exact linear

-- The place of a volume on the disk, as the table records it.
theorem on_start (s : Machine) (v : Word) : (s.on v).start = 32 * (s.recorded.vol v.toNat).volCylinder.toNat +
    (s.recorded.vol v.toNat).volSector.toNat := rfl
theorem on_nsec (s : Machine) (v : Word) : (s.on v).nsec = (s.recorded.vol v.toNat).volNsectors.toNat := rfl

theorem on_super (fits : (s.on v).start + (s.on v).nsec ≤ 32768) : (s.on v).super = Super.decode (s.hda.sectors (s.on v).start) := by
  have place := reached_start fits
  show Super.decode (s.hda.sectors (reached ((s.on v).cylinderOf 0) ((s.on v).sectorOf 0))) = _
  rw [place]

theorem on_synced (fits : (s.on v).start + (s.on v).nsec ≤ 32768) : Synced (s.on v) := by
  unfold Synced
  rw [on_super fits]
  rfl

theorem on_alike (table : t.recorded = s.recorded) (fits : (s.on v).start + (s.on v).nsec ≤ 32768) (room : 0 < (s.on v).nsec)
    (region : ∀ p, (s.on v).start ≤ p → p < (s.on v).start + (s.on v).nsec → t.hda.sectors p = s.hda.sectors p) :
    Alike (s.on v) (t.on v) := by
  have start : (t.on v).start = (s.on v).start := by rw [on_start,on_start,table]
  have nsec : (t.on v).nsec = (s.on v).nsec := by rw [on_nsec,on_nsec,table]
  refine ⟨table,rfl,?_,fun b inside => ?_⟩
  · rw [on_super fits,on_super (by rw [start,nsec]; exact fits),start]
    exact congrArg Super.decode (region _ (Nat.le_refl _) (by omega))
  · unfold Machine.blk
    rw [start]
    exact region _ (by omega) (by omega)

-- The volume in use is what mounting it again would find.
theorem on_same (table : t.recorded = t.mbr) (synced : Synced t) (fits : t.start + t.nsec ≤ 32768) : Same t (t.on t.currentVolume) := by
  have vol : (t.on t.currentVolume).vol = t.vol := by
    unfold Machine.vol
    rw [on_mbr,on_volume,table]
  have start : (t.on t.currentVolume).start = t.start := by
    unfold Machine.start
    rw [vol]
  have nsec : (t.on t.currentVolume).nsec = t.nsec := by
    unfold Machine.nsec
    rw [vol]
  have super : (t.on t.currentVolume).super = t.super := by
    rw [on_super (by rw [start,nsec]; exact fits),start]
    exact synced
  refine ⟨t.hda.sectors 0,0,t.journal,?_⟩
  have whole : t.on t.currentVolume = {t.read with super := (t.on t.currentVolume).super} := rfl
  rw [whole,super]
  unfold Machine.read
  rw [table]

theorem recorded_same (first : t.hda.sectors 0 = s.hda.sectors 0) : t.recorded = s.recorded := by
  unfold Machine.recorded
  rw [first]

-- mount_volume of a volume that lies on the disk with its superbloc returns.
theorem runs_mounted (layout : Layout (m.on v) role free) : Returns (mountVolume v) m fun _ t => Same (m.on v) t := by
  have mounted := layout.mounted
  have fits := mounted.fits
  have room := mounted.room
  have slotted : Selected {{m.read with currentVolume := v} with currentVolume := v} := ⟨mounted.magic,mounted.slot⟩
  have zero : (0 : Word).toNat = 0 := rfl
  have start : (Machine.vol {{m.read with currentVolume := v} with currentVolume := v}).seek 0 = (m.on v).start := by
    unfold Vol.seek
    change ((m.on v).start+0) % 2097152 = _
    omega
  have reading := runs_readNbloc_at (b := 0) slotted (show 512 ≠ 0 by decide)
  rw [zero,start] at reading
  have returns : Returns (mountVolume v) m fun _ _ => True := by
    unfold mountVolume loadSuper
    rw [Returns,runs_bind,runs_eq (readMbr_exact m),runs_bind,runs_modify,runs_bind,runs_bind,runs_modify,runs_bind]
    refine reading.mono ?_ ?_
    · intro buf u read
      obtain ⟨_,value,_⟩ := read
      have super : Super.decode buf = (m.on v).super := by
        rw [value,build_cell,on_super fits]
        rfl
      simp only [runs_bind,runs_modify,runs_get,runs_ensure,runs_pure]
      rw [super,if_pos mounted.super,if_pos trivial]
      trivial
    · intro _ _ stopped
      omega
  obtain ⟨_,t,equal,_⟩ := returns_iff.mp returns
  exact returns_iff.mpr ⟨_,t,equal,(runs_mounts v m).result equal⟩

abbrev DiskShelf := Store.Shelf Word (List Byte) (List Byte)

-- A volume that mknfs has formatted, and that is in order.
def Usable (s : Machine) (v : Word) : Prop := ∃ role free, Ordered (s.on v) role free

-- A disk whose table records known volumes that lie apart, behind the table. Those
-- that are usable hold the trees of the shelf.
structure Racked (known : Word → Prop) (s : Machine) (h : DiskShelf) : Prop where
  sited : ∀ v, known v → Sited s v
  behind : ∀ v, known v → 0 < (s.on v).start
  apart : ∀ v w, known v → known w → v ≠ w → (s.on v).start + (s.on v).nsec ≤ (s.on w).start ∨
    (s.on w).start + (s.on w).nsec ≤ (s.on v).start
  volumes : ∀ v, known v → Usable s v → h.volumes v = (s.on v).files

-- And a shell that has mounted one of them, between two commands.
structure Working (known : Word → Prop) (s : Machine) (h : DiskShelf) : Prop extends Racked known s h where
  current : known s.currentVolume
  table : s.mbr = s.recorded
  tidied : Tidied s
  mounted : h.mounted = s.currentVolume
  here : h.here = components s.cwd

variable {known : Word → Prop} {h g : DiskShelf}

theorem Sited.extent (sited : Sited s v) : (s.on v).start + (s.on v).nsec ≤ 32768 ∧ 2 ≤ (s.on v).nsec := by
  have fits := sited.fits
  have room := sited.room
  rw [← sited_read sited] at fits room
  exact ⟨fits,room⟩

-- Only the memory and one volume change: the table and the other volumes do not.
theorem Racked.others (racked : Racked known s h) (touched : Word → Prop) (first : t.hda.sectors 0 = s.hda.sectors 0)
    (outside : ∀ v, known v → ¬ touched v → ∀ p, (s.on v).start ≤ p → p < (s.on v).start + (s.on v).nsec →
      t.hda.sectors p = s.hda.sectors p) {files : Word → Store.Files (List Byte) (List Byte)} {mounted : Word} {here : List (List Byte)}
    (kept : ∀ v, known v → ¬ touched v → files v = h.volumes v)
    (new : ∀ v, known v → touched v → Usable t v ∧ files v = (t.on v).files) :
    Racked known t ⟨files,mounted,here⟩ ∧ ∀ v, known v → Usable s v → Usable t v := by
  have table := recorded_same first
  have start : ∀ v, (t.on v).start = (s.on v).start := fun v => by rw [on_start,on_start,table]
  have nsec : ∀ v, (t.on v).nsec = (s.on v).nsec := fun v => by rw [on_nsec,on_nsec,table]
  have alike : ∀ v, known v → ¬ touched v → Alike (s.on v) (t.on v) ∧ Alike (t.on v) (s.on v) := by
    intro v member other
    obtain ⟨fits,room⟩ := (racked.sited v member).extent
    have same := outside v member other
    refine ⟨on_alike table fits (by omega) same,on_alike table.symm ?_ ?_ ?_⟩
    · rw [start,nsec]
      exact fits
    · rw [nsec]
      omega
    · rw [start,nsec]
      exact fun p low high => (same p low high).symm
  refine ⟨⟨fun v member => ?_,fun v member => ?_,fun v w one two => ?_,fun v member usable => ?_⟩,fun v member usable => ?_⟩
  · obtain ⟨magic,slot,fits,room⟩ := racked.sited v member
    rw [← first] at magic fits room
    exact ⟨magic,slot,fits,room⟩
  · rw [start]
    exact racked.behind v member
  · rw [start,start,nsec,nsec]
    exact racked.apart v w one two
  · by_cases here : touched v
    · exact (new v member here).2
    · obtain ⟨on,back⟩ := alike v member here
      obtain ⟨role,free,ordered⟩ := usable
      have before := back.ordered ordered
      rw [on.files before]
      exact (kept v member here).trans (racked.volumes v member ⟨role,free,before⟩)
  · by_cases here : touched v
    · exact (new v member here).1
    · obtain ⟨role,free,ordered⟩ := usable
      exact ⟨role,free,(alike v member here).1.ordered ordered⟩

-- The disk with one volume changed.
theorem Racked.changed (racked : Racked known s h) (member : known w) {files : Store.Files (List Byte) (List Byte)} (mounted : Word)
    (here : List (List Byte)) (outside : ∀ p, p < (s.on w).start ∨ (s.on w).start + (s.on w).nsec ≤ p → t.hda.sectors p = s.hda.sectors p)
    (usable : Usable t w) (there : (t.on w).files = files) :
    Racked known t ⟨Store.replace h.volumes w files,mounted,here⟩ ∧ ∀ v, known v → Usable s v → Usable t v := by
  refine racked.others (· = w) (outside 0 (.inl (racked.behind w member))) ?_ ?_ ?_
  · intro v member' other p low high
    have apart := racked.apart v w member' member other
    exact outside p (by omega)
  · exact fun v _ other => Store.replace_other _ _ other
  · intro v _ same
    rw [same]
    exact ⟨usable,(Store.replace_here ..).trans there.symm⟩

-- Only the memory differs.
theorem Racked.disk (racked : Racked known s h) (sectors : t.hda.sectors = s.hda.sectors) (mounted : Word) (here : List (List Byte)) :
    Racked known t ⟨h.volumes,mounted,here⟩ ∧ ∀ v, known v → Usable s v → Usable t v :=
  racked.others (fun _ => False) (congrFun sectors 0) (fun _ _ _ p _ _ => congrFun sectors p) (fun _ _ _ => rfl)
    fun _ _ wrong => wrong.elim

theorem Racked.mounts (racked : Racked known s h) (disk : m.hda.sectors = s.hda.sectors) (lodged : Lodged m.cwd) (member : known v)
    (usable : Usable s v) (ran : mountVolume v m = (.ok (),t)) :
    Working known t ⟨h.volumes,v,components m.cwd⟩ ∧ ∀ v, known v → Usable s v → Usable t v := by
  obtain ⟨before,carried⟩ := racked.disk disk v (components m.cwd)
  obtain ⟨role,free,ordered⟩ := carried v member usable
  have same := (runs_mounts v m).result ran
  have sectors : t.hda.sectors = m.hda.sectors := same.sectors
  have synced := on_synced (before.sited v member).extent.1
  have kept : Retains (fun _ => True) (m.on v) t role role free free := same.keeps ordered (.inl synced)
  have volume : t.currentVolume = v := same.within.volume
  obtain ⟨after,later⟩ := before.disk sectors v (components m.cwd)
  refine ⟨⟨after,?_,?_,⟨⟨role,free,kept.ordered⟩,same.synced synced,?_⟩,volume.symm,?_⟩,?_⟩
  · rw [volume]
    exact member
  · rw [recorded_same (congrFun sectors 0)]
    exact same.within.mbr
  · exact Lodged.same (s := m.on v) same.cwd lodged
  · rw [same.cwd]
    rfl
  · exact fun w known usable => later w known (carried w known usable)

section working
variable (working : Working known s h)
include working

-- The volume in use is the one that the shelf holds.
theorem Working.here_same : Same s (s.on s.currentVolume) := by
  obtain ⟨⟨_,_,ordered⟩,synced,_⟩ := working.tidied
  exact on_same working.table.symm synced ordered.layout.mounted.fits

theorem Working.session : h.session = s.session := by
  have same := working.here_same
  obtain ⟨⟨role,free,ordered⟩,synced,_⟩ := working.tidied
  have kept : Retains (fun _ => True) s (s.on s.currentVolume) role role free free := same.keeps ordered (.inl synced)
  have files : h.volumes h.mounted = s.files := by
    rw [working.mounted,working.volumes _ working.current ⟨role,free,kept.ordered⟩]
    exact same.files
  unfold Store.Shelf.session Machine.session
  rw [files,working.here]

theorem Working.settles {act : Store.Act (List Byte) (List Byte)} {reply : Store.Reply (List Byte) (List Byte)}
    (settles : Settles s t act reply) : Working known t (h.put t.session) ∧ ∀ v, known v → Usable s v → Usable t v := by
  have same := working.here_same
  have start : (s.on s.currentVolume).start = s.start := same.within.start
  have nsec : (s.on s.currentVolume).nsec = s.nsec := same.within.nsec
  have framed := settles.framed
  have outside : ∀ p, p < (s.on s.currentVolume).start ∨ (s.on s.currentVolume).start + (s.on s.currentVolume).nsec ≤ p →
      t.hda.sectors p = s.hda.sectors p := by
    rw [start,nsec]
    exact framed.outside
  have table := recorded_same (outside 0 (.inl (working.behind _ working.current)))
  obtain ⟨role,free,ordered⟩ := settles.ordered
  have same' : Same t (t.on s.currentVolume) := by
    rw [← framed.volume]
    refine on_same ?_ settles.synced ordered.layout.mounted.fits
    rw [table,framed.mbr]
    exact working.table.symm
  have kept : Retains (fun _ => True) t (t.on s.currentVolume) role role free free := same'.keeps ordered (.inl settles.synced)
  obtain ⟨changed,carried⟩ := working.changed working.current h.mounted (components t.cwd) outside ⟨role,free,kept.ordered⟩ same'.files
  rw [← working.mounted] at changed
  refine ⟨⟨changed,?_,?_,⟨settles.ordered,settles.synced,settles.lodged working.tidied.lodged⟩,?_,rfl⟩,carried⟩
  · rw [framed.volume]
    exact working.current
  · rw [framed.mbr,table]
    exact working.table
  · rw [framed.volume]
    exact working.mounted

end working

theorem Fresh.files (fresh : Fresh s) : s.files = Store.bare := by
  funext names
  unfold Machine.files
  rw [fresh.root]
  cases names with
  | nil => exact nodeAt_directory.mpr ⟨show (1 : Word) ≠ 0 by decide,fresh.directory⟩
  | cons c names =>
      rw [Machine.walk,fresh.step,if_pos rfl]
      exact nodeAt_none.mpr rfl

theorem Racked.formats {numSerie : Word} {nom : Vector Byte 32} (racked : Racked known s h) (disk : m.hda.sectors = s.hda.sectors)
    (lodged : Lodged m.cwd) (member : known v) (ran : initSuper v numSerie nom m = (.ok (),t)) :
    Working known t ⟨Store.replace h.volumes v Store.bare,v,components m.cwd⟩ ∧ (∀ w, known w → Usable s w → Usable t w) ∧ Usable t v := by
  obtain ⟨before,early⟩ := racked.disk disk v (components m.cwd)
  have sited := before.sited v member
  obtain ⟨fresh,table,volume,cwd,_⟩ := (runs_initSuper sited numSerie nom).result ran
  obtain ⟨formed,_⟩ := (format_well_formed sited numSerie nom).result ran
  have table' : t.mbr = m.recorded := by
    rw [sited_read sited]
    exact table
  have vol : t.vol = (m.on v).vol := by
    unfold Machine.vol
    rw [table',volume,on_mbr,on_volume]
  have start : t.start = (m.on v).start := by
    unfold Machine.start
    rw [vol]
  have nsec : t.nsec = (m.on v).nsec := by
    unfold Machine.nsec
    rw [vol]
  have outside := formed.outside
  rw [start,nsec] at outside
  have again := recorded_same (outside 0 (.inl (before.behind v member)))
  have ordered := fresh.ordered
  have same : Same t (t.on v) := by
    rw [← volume]
    exact on_same (again.trans table'.symm) fresh.synced ordered.layout.mounted.fits
  have kept : Retains (fun _ => True) t (t.on v) _ _ _ _ := same.keeps ordered (.inl fresh.synced)
  obtain ⟨changed,late⟩ := before.changed member v (components m.cwd) outside ⟨_,_,kept.ordered⟩ (same.files.trans fresh.files)
  refine ⟨⟨changed,?_,?_,⟨⟨_,_,ordered⟩,fresh.synced,Lodged.same cwd lodged⟩,volume.symm,?_⟩,
    fun w known usable => late w known (early w known usable),_,_,kept.ordered⟩
  · rw [volume]
    exact member
  · rw [again]
    exact table'
  · rw [cwd]

-- What is done with a disk: a command of the shell, its command mount, quitting and
-- mounting in a new shell, or mknfs on a volume.
inductive DiskCall where
  | shell (c : Builtin)
  | mount (volume : Word)
  | start (volume : Word)
  | format (volume numSerie : Word) (nom : Vector Byte 32)

-- exit leaves the process as it is: the next one, `m`, has the disk and nothing else.
inductive DiskStep : Machine → DiskCall × Output → Machine → Prop
  | shell {s t : Machine} {c : Builtin} {r : Output} (taken : Obeys s (c,r) t) : DiskStep s (.shell c,r) t
  | mount {s t : Machine} {volume : Word} (ran : mountVolume volume s = (.ok (),t)) : DiskStep s (.mount volume,.told false) t
  | start {s m t : Machine} {volume : Word} (disk : m.hda.sectors = s.hda.sectors) (cwd : m.cwd = [slash])
      (ran : mountVolume volume m = (.ok (),t)) : DiskStep s (.start volume,.told false) t
  | format {s m t : Machine} {volume numSerie : Word} {nom : Vector Byte 32} (disk : m.hda.sectors = s.hda.sectors)
      (cwd : m.cwd = [slash]) (ran : initSuper volume numSerie nom m = (.ok (),t)) :
      DiskStep s (.format volume numSerie nom,.told false) t

-- A shell command fits as before; what is mounted has been formatted.
def DiskCall.Fits (known : Word → Prop) (s : Machine) : DiskCall → Prop
  | .shell c => c.Fits s
  | .mount volume => known volume ∧ Usable s volume
  | .start volume => known volume ∧ Usable s volume
  | .format volume _ _ => known volume

def DiskCall.act (here : List (List Byte)) : DiskCall → Store.ShelfAct Word (List Byte) (List Byte)
  | .shell c => .act (c.act here)
  | .mount volume => .mount volume
  | .start volume => .start volume
  | .format volume _ _ => .format volume

-- The shelf is asked the same, and the user sees its answer.
def Means (h : DiskShelf) (call : DiskCall × Output) (act : Store.ShelfAct Word (List Byte) (List Byte) × Store.Reply (List Byte) (List Byte)) :
    Prop := act.1 = call.1.act h.here ∧ call.2.Says act.2

theorem lodged_start {cwd : List Byte} (here : cwd = [slash]) : Lodged cwd ∧ components cwd = [] := by
  subst here
  have none : components [slash] = [] := by decide
  refine ⟨⟨⟨rfl,rfl,by decide,by decide⟩,fun c member => ?_⟩,none⟩
  rw [none] at member
  exact absurd member List.not_mem_nil

theorem Working.next {c : DiskCall × Output} (working : Working known s h) (fits : c.1.Fits known s) (taken : DiskStep s c t) :
    ∃ a g, Store.ShelfStep h a g ∧ Means h c a ∧ Working known t g ∧ ∀ v, known v → Usable s v → Usable t v := by
  cases taken with
  | shell taken =>
      rename_i c r
      obtain ⟨reply,settles,said⟩ := taken.mirrored working.tidied fits
      obtain ⟨after,carried⟩ := working.settles settles
      have here : s.session.here = h.here := congrArg Store.Session.here working.session.symm
      refine ⟨(.act (c.act h.here),reply),_,?_,⟨rfl,said⟩,after,carried⟩
      show (_,_) = _
      rw [← here,working.session,settles.answer]
  | mount ran =>
      obtain ⟨member,usable⟩ := fits
      obtain ⟨after,carried⟩ := working.toRacked.mounts rfl working.tidied.lodged member usable ran
      rw [← working.here] at after
      exact ⟨(.mount _,.done),_,rfl,⟨rfl,rfl⟩,after,carried⟩
  | start disk cwd ran =>
      obtain ⟨lodged,root⟩ := lodged_start cwd
      obtain ⟨member,usable⟩ := fits
      obtain ⟨after,carried⟩ := working.toRacked.mounts disk lodged member usable ran
      rw [root] at after
      exact ⟨(.start _,.done),_,rfl,⟨rfl,rfl⟩,after,carried⟩
  | format disk cwd ran =>
      obtain ⟨lodged,root⟩ := lodged_start cwd
      obtain ⟨after,carried,_⟩ := working.toRacked.formats disk lodged fits ran
      rw [root] at after
      exact ⟨(.format _,.done),_,rfl,⟨rfl,rfl⟩,after,carried⟩

-- Whatever fits returns: a shell command, mounting here or in a new process, mknfs.
theorem Working.returns (working : Working known s h) {c : DiskCall} (fits : c.Fits known s) : ∃ r t, DiskStep s (c,r) t := by
  cases c with
  | shell c =>
      obtain ⟨r,t,taken⟩ := c.returns working.tidied fits
      exact ⟨r,t,.shell taken⟩
  | mount volume =>
      obtain ⟨_,role,free,ordered⟩ := fits
      obtain ⟨_,t,equal,_⟩ := returns_iff.mp (runs_mounted ordered.layout)
      exact ⟨_,t,.mount equal⟩
  | start volume =>
      obtain ⟨member,usable⟩ := fits
      obtain ⟨_,carried⟩ := working.toRacked.disk (t := {s with cwd := [slash]}) rfl volume []
      obtain ⟨role,free,ordered⟩ := carried volume member usable
      obtain ⟨_,t,equal,_⟩ := returns_iff.mp (runs_mounted ordered.layout)
      exact ⟨_,t,.start (m := {s with cwd := [slash]}) rfl rfl equal⟩
  | format volume numSerie nom =>
      have sited : Sited {s with cwd := [slash]} volume := by
        obtain ⟨magic,slot,fits,room⟩ := working.sited volume fits
        exact ⟨magic,slot,fits,room⟩
      obtain ⟨_,t,equal,_⟩ := returns_iff.mp (runs_initSuper sited numSerie nom)
      exact ⟨_,t,.format (m := {s with cwd := [slash]}) rfl rfl equal⟩

end AsePlusPlus
