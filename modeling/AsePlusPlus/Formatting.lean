import Mathlib.Algebra.Group.Nat.Defs
import AsePlusPlus.Format
import AsePlusPlus.Vbloc

namespace AsePlusPlus
open Words Program Chain

variable {s t : Machine} {i vol : Word} {count : Nat}

-- The disk holds an MBR whose slot `vol` describes a volume that lies on the
-- disk, with room for the superbloc and a root directory.
structure Sited (m : Machine) (vol : Word) : Prop where
  magic : (Mbr.decode (m.hda.sectors 0)).magicNumber = mbrMagic
  slot : vol.toNat < 8
  fits : 32 * ((Mbr.decode (m.hda.sectors 0)).vol vol.toNat).volCylinder.toNat +
    ((Mbr.decode (m.hda.sectors 0)).vol vol.toNat).volSector.toNat +
    ((Mbr.decode (m.hda.sectors 0)).vol vol.toNat).volNsectors.toNat ≤ 32768
  room : 2 ≤ ((Mbr.decode (m.hda.sectors 0)).vol vol.toNat).volNsectors.toNat

-- What the loop leaves in the blocs `from`..n-1: each links the next one.
structure Chained (s t : Machine) (start : Nat) : Prop where
  within : Within s t
  super : t.super = {s.super with nbBlocLibre := t.super.nbBlocLibre}
  magic : ∀ b, start ≤ b → b < s.nsec → t.entryAt b 0 = blocMagic
  next : ∀ b, start ≤ b → b < s.nsec → (t.entryAt b 1).toNat = if b+1 < s.nsec then b+1 else 0
  kept : ∀ b, b < start → t.blk b = s.blk b

-- One round of the loop.
def Machine.chainNext (s : Machine) (i : Word) : Word := if i.toNat+1 < s.nsec then i+1 else blocNull

def Machine.chainOne (s : Machine) (i : Word) : Machine :=
  (s.store i.toNat (overlay (FreeBloc.mk blocMagic (s.chainNext i)).encode s.hda.master)
    (.nbloc s.currentVolume i 8)).withSuper {s.super with nbBlocLibre := s.super.nbBlocLibre+1}

theorem runs_chainBlocs_step {Q : Unit → Machine → Prop} {E : Stop → Machine → Prop} (m : Mounted s)
    (inside : i.toNat < s.nsec) :
    Runs (chainBlocs (count+1) i) s Q E ↔ Runs (chainBlocs count (i+1)) (s.chainOne i) Q E := by
  have size : s.nsec < 2^32 := s.vol.volNsectors.isLt
  have total : s.vol.volNsectors.toNat = s.nsec := rfl
  have one : (1 : Word).toNat = 1 := rfl
  have test : i < s.vol.volNsectors-1 ↔ i.toNat+1 < s.nsec := by
    rw [BitVec.lt_def,BitVec.toNat_sub]
    omega
  have write := fun (P : Unit → Machine → Prop) buffer =>
    runs_writeNbloc (Q := P) (E := E) m inside (by decide : 8 ≠ 0) buffer
  simp only [chainBlocs,runs_bind,runs_get,runs_current,write,runs_modify,test]
  rfl

theorem chainOne_chained (s : Machine) (last : i.toNat+1 = s.nsec) : Chained s (s.chainOne i) i.toNat := by
  have here : FreeBloc.decode ((s.chainOne i).blk i.toNat) = ⟨blocMagic,s.chainNext i⟩ := by
    unfold Machine.chainOne
    rw [withSuper_blk,store_blk,if_pos rfl,FreeBloc.decode_encode]
  refine ⟨(Within.store (by omega) _ _).trans (Confined.withSuper _ _).toWithin,rfl,?_,?_,?_⟩
  · intro b low high
    have equal : b = i.toNat := by omega
    rw [equal]
    exact congrArg FreeBloc.magic here
  · intro b low high
    have equal : b = i.toNat := by omega
    have word : (s.chainOne i).entryAt i.toNat 1 = s.chainNext i := congrArg FreeBloc.nextFree here
    rw [equal,word,Machine.chainNext,if_neg (by omega),if_neg (by omega)]
    rfl
  · intro b other
    unfold Machine.chainOne
    rw [withSuper_blk,store_blk,if_neg (by omega)]

theorem chainOne_rest (inside : i.toNat+1 < s.nsec) (rest : Chained (s.chainOne i) t (i+1).toNat) :
    Chained s t i.toNat := by
  have size : s.nsec < 2^32 := s.vol.volNsectors.isLt
  have next : (i+1).toNat = i.toNat+1 := by
    have one : (1 : Word).toNat = 1 := rfl
    rw [BitVec.toNat_add]
    omega
  have here : FreeBloc.decode ((s.chainOne i).blk i.toNat) = ⟨blocMagic,s.chainNext i⟩ := by
    unfold Machine.chainOne
    rw [withSuper_blk,store_blk,if_pos rfl,FreeBloc.decode_encode]
  have old : t.blk i.toNat = (s.chainOne i).blk i.toNat := rest.kept i.toNat (by omega)
  rw [← old] at here
  refine ⟨?_,?_,?_,?_,?_⟩
  · exact ((Within.store (by omega) _ _).trans (Confined.withSuper _ _).toWithin).trans rest.within
  · rw [rest.super]; rfl
  · intro b low high
    by_cases equal : b = i.toNat
    · rw [equal]; exact congrArg FreeBloc.magic here
    · exact rest.magic b (by omega) high
  · intro b low high
    by_cases equal : b = i.toNat
    · have word : t.entryAt i.toNat 1 = s.chainNext i := congrArg FreeBloc.nextFree here
      rw [equal,word,Machine.chainNext,if_pos inside,if_pos inside,next]
    · exact rest.next b (by omega) high
  · intro b other
    rw [rest.kept b (by omega)]
    unfold Machine.chainOne
    rw [withSuper_blk,store_blk,if_neg (by omega)]

theorem runs_chainBlocs (count : Nat) (m : Mounted s) (low : 0 < i.toNat) (range : i.toNat+(count+1) = s.nsec) :
    Returns (chainBlocs (count+1) i) s fun _ t => Chained s t i.toNat ∧
      t.super.nbBlocLibre.toNat = (s.super.nbBlocLibre.toNat+(count+1)) % 2^32 := by
  have one : (1 : Word).toNat = 1 := rfl
  induction count generalizing s i with
  | zero =>
      rw [Returns,runs_chainBlocs_step m (by omega)]
      refine ⟨chainOne_chained s (by omega),?_⟩
      exact BitVec.toNat_add _ _
  | succ count ih =>
      have size : s.nsec < 2^32 := s.vol.volNsectors.isLt
      have next : (i+1).toNat = i.toNat+1 := by rw [BitVec.toNat_add]; omega
      have within : Within s (s.chainOne i) :=
        (Within.store (by omega) _ _).trans (Confined.withSuper _ _).toWithin
      have counted : (s.chainOne i).super.nbBlocLibre.toNat = (s.super.nbBlocLibre.toNat+1) % 2^32 :=
        BitVec.toNat_add _ _
      rw [Returns,runs_chainBlocs_step m (by omega)]
      refine (ih (within.mounted m m.super) (by omega) (by rw [next,within.nsec]; omega)).mono ?_ (fun _ _ => id)
      intro _ t post
      obtain ⟨rest,total⟩ := post
      refine ⟨chainOne_rest (by omega) rest,?_⟩
      rw [total,counted]
      omega

theorem linked_range (next : Nat → Nat) (stop : Nat) (links : ∀ b, 0 < b → b < stop → next b = if b+1 < stop then b+1 else 0)
    (count : Nat) {start : Nat} (low : 0 < start) (range : start+(count+1) = stop) :
    Linked next 0 start (List.range' start (count+1)) := by
  induction count generalizing start with
  | zero =>
      refine ⟨rfl,by omega,?_⟩
      rw [links start low (by omega),if_neg (by omega)]
      exact linked_nil
  | succ count ih =>
      refine ⟨rfl,by omega,?_⟩
      rw [links start low (by omega),if_pos (by omega)]
      exact ih (by omega) (by omega)

theorem BlockOk.vacant {role : Nat → Role} {b : Nat} (x : Sector) (unused : role b = .free ∨ role b = .none) :
    BlockOk role b x := by
  refine ⟨fun node => ?_,fun w _ pointer => ?_⟩
  · rcases unused with free | none
    · rw [free] at node; cases node
    · rw [none] at node; cases node
  · rcases unused with free | none
    · rw [free] at pointer; exact absurd rfl pointer
    · rw [none] at pointer; exact absurd rfl pointer

theorem Layout.withSuper {role : Nat → Role} {free : List Nat} (layout : Layout s role free)
    (magic : x.magic = superMagic) (first : x.premierLibre = s.super.premierLibre)
    (count : x.nbBlocLibre = s.super.nbBlocLibre) : Layout (s.withSuper x) role free :=
  ⟨withSuper_mounted layout.mounted magic,layout.chain.congr (fun _ _ => rfl) first count rfl,layout.vacant,
    layout.inside,layout.blocks⟩

theorem Layout.saved {role : Nat → Role} {free : List Nat} (layout : Layout s role free) : Layout s.saved role free := by
  have zero := layout.zero
  exact layout.store (by rw [zero]; simp) (BlockOk.vacant _ (Or.inr zero)) _

theorem saved_synced (s : Machine) : Synced s.saved := by
  unfold Synced
  rw [saved_blk,if_pos rfl,Super.decode_encode,saved_super]

-- The roles on a formatted volume of `n` blocs, before and after the root exists.
def unusedRole (n b : Nat) : Role := if 1 ≤ b ∧ b < n then .free else .none
def freshRole (n : Nat) : Nat → Role := Function.update (unusedRole n) 1 .inode

-- A volume as init_super leaves it.
structure Fresh (s : Machine) : Prop where
  layout : Layout s (freshRole s.nsec) (List.range' 2 (s.nsec-2))
  root : s.super.rootInumber = 1
  directory : s.entryAt 1 0 = FileType.directory.code
  empty : s.entryAt 1 1 = 0
  unmapped : ∀ f, s.lookup 1 f = 0
  synced : Synced s

theorem chained_layout (m : Mounted s) (chained : Chained s t 1) (first : s.super.premierLibre = 1)
    (count : t.super.nbBlocLibre.toNat = s.nsec-1) :
    Layout t (unusedRole s.nsec) (List.range' 1 (s.nsec-1)) := by
  have room := m.room
  have first' : t.super.premierLibre = 1 := by rw [chained.super]; exact first
  have size : s.nsec-1 = (s.nsec-2)+1 := by omega
  have bound : ∀ b ∈ List.range' 1 (s.nsec-1), 1 ≤ b ∧ b < s.nsec := by
    intro b member
    have range := List.mem_range'_1.mp member
    omega
  have status : ∀ b, unusedRole s.nsec b = .free ∨ unusedRole s.nsec b = .none := by
    intro b
    unfold unusedRole
    split
    · exact Or.inl rfl
    · exact Or.inr rfl
  refine ⟨chained.within.mounted m (by rw [chained.super]; exact m.super),⟨?_,?_,?_,?_⟩,?_,?_,?_⟩
  · have one : (1 : Word).toNat = 1 := rfl
    rw [first',one,size]
    exact linked_range t.nextFree s.nsec (fun b low high => chained.next b low high) (s.nsec-2) (by decide) (by omega)
  · intro b member
    obtain ⟨low,high⟩ := bound b member
    exact chained.magic b low high
  · intro b member
    rw [chained.within.nsec]
    exact (bound b member).2
  · rw [count,List.length_range']
  · intro b
    unfold unusedRole
    rw [List.mem_range'_1]
    by_cases inside : 1 ≤ b ∧ b < s.nsec
    · rw [if_pos inside]
      exact ⟨fun _ => by omega,fun _ => rfl⟩
    · rw [if_neg inside]
      exact ⟨fun wrong => absurd wrong (by simp),fun range => absurd (by omega) inside⟩
  · intro b real
    unfold unusedRole at real
    rw [chained.within.nsec]
    by_cases inside : 1 ≤ b ∧ b < s.nsec
    · omega
    · rw [if_neg inside] at real; exact absurd rfl real
  · exact fun b => BlockOk.vacant _ (status b)

theorem runs_readMbr {Q : Unit → Machine → Prop} {E : Stop → Machine → Prop}
    (magic : (Mbr.decode (s.hda.sectors 0)).magicNumber = mbrMagic) :
    Runs readMbr s Q E ↔
      Q () {s with hda := ⟨s.hda.sectors,s.hda.sectors 0,0⟩,mbr := Mbr.decode (s.hda.sectors 0)} := by
  have positive : (512 : Nat) ≠ 0 := by decide
  have origin : (0 : Word).toNat % 65536 < 1024 ∧ (0 : Word).toNat % 65536 < 32 := by decide
  have zero : (0 : Word).toNat % 65536 * 32 + (0 : Word).toNat % 65536 = 0 := by decide
  simp only [readMbr,readSector,readNsector,runs_bind,runs_ensure,if_pos positive,runs_seekSector origin.1 origin.2,
    cmdRead,runs_modify,runs_get,runs_pure,runs_ite,build_cell,zero]
  rw [if_neg (not_not_intro magic)]

-- The machine on which init_super starts to chain.
def Machine.blank (m : Machine) (vol numSerie : Word) (nom : Vector Byte 32) : Machine :=
  {m with
    hda := ⟨m.hda.sectors,m.hda.sectors 0,0⟩
    mbr := Mbr.decode (m.hda.sectors 0)
    super := ⟨superMagic,numSerie,strncpy 32 (cstring nom),0,1,0,-1⟩
    currentVolume := vol}

theorem Sited.mounted {m : Machine} (sited : Sited m vol) (numSerie : Word) (nom : Vector Byte 32) :
    Mounted (m.blank vol numSerie nom) :=
  ⟨sited.magic,sited.slot,sited.fits,sited.room,rfl⟩

theorem fresh_of_root {u : Machine} (claimed : Layout u (freshRole u.nsec) (List.range' 2 (u.nsec-2)))
    (directory : u.blk 1 = (Inode.fresh .directory).encode) :
    Fresh (u.withSuper {u.super with rootInumber := 1}).saved := by
  have entry : ∀ k, (u.withSuper {u.super with rootInumber := 1}).saved.entryAt 1 k =
      wordAt (Inode.fresh .directory).encode k := by
    intro k
    unfold Machine.entryAt
    rw [saved_blk,if_neg (by decide),withSuper_blk,directory]
  have rooted : Layout (u.withSuper {u.super with rootInumber := 1}) (freshRole u.nsec) (List.range' 2 (u.nsec-2)) :=
    claimed.withSuper claimed.mounted.super rfl rfl
  refine ⟨?_,rfl,?_,?_,?_,saved_synced _⟩
  · rw [saved_nsec,withSuper_nsec]; exact rooted.saved
  · rw [entry]; exact fresh_type .directory
  · rw [entry]; exact fresh_word _ (by decide) (by decide)
  · intro f
    by_cases direct : f < 124
    · rw [lookup_direct _ _ direct,entry]; exact fresh_word _ (by omega) (by omega)
    by_cases far : Supported f
    · obtain ⟨low,high⟩ := far.resolve_left direct
      rw [lookup_below _ _ low high,entry,fresh_word _ (by decide) (by decide),if_pos rfl]
    · exact lookup_unsupported _ _ far

-- init_super on a recorded volume always succeeds.
theorem runs_initSuper {m : Machine} (sited : Sited m vol) (numSerie : Word) (nom : Vector Byte 32) :
    Returns (initSuper vol numSerie nom) m fun _ s => Fresh s ∧
      s.mbr = Mbr.decode (m.hda.sectors 0) ∧ s.currentVolume = vol ∧ s.cwd = m.cwd ∧ s.frame = m.frame ∧
      s.blk 1 = (Inode.fresh .directory).encode := by
  have mounted := sited.mounted numSerie nom
  have room : 2 ≤ (m.blank vol numSerie nom).nsec := mounted.room
  have rounds : (m.blank vol numSerie nom).vol.volNsectors.toNat-1 = ((m.blank vol numSerie nom).nsec-2)+1 :=
    show (m.blank vol numSerie nom).nsec-1 = _ by omega
  simp only [initSuper,Returns,runs_bind,runs_readMbr sited.magic,runs_modify,runs_get]
  change Runs (chainBlocs ((m.blank vol numSerie nom).vol.volNsectors.toNat-1) 1) (m.blank vol numSerie nom) _ _
  rw [rounds]
  refine (runs_chainBlocs _ mounted (by decide) (show 1+_ = _ by omega)).mono ?_ (fun _ _ => id)
  intro _ t post
  obtain ⟨chained,count⟩ := post
  have size : (m.blank vol numSerie nom).nsec < 2^32 := (m.blank vol numSerie nom).vol.volNsectors.isLt
  have start : (m.blank vol numSerie nom).super.nbBlocLibre.toNat = 0 := rfl
  rw [start] at count
  have layout := (chained_layout mounted chained rfl (by rw [count]; omega)).saved
  have nsec : t.nsec = (m.blank vol numSerie nom).nsec := chained.within.nsec
  rw [← nsec] at layout room
  have split : List.range' 1 (t.nsec-1) = 1 :: List.range' 2 (t.nsec-2) := by
    rw [show t.nsec-1 = (t.nsec-2)+1 by omega]
    rfl
  rw [split] at layout
  have root : t.saved.super.premierLibre = 1 := by
    refine BitVec.eq_of_toNat_eq ?_
    rw [layout.chain.head]
    rfl
  have ok : BlockOk (Function.update (unusedRole t.nsec) 1 .inode) 1 (Inode.fresh .directory).encode :=
    fresh_ok _ _ _ (Function.update_self _ _ _)
  have claimed := layout.claimed ok (by simp)
  have directory : (t.saved.claimed (Inode.fresh .directory).encode).blk 1 = (Inode.fresh .directory).encode := by
    rw [claimed_blk _ _ (by decide),root]
    rfl
  have fresh := fresh_of_root claimed directory
  have magic := fresh.layout.mounted.super
  rw [runs_saveSuper ((saved_mounted _).mp layout.mounted)]
  simp only [createIfile,runs_bind,runs_createInode _ layout,root,runs_ensure,runs_pure]
  rw [if_pos (by decide)]
  refine (runs_saveSuper (withSuper_mounted (x := {(t.saved.claimed (Inode.fresh .directory).encode).super with
    rootInumber := 1}) claimed.mounted claimed.mounted.super)).mpr ?_
  refine (if_pos magic).mpr ?_
  have within := chained.within
  refine ⟨fresh,within.mbr,within.volume,within.cwd,within.frame,?_⟩
  rw [saved_blk,if_neg (by decide),withSuper_blk]
  exact directory

-- A drive whose MBR records `v` as volume 0, and nothing else.
def recordedSectors (v : Vol) (p : Nat) : Sector :=
  if p = 0 then overlay (Mbr.encode ⟨Vector.replicate 8 v,1,mbrMagic⟩) (zeros 8 512) else zeros 8 512

def recordedDisk (v : Vol) : Machine where
  hda := ⟨recordedSectors v,zeros 8 512,0⟩
  mbr := ⟨Vector.replicate 8 .empty,0,0⟩
  super := ⟨0,0,zeros 8 32,0,0,0,0⟩
  currentVolume := 0
  cwd := [47]
  frame := ⟨zeros 8 20,⟨0,0,0,zeros 8 512,false⟩,[]⟩
  journal := []

theorem recordedDisk_mbr (v : Vol) :
    Mbr.decode ((recordedDisk v).hda.sectors 0) = ⟨Vector.replicate 8 v,1,mbrMagic⟩ := by
  have sector : (recordedDisk v).hda.sectors 0 = recordedSectors v 0 := rfl
  rw [sector,recordedSectors,if_pos rfl,Mbr.decode_encode]

theorem recordedDisk_vol (v : Vol) : (Mbr.decode ((recordedDisk v).hda.sectors 0)).vol (0 : Word).toNat = v := by
  rw [recordedDisk_mbr]
  simp [Mbr.vol]

theorem recordedDisk_sited (v : Vol) (fits : 32 * v.volCylinder.toNat + v.volSector.toNat + v.volNsectors.toNat ≤ 32768)
    (room : 2 ≤ v.volNsectors.toNat) : Sited (recordedDisk v) 0 := by
  refine ⟨by rw [recordedDisk_mbr],by decide,?_,?_⟩
  · rw [recordedDisk_vol]; exact fits
  · rw [recordedDisk_vol]; exact room

-- The volume of `n` sectors that starts on cylinder 1.
def volumeOf (n : Word) : Vol := ⟨1,0,n,0,1⟩

theorem volumeOf_sited {n : Word} (room : 2 ≤ n.toNat) (fits : n.toNat ≤ 32736) : Sited (recordedDisk (volumeOf n)) 0 := by
  have one : (1 : Word).toNat = 1 ∧ (0 : Word).toNat = 0 := ⟨rfl,rfl⟩
  exact recordedDisk_sited _ (show 32 * (1 : Word).toNat + (0 : Word).toNat + n.toNat ≤ 32768 by omega) room

theorem volumeOf_fresh {n : Word} (room : 2 ≤ n.toNat) (fits : n.toNat ≤ 32736) (numSerie : Word) (nom : Vector Byte 32) :
    ∃ s, initSuper 0 numSerie nom (recordedDisk (volumeOf n)) = (.ok (),s) ∧ Fresh s ∧ s.nsec = n.toNat := by
  obtain ⟨_,s,equal,fresh,mbr,volume,_⟩ := returns_iff.mp (runs_initSuper (volumeOf_sited room fits) numSerie nom)
  refine ⟨s,equal,fresh,?_⟩
  unfold Machine.nsec Machine.vol
  rw [mbr,volume,recordedDisk_vol]
  rfl

theorem volumeOf_cwd {n numSerie : Word} {nom : Vector Byte 32} (room : 2 ≤ n.toNat) (fits : n.toNat ≤ 32736)
    (ran : initSuper 0 numSerie nom (recordedDisk (volumeOf n)) = (.ok (),s)) : s.cwd = [47] :=
  ((runs_initSuper (volumeOf_sited room fits) numSerie nom).result ran).2.2.2.1

-- What the stack held before is still there.
theorem volumeOf_frame {n numSerie : Word} {nom : Vector Byte 32} (room : 2 ≤ n.toNat) (fits : n.toNat ≤ 32736)
    (ran : initSuper 0 numSerie nom (recordedDisk (volumeOf n)) = (.ok (),s)) : s.frame = (recordedDisk (volumeOf n)).frame :=
  ((runs_initSuper (volumeOf_sited room fits) numSerie nom).result ran).2.2.2.2.1

end AsePlusPlus
