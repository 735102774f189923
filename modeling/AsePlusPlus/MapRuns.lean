import AsePlusPlus.Lib.Trace
import AsePlusPlus.Formatting
import AsePlusPlus.Indirect

namespace AsePlusPlus
open Words Program Trace

inductive MapCall where
  | create (type : FileType)
  | vbloc (inumber fbloc : Word) (doAllocate : Bool)

-- The machine, the inodes made so far and the answers given so far: inumber,
-- fbloc and a bloc that is not BLOC_NULL.
structure Mapping where
  machine : Machine
  inodes : List Word
  answers : List (Word × Word × Word)

inductive MapStep : Mapping → MapCall → Mapping → Prop
  | create {s t : Machine} {inodes : List Word} {answers : List (Word × Word × Word)} {type : FileType} {i : Word}
      (ran : createInode type s = (.ok i,t)) :
      MapStep ⟨s,inodes,answers⟩ (.create type) ⟨t,if i = 0 then inodes else i :: inodes,answers⟩
  | vbloc {s t : Machine} {inodes : List Word} {answers : List (Word × Word × Word)} {i f r : Word} {doAllocate : Bool}
      (known : i ∈ inodes) (ran : vblocOfFbloc i f doAllocate s = (.ok r,t)) :
      MapStep ⟨s,inodes,answers⟩ (.vbloc i f doAllocate)
        ⟨t,inodes,if r = 0 then answers else (i,f,r) :: answers⟩

-- The blocs that hold pointers of inode `i`.
def IndexBloc (s : Machine) (i : Nat) (b : Word) : Prop :=
  b = (s.inodeAt i).blocsIndirect ∨ b = (s.inodeAt i).blocsDoubleIndirect ∨
  ((s.inodeAt i).blocsDoubleIndirect ≠ 0 ∧ ∃ k, k < 128 ∧ b = s.entryAt (s.inodeAt i).blocsDoubleIndirect.toNat k)

-- The answers so far form an injection into blocs of their own.
structure MapSafe (h : Mapping) : Prop where
  inside : ∀ i f b, (i,f,b) ∈ h.answers → 1 ≤ b.toNat ∧ b.toNat < h.machine.nsec
  injective : ∀ i f b i' f' b', (i,f,b) ∈ h.answers → (i',f',b') ∈ h.answers → (b = b' ↔ i = i' ∧ f = f')
  apart : ∀ i f b, (i,f,b) ∈ h.answers → b ∉ h.inodes ∧ (∀ j ∈ h.inodes, ¬ IndexBloc h.machine j.toNat b) ∧
    ∀ free, FreeChain h.machine free → b.toNat ∉ free

-- What one more lookup or allocation does.
structure VblocSafe (h : Mapping) (i f : Word) (doAllocate : Bool) (r : Word) (t : Machine) : Prop where
  stable : ∀ b, (i,f,b) ∈ h.answers → r = b
  zeroed : r ≠ 0 → (∃ u, vblocOfFbloc i f false h.machine = (.ok 0,u)) → t.blk r.toNat = zeros 8 512
  reading : doAllocate = false → ∀ c, t.blk c = h.machine.blk c

-- The positions that the direct and the double indirect branch serve, and for an
-- allocation as many free blocs as the levels it lacks.
def MapCall.Fits (h : Mapping) : MapCall → Prop
  | .vbloc i f doAllocate => Supported f.toNat ∧
      (doAllocate = true → needed h.machine i.toNat f.toNat ≤ h.machine.super.nbBlocLibre.toNat)
  | .create _ => True

structure Tracked (h : Mapping) (role : Nat → Role) (free : List Nat) : Prop where
  layout : Layout h.machine role free
  nodes : ∀ i ∈ h.inodes, role i.toNat = .inode
  mapped : ∀ i f b, (i,f,b) ∈ h.answers → b ≠ 0 ∧ i ∈ h.inodes ∧ h.machine.lookup i.toNat f.toNat = b

variable {role : Nat → Role} {free : List Nat} {h h' : Mapping} {s t : Machine} {i f r : Word} {doAllocate : Bool}

theorem Tracked.data (tracked : Tracked h role free) (answer : (i,f,r) ∈ h.answers) :
    role r.toNat = .data i.toNat f.toNat := by
  obtain ⟨live,known,lookup⟩ := tracked.mapped i f r answer
  have node := tracked.nodes i known
  have owner := tracked.layout.lookup_role node (f := f.toNat) (by rw [lookup]; exact live)
  rwa [lookup] at owner

theorem Layout.not_index (layout : Layout s role free) {b : Word} {file block j : Nat} (used : role b.toNat = .data file block)
    (node : role j = .inode) : ¬ IndexBloc s j b := by
  have live := (layout.bound used (by simp)).1
  have nonzero : b ≠ 0 := by rintro rfl; exact live rfl
  intro post
  rcases post with indirect | double | ⟨some,k,small,entry⟩
  · exact nonzero (indirect.trans ((layout.blocks j).indirect node))
  · rw [inodeAt_double] at double
    have owner := layout.double_role node (double ▸ nonzero)
    rw [← double,used] at owner
    cases owner
  · rw [inodeAt_double] at some entry
    have owner := layout.points (layout.double_role node some) k small (by simp [Role.target]) (entry ▸ nonzero)
    rw [← entry,used] at owner
    cases owner

theorem Tracked.safe (tracked : Tracked h role free) : MapSafe h := by
  refine ⟨?_,?_,?_⟩
  · intro i f b answer
    have bound := tracked.layout.bound (tracked.data answer) (by simp)
    omega
  · intro i f b i' f' b' one two
    obtain ⟨_,_,lookup⟩ := tracked.mapped i f b one
    obtain ⟨_,_,lookup'⟩ := tracked.mapped i' f' b' two
    constructor
    · intro same
      obtain rfl := same
      have same := (tracked.data one).symm.trans (tracked.data two)
      obtain ⟨file,block⟩ := Role.data.inj same
      exact ⟨BitVec.eq_of_toNat_eq file,BitVec.eq_of_toNat_eq block⟩
    · intro post
      obtain ⟨rfl,rfl⟩ := post
      exact lookup.symm.trans lookup'
  · intro i f b answer
    have used := tracked.data answer
    refine ⟨fun known => ?_,fun j known => tracked.layout.not_index used (tracked.nodes j known),fun cells chain => ?_⟩
    · rw [tracked.nodes b known] at used
      cases used
    · have same := Chain.linked_unique chain.linked tracked.layout.chain.linked
      rw [same]
      exact tracked.layout.not_free used (by simp)

theorem Tracked.create {type : FileType} (tracked : Tracked h role free)
    (ran : createInode type h.machine = (.ok i,t)) :
    ∃ role' free', Tracked ⟨t,if i = 0 then h.inodes else i :: h.inodes,h.answers⟩ role' free' := by
  cases free with
  | nil =>
      obtain ⟨rfl,rfl⟩ := Runs.exact (fun _ => runs_createInode_full type tracked.layout.chain.empty) ran
      exact ⟨role,[],tracked.layout,tracked.nodes,tracked.mapped⟩
  | cons b rest =>
      obtain ⟨rfl,rfl⟩ := Runs.exact (fun _ => runs_createInode type tracked.layout) ran
      have grew := createInode_carries type tracked.layout
      rw [if_neg tracked.layout.chain.head_ne]
      refine ⟨_,rest,grew.layout,?_,?_⟩
      · intro j member
        rcases List.mem_cons.mp member with rfl | old
        · rw [tracked.layout.chain.head,Function.update_self]
        · exact grew.node (tracked.nodes j old)
      · intro j g c answer
        obtain ⟨live,known,lookup⟩ := tracked.mapped j g c answer
        refine ⟨live,List.mem_cons_of_mem _ known,?_⟩
        rw [← lookup]
        exact grew.kept _ _ (tracked.nodes j known) (by rw [lookup]; exact live)

-- Both flags give the position's bloc in the state they leave.
theorem Tracked.vbloc (tracked : Tracked h role free) (known : i ∈ h.inodes)
    (fits : (MapCall.vbloc i f doAllocate).Fits h) : Returns (vblocOfFbloc i f doAllocate) h.machine fun r t =>
      ∃ role' free', Grew h.machine t role role' free free' ∧ r = t.lookup i.toNat f.toNat ∧
        (doAllocate = false → Quiet h.machine t) := by
  obtain ⟨reach,enough⟩ := fits
  have node := tracked.nodes i known
  cases doAllocate with
  | false =>
      refine (runs_vbloc_read tracked.layout node reach (Or.inl rfl)).mono ?_ (fun _ _ => id)
      intro r t post
      obtain ⟨value,quiet⟩ := post
      exact ⟨role,free,quiet.grew tracked.layout,by rw [quiet.lookup]; exact value,fun _ => quiet⟩
  | true =>
      refine (runs_vbloc_allocate tracked.layout node reach).mono ?_ (fun _ _ => id)
      intro r t post
      obtain ⟨role',free',grew,value,_⟩ := post
      exact ⟨role',free',grew,value,fun wrong => absurd wrong (by simp)⟩

theorem Tracked.look (tracked : Tracked h role free) (known : i ∈ h.inodes) (reach : Supported f.toNat)
    (null : vblocOfFbloc i f false h.machine = (.ok 0,t)) : h.machine.lookup i.toNat f.toNat = 0 :=
  ((runs_vbloc_read tracked.layout (tracked.nodes i known) reach (Or.inl rfl)).result null).1.symm

theorem Tracked.vbloc_safe (tracked : Tracked h role free) (known : i ∈ h.inodes)
    (fits : (MapCall.vbloc i f doAllocate).Fits h) (ran : vblocOfFbloc i f doAllocate h.machine = (.ok r,t)) :
    VblocSafe h i f doAllocate r t ∧
    ∃ role' free', Tracked ⟨t,h.inodes,if r = 0 then h.answers else (i,f,r) :: h.answers⟩ role' free' := by
  obtain ⟨role',free',grew,value,quiet⟩ := (tracked.vbloc known fits).result ran
  have old : ∀ j g c, (j,g,c) ∈ h.answers → c ≠ 0 ∧ j ∈ h.inodes ∧ t.lookup j.toNat g.toNat = c := by
    intro j g c answer
    obtain ⟨live,member,lookup⟩ := tracked.mapped j g c answer
    refine ⟨live,member,?_⟩
    rw [← lookup]
    exact grew.kept _ _ (tracked.nodes j member) (by rw [lookup]; exact live)
  refine ⟨⟨?_,?_,fun off c => (quiet off).blk c⟩,role',free',grew.layout,fun j member => grew.node (tracked.nodes j member),?_⟩
  · intro b answer
    rw [value]
    exact (old i f b answer).2.2
  · intro live post
    obtain ⟨u,null⟩ := post
    rw [value] at live ⊢
    exact grew.fresh _ _ (tracked.nodes i known) (tracked.look known fits.1 null) live
  · intro j g c answer
    dsimp only at answer
    split at answer
    · exact old j g c answer
    · rename_i live
      rcases List.mem_cons.mp answer with same | before
      · obtain ⟨rfl,rfl,rfl⟩ := Prod.mk.injEq _ _ _ _ ▸ same
        exact ⟨live,known,value.symm⟩
      · exact old j g c before

theorem Fresh.tracked (fresh : Fresh s) : Tracked ⟨s,[1],[]⟩ (freshRole s.nsec) (List.range' 2 (s.nsec-2)) := by
  refine ⟨fresh.layout,?_,by simp⟩
  intro i member
  rw [List.mem_singleton.mp member]
  rfl

theorem MapStep.keeps {c : MapCall} (tracked : ∃ role free, Tracked h role free) (fits : c.Fits h)
    (step : MapStep h c h') : ∃ role free, Tracked h' role free := by
  obtain ⟨role,free,tracked⟩ := tracked
  cases step with
  | create ran => exact tracked.create ran
  | vbloc known ran => exact (tracked.vbloc_safe known fits ran).2

-- In a run that keeps to the served positions the map is a stable injection.
theorem block_map_stable {m : Machine} {vol numSerie : Word} {nom : Vector Byte 32} {past : List (Mapping × MapCall)}
    (sited : Sited m vol) (formatted : initSuper vol numSerie nom m = (.ok (),s))
    (run : Run MapStep ⟨s,[1],[]⟩ past h) (fits : ∀ entry ∈ past, entry.2.Fits entry.1) :
    MapSafe h ∧ ∀ i f doAllocate, i ∈ h.inodes → (MapCall.vbloc i f doAllocate).Fits h →
      Returns (vblocOfFbloc i f doAllocate) h.machine (VblocSafe h i f doAllocate) := by
  have fresh := ((runs_initSuper sited numSerie nom).result formatted).1
  obtain ⟨⟨role,free,tracked⟩,_⟩ := run.keeps (fun (h : Mapping) (c : MapCall) => c.Fits h)
    (P := fun h => ∃ role free, Tracked h role free) (fun _ _ _ tracked fits step => step.keeps tracked fits) ⟨_,_,fresh.tracked⟩ fits
  refine ⟨tracked.safe,fun i f doAllocate known fit => ?_⟩
  obtain ⟨r,t,equal,_⟩ := returns_iff.mp (tracked.vbloc known fit)
  exact Runs.of_eq equal (tracked.vbloc_safe known fit equal).1

theorem block_map_stable_once : ∃ s h past, initSuper 0 0 (zeros 8 32) (recordedDisk (volumeOf 64)) = (.ok (),s) ∧
    Run MapStep ⟨s,[1],[]⟩ past h ∧ past.map Prod.snd = [.vbloc 1 0 true] ∧ MapSafe h := by
  obtain ⟨s,equal,fresh,size⟩ := volumeOf_fresh (n := 64) (by decide) (by decide) 0 (zeros 8 32)
  have sited : Sited (recordedDisk (volumeOf 64)) 0 := volumeOf_sited (by decide) (by decide)
  have count := fresh.layout.chain.count
  rw [List.length_range',size] at count
  have fits : (MapCall.vbloc 1 0 true).Fits ⟨s,[1],[]⟩ := by
    refine ⟨Or.inl (by decide),fun _ => Nat.le_trans (needed_le _ _ _) ?_⟩
    rw [count]
    decide
  obtain ⟨r,t,ran,_⟩ := returns_iff.mp (fresh.tracked.vbloc (by simp) fits)
  have step : MapStep ⟨s,[1],[]⟩ (.vbloc 1 0 true) _ := .vbloc (by simp) ran
  have run := Run.single step
  exact ⟨s,_,_,equal,run,rfl,(block_map_stable sited equal run (by simpa using fits)).1⟩

-- Position 124 of the root answers the magic number of the superbloc.
theorem block_map_escapes : ∃ s h past, initSuper 0 0 (zeros 8 32) (recordedDisk (volumeOf 64)) = (.ok (),s) ∧
    Run MapStep ⟨s,[1],[]⟩ past h ∧ past.map Prod.snd = [.vbloc 1 124 false] ∧ ¬ MapSafe h := by
  obtain ⟨s,equal,fresh,size⟩ := volumeOf_fresh (n := 64) (by decide) (by decide) 0 (zeros 8 32)
  have node := fresh.tracked.nodes 1 (by simp)
  have ran : vblocOfFbloc 1 124 false s = (.ok (s.entryAt 0 ((124 : Word).toNat-124)),_) := Runs.equal fun _ =>
    runs_vbloc_indirect_word fresh.layout node (by decide) (by decide) (Or.inl rfl)
  have step : MapStep ⟨s,[1],[]⟩ (.vbloc 1 124 false) _ := .vbloc (by simp) ran
  have run := Run.single step
  have magic : s.entryAt 0 ((124 : Word).toNat-124) = superMagic := fresh.synced.magic fresh.layout.mounted
  rw [magic] at run
  refine ⟨s,_,_,equal,run,rfl,fun safe => ?_⟩
  have bound := (safe.inside 1 124 superMagic (by simp [superMagic])).2
  have total : ((s.load (1 : Word).toNat).load 0).nsec = 64 := size
  rw [total] at bound
  exact absurd bound (by decide)

end AsePlusPlus
