import AsePlusPlus.MapRuns

namespace AsePlusPlus
open Words Program Chain

def freeBlocs : List Word → M Unit
  | [] => return
  | bloc :: rest => do
    if bloc ≠ 0 then
      freeBloc bloc
    freeBlocs rest

-- What delete_inode reaches beyond its variables: a bloc read to the address that
-- a bloc number makes, the two words behind its inode, its table never set.
structure Around where
  store : Word → Sector → M Unit
  behind : Word × Word
  bloc : Vector Word 128

-- The loop of the second level, which reads and frees the first level each time.
def deleteTables (double : Word) : Nat → M Unit
  | 0 => return
  | count+1 => do
    let tmp := Table.decode (← readBloc (← current) double)
    freeBlocs tmp.toList
    freeBloc double
    deleteTables double count

-- free_blocs(inode.blocs_directs, NB_BLOCS_BY_BLOC) goes on behind the direct
-- pointers with the two index pointers and the two words behind the inode.
def deleteIndirect (around : Around) (inumber : Word) (inode : Inode) : M Unit := do
  if inode.blocsIndirect ≠ 0 then
    around.store inode.blocsIndirect (← readBloc (← current) inumber)
    freeBlocs (inode.blocsDirects.toList ++ [inode.blocsIndirect,inode.blocsDoubleIndirect,around.behind.1,around.behind.2])
    freeBloc inode.blocsIndirect

def deleteDouble (around : Around) (inumber : Word) (inode : Inode) : M Unit := do
  if inode.blocsDoubleIndirect ≠ 0 then
    around.store inode.blocsDoubleIndirect (← readBloc (← current) inumber)
    deleteTables inode.blocsDoubleIndirect 128
    freeBlocs around.bloc.toList

def deleteInode (around : Around) (inumber : Word) : M Word := do
  let inode ← readInode inumber
  freeBlocs inode.blocsDirects.toList
  deleteIndirect around inumber inode
  deleteDouble around inumber inode
  freeBloc inode.blocsDoubleIndirect
  freeBloc inumber
  return inumber

def deleteIfile (around : Around) (inumber : Word) : M Word := do
  let status ← deleteInode around inumber
  ensure (status = returnSuccess) .exit
  return returnSuccess

variable {role : Nat → Role} {free : List Nat} {s t : Machine} {i : Word} {around : Around} {blocs : List Word} {b : Nat}

-- The blocs of an inode: its own, the data and the tables that lead to it.
def Machine.Owns (s : Machine) (i b : Nat) : Prop :=
  b ≠ 0 ∧ (b = i ∨ (∃ f, (s.lookup i f).toNat = b) ∨ ∃ w, IndexBloc s i w ∧ w.toNat = b)

-- What deleting a file should do.
structure Deletes (around : Around) (s : Machine) (i : Word) : Prop where
  freed : Returns (deleteInode around i) s fun _ t => ∃ owned : List Nat, owned.Nodup ∧ (∀ b, b ∈ owned ↔ s.Owns i.toNat b) ∧
    t.super.nbBlocLibre.toNat = s.super.nbBlocLibre.toNat+owned.length ∧
    (∀ free, FreeChain s free → ∃ chain, chain.Perm (owned ++ free) ∧ FreeChain t chain) ∧
    ∀ b, b ≠ 0 → b ∉ owned → t.blk b = s.blk b
  status : Returns (deleteIfile around i) s fun status _ => status = returnSuccess

theorem runs_any {p : M α} {f : α → M β} {Q : β → Machine → Prop} (next : ∀ a t, Runs (f a) t Q fun _ _ => True) :
    Runs (p >>= f) s Q fun _ _ => True := by
  rw [runs_bind]
  exact Runs.always next

-- The inumber is what delete_inode reports, whatever it frees.
theorem deleteInode_result (around : Around) (i : Word) (s : Machine) :
    Runs (deleteInode around i) s (fun r _ => r = i) fun _ _ => True := by
  apply runs_any
  intro inode _
  apply runs_any
  intro _ _
  apply runs_any
  intro _ _
  apply runs_any
  intro _ _
  apply runs_any
  intro _ _
  apply runs_any
  intro _ _
  rfl

-- delete_ifile takes it for a failure.
theorem deleteIfile_exits (around : Around) (some : i ≠ 0) (s : Machine) :
    ¬ Returns (deleteIfile around i) s fun status _ => status = returnSuccess := by
  apply Runs.excludes (Q := fun _ _ => False)
  · unfold deleteIfile
    rw [runs_bind]
    refine (deleteInode_result around i s).mono ?_ (fun _ _ _ => trivial)
    intro r t equal
    rw [runs_bind,runs_ensure,if_neg]
    · trivial
    · rw [equal]
      exact some
  · intro _ _ wrong
    exact wrong.elim

theorem deletes_never (around : Around) (s : Machine) (some : i ≠ 0) : ¬ Deletes around s i := by
  intro deletes
  exact deleteIfile_exits around some s deletes.status


-- What frees other blocs keeps the bloc of an inode as it is.
structure Freed (b : Nat) (s t : Machine) : Prop where
  mounted : Mounted t
  nsec : t.nsec = s.nsec
  head : t.super.premierLibre.toNat < t.nsec ∧ t.super.premierLibre.toNat ≠ b
  kept : t.blk b = s.blk b

theorem runs_freeBlocs (mounted : Mounted s) (real : b ≠ 0)
    (head : s.super.premierLibre.toNat < s.nsec ∧ s.super.premierLibre.toNat ≠ b)
    (each : ∀ bloc ∈ blocs, bloc ≠ 0 → bloc.toNat < s.nsec ∧ bloc.toNat ≠ b) :
    Returns (freeBlocs blocs) s fun _ t => Freed b s t := by
  induction blocs generalizing s with
  | nil => exact ⟨mounted,rfl,head,rfl⟩
  | cons bloc rest ih =>
      have later : ∀ other ∈ rest, other ≠ 0 → other.toNat < s.nsec ∧ other.toNat ≠ b := fun other member =>
        each other (List.mem_cons_of_mem bloc member)
      unfold freeBlocs
      by_cases zero : bloc = 0
      · rw [if_neg (not_not.mpr zero)]
        exact ih mounted head later
      · have here := each bloc (List.mem_cons_self ..) zero
        rw [if_pos zero,Returns,runs_bind,runs_freeBloc mounted zero here.1 head.1]
        refine Runs.of_returns (ih (s := s.gave bloc) (gave_mounted mounted bloc) here later) ?_
        intro _ t freed
        refine ⟨freed.mounted,freed.nsec,freed.head,freed.kept.trans ?_⟩
        rw [gave_blk s bloc real,if_neg fun same => head.2 same.symm]

def nothingAround : Around := ⟨fun _ _ => pure (),(0,0),zeros 32 128⟩

theorem deletes_never_root : ∃ s, initSuper 0 0 (zeros 8 32) (recordedDisk (volumeOf 64)) = (.ok (),s) ∧ ¬ Deletes nothingAround s 1 := by
  obtain ⟨s,equal,_⟩ := volumeOf_fresh (n := 64) (by decide) (by decide) 0 (zeros 8 32)
  exact ⟨s,equal,deletes_never nothingAround s (by decide)⟩

-- The root, with one data bloc.
theorem delete_reports_failure : ∃ s h past, initSuper 0 0 (zeros 8 32) (recordedDisk (volumeOf 64)) = (.ok (),s) ∧
    Trace.Run MapStep ⟨s,[1],[]⟩ past h ∧ past.map Prod.snd = [.vbloc 1 0 true] ∧ ¬ Deletes nothingAround h.machine 1 := by
  obtain ⟨s,equal,fresh,size⟩ := volumeOf_fresh (n := 64) (by decide) (by decide) 0 (zeros 8 32)
  have count := fresh.layout.chain.count
  rw [List.length_range',size] at count
  have fits : (MapCall.vbloc 1 0 true).Fits ⟨s,[1],[]⟩ := by
    refine ⟨Or.inl (by decide),fun _ => Nat.le_trans (needed_le _ _ _) ?_⟩
    rw [count]
    decide
  obtain ⟨r,t,ran,_⟩ := returns_iff.mp (fresh.tracked.vbloc (by simp) fits)
  have step : MapStep ⟨s,[1],[]⟩ (.vbloc 1 0 true) _ := .vbloc (by simp) ran
  refine ⟨s,_,_,equal,Trace.Run.single step,rfl,?_⟩
  intro deletes
  exact deleteIfile_exits nothingAround (by decide) _ deletes.status

theorem mem_cells {v : Vector Word n} {w : Word} (member : w ∈ v.toList) : ∃ k, k < n ∧ w = cell v k := by
  obtain ⟨k,small,equal⟩ := List.getElem_of_mem member
  rw [Vector.length_toList] at small
  refine ⟨k,small,?_⟩
  rw [cell_eq_getElem v small,← equal,Vector.getElem_toList]

theorem runs_freeBloc_null {Q : Unit → Machine → Prop} {E : Stop → Machine → Prop} : Runs (freeBloc 0) s Q E ↔ Q () s := Iff.rfl

-- free_bloc leaves a bloc that is not the first free one as it is, so that an inode
-- stays one.
theorem gave_breaks (apart : t.super.premierLibre.toNat ≠ i.toNat) (some : i ≠ 0) {type : FileType}
    (kept : t.entryAt i.toNat 0 = type.code) (chain : List Nat) : ¬ FreeChain (t.gave i) chain := by
  intro linked
  have real : i.toNat ≠ 0 := fun zero => some (BitVec.eq_of_toNat_eq zero)
  cases chain with
  | nil =>
      have empty := linked.empty
      rw [gave_super] at empty
      exact some empty
  | cons c rest =>
      have first := linked.head
      rw [gave_super] at first
      have magic := linked.magic c (List.mem_cons_self ..)
      rw [← first] at magic
      change wordAt ((t.gave i).blk i.toNat) 0 = blocMagic at magic
      rw [gave_blk t i real,if_neg fun same => apart same.symm] at magic
      unfold Machine.entryAt at kept
      rw [kept] at magic
      cases type <;> exact absurd magic (by decide)

theorem runs_deleteFlat {Q : Word → Machine → Prop} {E : Stop → Machine → Prop} (mounted : Mounted s) (inside : i.toNat < s.nsec)
    (indirect : (s.inodeAt i.toNat).blocsIndirect = 0) (double : (s.inodeAt i.toNat).blocsDoubleIndirect = 0)
    (directs : (s.inodeAt i.toNat).blocsDirects.toList = blocs) :
    Runs (deleteInode around i) s Q E ↔ Runs (freeBlocs blocs) (s.load i.toNat)
      (fun _ t => Runs (freeBloc i) t (fun _ u => Q i u) E) E := by
  unfold deleteInode
  rw [runs_bind,runs_readInode mounted inside]
  generalize s.inodeAt i.toNat = inode at indirect double directs ⊢
  rw [directs,runs_bind]
  apply Runs.congr
  intro _ t
  rw [runs_bind,deleteIndirect,if_neg (not_not.mpr indirect),runs_pure,runs_bind,deleteDouble,if_neg (not_not.mpr double),
    runs_pure,double,runs_bind,runs_freeBloc_null,runs_bind]
  exact Iff.rfl

-- Deleting an inode without tables: the chain begins at a bloc that still holds
-- the inode, and no chain of free blocs does.
theorem deleteInode_breaks (layout : Layout s role free) (node : role i.toNat = .inode) {type : FileType}
    (typed : s.entryAt i.toNat 0 = type.code) (flat : s.entryAt i.toNat 127 = 0) :
    Returns (deleteInode around i) s fun r t => r = i ∧ t.super.premierLibre = i ∧ ∀ chain, ¬ FreeChain t chain := by
  obtain ⟨real,inside⟩ := layout.bound node (by decide)
  have some : i ≠ 0 := fun zero => real (by rw [zero]; rfl)
  have head : s.super.premierLibre.toNat < s.nsec ∧ s.super.premierLibre.toNat ≠ i.toNat := by
    cases free with
    | nil =>
        have room := layout.mounted.room
        rw [layout.chain.empty]
        exact ⟨Nat.lt_of_lt_of_le (by decide : 0 < 2) room,fun zero => real zero.symm⟩
    | cons b rest =>
        rw [layout.chain.head]
        refine ⟨layout.chain.inside b (List.mem_cons_self ..),?_⟩
        intro same
        exact layout.not_free node (by decide) (same ▸ List.mem_cons_self ..)
  have each : ∀ bloc ∈ (s.inodeAt i.toNat).blocsDirects.toList, bloc ≠ 0 → bloc.toNat < s.nsec ∧ bloc.toNat ≠ i.toNat := by
    intro bloc member set
    obtain ⟨k,small,equal⟩ := mem_cells member
    have word : bloc = s.entryAt i.toNat (k+2) := equal.trans (inodeAt_direct s i.toNat small)
    rw [word] at set ⊢
    have target := layout.points node (k+2) (by omega) (by rw [target_direct _ small]; exact Role.noConfusion) set
    rw [target_direct _ small] at target
    refine ⟨(layout.bound target (by exact Role.noConfusion)).2,?_⟩
    intro same
    rw [same,node] at target
    cases target
  have indirect : (s.inodeAt i.toNat).blocsIndirect = 0 := (layout.blocks i.toNat).indirect node
  have double : (s.inodeAt i.toNat).blocsDoubleIndirect = 0 := flat
  have loaded : Mounted (s.load i.toNat) := (load_mounted _ _).mpr layout.mounted
  generalize directs : (s.inodeAt i.toNat).blocsDirects.toList = blocs at each
  have released : Returns (freeBlocs blocs) (s.load i.toNat) fun _ t =>
      Returns (freeBloc i) t fun _ u => i = i ∧ u.super.premierLibre = i ∧ ∀ chain, ¬ FreeChain u chain := by
    refine Runs.of_returns (runs_freeBlocs loaded real head each) ?_
    intro _ t freed
    have kept : t.entryAt i.toNat 0 = type.code := by
      unfold Machine.entryAt at typed ⊢
      rw [freed.kept]
      exact typed
    have nsec : t.nsec = s.nsec := freed.nsec
    rw [Returns,runs_freeBloc freed.mounted some (by rw [nsec]; exact inside) freed.head.1]
    exact ⟨rfl,by rw [gave_super]; rfl,gave_breaks freed.head.2 some kept⟩
  exact (runs_deleteFlat layout.mounted inside indirect double directs).mpr released

end AsePlusPlus
