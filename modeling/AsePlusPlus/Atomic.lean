import AsePlusPlus.File
import AsePlusPlus.Fixed
import AsePlusPlus.Calm
import AsePlusPlus.Paths

namespace AsePlusPlus
open Words Program

variable {s t : Machine} {path : List Byte} {type : FileType}

def Machine.liveEntries (s : Machine) (d : Nat) : List Entry := (s.entries d).filter (·.entInumber ≠ 0)

-- Nobody can tell from paths, directories or the counter that a call was made.
structure Unchanged (s t : Machine) : Prop where
  paths : ∀ path, (inumberOfPath path t).1 = (inumberOfPath path s).1
  entries : ∀ d, t.liveEntries d = s.liveEntries d
  count : t.super.nbBlocLibre = s.super.nbBlocLibre

def FailsCleanly (path : List Byte) (type : FileType) (s : Machine) : Prop :=
  Returns (createFile path type) s fun r t => r = returnFailure ∧ Unchanged s t

-- The lookups refuse the path: its parent is missing or no directory, or it
-- exists already.
def Rejected (path : List Byte) (s : Machine) : Prop :=
  ∃ r, (dinumberOfPath path s).1 = .ok r ∧ (r.1 = 0 ∨ ∃ i, (inumberOfPath path s).1 = .ok i ∧ i ≠ 0)

theorem Same.unchanged (same : Same s t) : Unchanged s t := by
  refine ⟨fun path => (calm_inumberOfPath path).agree same (.refl s),fun d => ?_,by rw [same.super]⟩
  unfold Machine.liveEntries
  rw [same.entries]

theorem outcome {p : M α} {a : α} (equal : (p s).1 = .ok a) : p s = (.ok a,(p s).2) := Prod.ext equal rfl

theorem rejected_unchanged (rejected : Rejected path s) : FailsCleanly path type s := by
  obtain ⟨r,found,why⟩ := rejected
  have same := (calm_dinumberOfPath (o := s) path).stays (.refl s)
  unfold FailsCleanly createFile
  rw [Returns,runs_bind]
  refine Runs.of_eq (outcome found) ?_
  generalize (dinumberOfPath path s).2 = t at same ⊢
  obtain ⟨idir,basename⟩ := r
  dsimp only at why ⊢
  by_cases none : idir = 0
  · rw [if_pos none]
    exact ⟨rfl,same.unchanged⟩
  obtain ⟨i,exists_,live⟩ := why.resolve_left none
  have agree := (calm_inumberOfPath path).agree same (.refl s)
  have same' := same.trans ((calm_inumberOfPath (o := t) path).stays (.refl t))
  rw [if_neg none,runs_bind]
  refine Runs.of_eq (outcome (agree.trans exists_)) ?_
  rw [if_pos live]
  exact ⟨rfl,same'.unchanged⟩

theorem counted_zero (counted : Counted 0 s t) : t.super.nbBlocLibre = s.super.nbBlocLibre := by
  obtain ⟨j,low,equal⟩ := counted
  obtain rfl := Nat.le_zero.mp low
  rw [equal]
  exact BitVec.sub_zero _

theorem Counted.same (same : Same s t) : Counted 0 s t :=
  ⟨0,Nat.le_refl 0,by rw [same.super]; exact (BitVec.sub_zero _).symm⟩

-- A bloc that is handed out is counted.
theorem newBloc_counts (s : Machine) : Runs newBloc s
    (fun b t => b ≠ 0 → t.super.nbBlocLibre = s.super.nbBlocLibre-1) (fun _ _ => True) := by
  unfold newBloc
  rw [runs_bind,runs_get,runs_ite]
  split
  · exact fun wrong => absurd rfl wrong
  rw [runs_bind,runs_current,runs_bind]
  refine ((counted_charged.readNbloc _ _ _).runs _).mono ?_ (fun _ _ _ => trivial)
  intro _ t read
  have first := counted_zero read
  have tail : ∀ next, Runs (do
      modify fun m => {m with super := {m.super with premierLibre := next}}
      modify fun m => {m with super := {m.super with nbBlocLibre := m.super.nbBlocLibre-1}}
      saveSuper
      return s.super.premierLibre : M Word) t
      (fun b u => b ≠ 0 → u.super.nbBlocLibre = s.super.nbBlocLibre-1) (fun _ _ => True) := by
    intro next
    simp only [runs_bind,runs_modify,runs_pure]
    refine ((counted_charged.saveSuper).runs _).mono ?_ (fun _ _ _ => trivial)
    intro _ u saved _
    rw [counted_zero saved,← first]
  rw [runs_bind,runs_ensure]
  split
  · rw [runs_ite]
    split
    · exact tail _
    · exact tail _
  · trivial

theorem createIfile_counts (type : FileType) (s : Machine) : Runs (createIfile type) s
    (fun _ t => t.super.nbBlocLibre = s.super.nbBlocLibre-1) (fun _ _ => True) := by
  unfold createIfile createInode
  rw [runs_bind,runs_bind]
  refine (newBloc_counts s).mono ?_ (fun _ _ => id)
  intro b t counted
  rw [runs_ite]
  split
  · rw [runs_pure,runs_bind,runs_ensure,if_neg (show ¬ blocNull ≠ 0 from not_not_intro rfl)]
    trivial
  · rename_i live
    rw [runs_bind]
    refine ((counted_charged.writeInode _ _).runs _).mono ?_ (fun _ _ _ => trivial)
    intro _ u written
    rw [runs_pure,runs_bind,runs_ensure,if_pos live,runs_pure,counted_zero written]
    exact counted live

-- add_entry looks for a slot first and takes blocs only to write it.
theorem addEntry_counts (idir inumber : Word) (name : List Byte) (s : Machine) : Runs (addEntry idir inumber name) s
    (fun _ t => Counted 183 s t) (fun _ _ => True) := by
  unfold addEntry
  rw [runs_bind]
  refine ((calm_readInode idir).post (.refl s)).mono ?_ (fun _ _ => id)
  intro inode t post
  obtain ⟨_,same⟩ := post
  rw [runs_ite]
  split
  · exact counted_charged.mono (by decide) (Counted.same same)
  rw [runs_bind]
  refine ((calm_openIfile idir).post same).mono ?_ (fun _ _ => id)
  intro result t1 post
  obtain ⟨r,fd⟩ := result
  obtain ⟨opened,same1⟩ := post
  dsimp only at opened ⊢
  rw [runs_bind]
  refine ((calm_newEntry opened).post same1).mono ?_ (fun _ _ => id)
  intro result t2 post
  obtain ⟨ientry,fd⟩ := result
  obtain ⟨found,same2⟩ := post
  dsimp only at found ⊢
  generalize Entry.encode ⟨inumber,entryName name⟩ = buf
  rw [runs_bind]
  refine ((calm_seek2Ifile found (ientry*20)).post same2).mono ?_ (fun _ _ => id)
  intro fd t3 post
  obtain ⟨_,same3⟩ := post
  rw [runs_bind]
  refine ((counted_charged.writeIfile fd _).runs t3).mono ?_ (fun _ _ _ => trivial)
  intro result t4 written
  obtain ⟨nbyte,fd'⟩ := result
  rw [runs_bind]
  refine ((counted_charged.closeIfile fd').runs t4).mono ?_ (fun _ _ _ => trivial)
  intro _ t5 closed
  have spent := counted_charged.trans (counted_charged.trans (Counted.same same3) written) closed
  exact counted_charged.mono (by decide) spent

theorem creation_counts (accepted : ¬ Rejected path s) : Runs (createFile path type) s
    (fun _ t => t.super.nbBlocLibre ≠ s.super.nbBlocLibre) (fun _ _ => True) := by
  unfold createFile
  rw [runs_bind]
  refine ((calm_dinumberOfPath path).runs (.refl s)).mono ?_ (fun _ _ _ => trivial)
  intro result t post
  obtain ⟨idir,basename⟩ := result
  obtain ⟨_,found,same⟩ := post
  dsimp only
  rw [runs_ite]
  split
  · rename_i none
    exact absurd ⟨_,found,Or.inl none⟩ accepted
  rw [runs_bind]
  refine ((calm_inumberOfPath path).runs same).mono ?_ (fun _ _ _ => trivial)
  intro i t1 post
  obtain ⟨_,looked,same1⟩ := post
  have here := ((calm_inumberOfPath path).agree (.refl s) same).trans looked
  rw [runs_ite]
  split
  · rename_i live
    exact absurd ⟨_,found,Or.inr ⟨i,here,live⟩⟩ accepted
  rw [runs_bind]
  refine (createIfile_counts type t1).mono ?_ (fun _ _ => id)
  intro inumber u counted
  rw [same1.super] at counted
  have less : u.super.nbBlocLibre ≠ s.super.nbBlocLibre := by
    rw [counted]
    bv_omega
  rw [runs_ite]
  split
  · exact less
  rw [runs_bind]
  refine (addEntry_counts idir inumber basename u).mono ?_ (fun _ _ => id)
  intro status v post
  obtain ⟨j,low,equal⟩ := post
  have still : v.super.nbBlocLibre ≠ s.super.nbBlocLibre := by
    rw [equal,counted]
    bv_omega
  rw [runs_ite]
  split
  · exact still
  · exact still

-- A creation fails without a trace exactly if the lookups refuse the path: a
-- shortage ends the program or costs blocs.
theorem create_atomic_exact (s : Machine) (path : List Byte) (type : FileType) :
    FailsCleanly path type s ↔ Rejected path s := by
  refine ⟨fun clean => ?_,rejected_unchanged⟩
  by_contra accepted
  exact Runs.excludes (creation_counts accepted) (fun _ _ differs both => differs both.2.count) clean

-- On a full disk a creation that the lookups let through ends the program.
theorem create_full_exits {role : Nat → Role} (type : FileType) (layout : Layout s role []) (browsable : Browsable s role)
    (parent : s.parent path ≠ 0) (new : s.resolve path = 0) :
    Runs (createFile path type) s (fun _ _ => False) (fun e t => e = .exit ∧ Still s t) := by
  unfold createFile
  rw [runs_bind]
  refine (runs_dinumberOfPath layout browsable).mono ?_ (fun _ _ => False.elim)
  intro result t post
  obtain ⟨idir,basename⟩ := result
  obtain ⟨rfl,_,still⟩ := post
  dsimp only
  rw [if_neg parent,runs_bind]
  refine (runs_inumberOfPath (layout.same still.same) (browsable.same still.same) path).mono ?_ (fun _ _ => False.elim)
  intro i u post
  obtain ⟨rfl,still'⟩ := post
  have full := (layout.same (still.same.trans still'.same)).chain.empty
  rw [if_neg (by rw [still.same.resolve,new]; exact not_not_intro rfl),createIfile,runs_bind,runs_bind,
    runs_createInode_full type full,runs_bind,runs_ensure,if_neg (not_not_intro rfl)]
  exact ⟨rfl,still.trans still'⟩

-- With no bloc for the inode create_file does not return at all.
theorem create_exits : ∃ s, initSuper 0 0 (zeros 8 32) (recordedDisk (volumeOf 2)) = (.ok (),s) ∧
    (createFile [slash,97] .file s).1 = .error .exit ∧ ¬ FailsCleanly [slash,97] .file s := by
  obtain ⟨s,equal,fresh,size⟩ := volumeOf_fresh (n := 2) (by decide) (by decide) 0 (zeros 8 32)
  have layout := fresh.layout
  rw [show List.range' 2 (s.nsec-2) = [] by rw [size]; rfl] at layout
  have root : s.resolve (dirname [slash,97]) = 1 := by
    have single : components (dirname [slash,97]) = [] := by decide
    have absolute : Absolute (dirname [slash,97]) := by decide
    unfold Machine.resolve
    rw [if_pos absolute,single]
    exact fresh.root
  have directory : s.IsDir (1 : Word).toNat := fresh.directory
  have parent : s.parent [slash,97] ≠ 0 := by
    unfold Machine.parent
    dsimp only
    rw [root,if_pos directory]
    decide
  have new : s.resolve [slash,97] = 0 := by
    have single : components [slash,97] = [[97]] := by decide
    have absolute : Absolute [slash,97] := by decide
    unfold Machine.resolve
    rw [if_pos absolute,single,Machine.walk,fresh.root,fresh.step,if_pos rfl]
  have exits := create_full_exits .file layout fresh.browsable parent new
  refine ⟨s,equal,?_,fun clean => ?_⟩
  · unfold Runs at exits
    split at exits
    · exact exits.elim
    · rename_i e t ran
      rw [ran,exits.1]
  · obtain ⟨r,t,ran,_⟩ := returns_iff.mp clean
    exact exits.result ran

end AsePlusPlus
