import AsePlusPlus.Handles
import AsePlusPlus.Namespace
import AsePlusPlus.Canonical

namespace AsePlusPlus
open Words Program

variable {role role' : Nat → Role} {free free' rest : List Nat} {s t u : Machine} {fd fd' : FileDesc} {b : Nat} {path : List Byte}
variable {spared : List Byte → Prop} {inumber : Word}

-- A path that leads to a directory.
def Machine.Browses (s : Machine) (path : List Byte) : Prop := s.resolve path ≠ 0 ∧ s.IsDir (s.resolve path).toNat

-- What a call leaves of a well-formed volume: the paths that it spares lead where
-- they led.
structure Retains (spared : List Byte → Prop) (s t : Machine) (role role' : Nat → Role) (free free' : List Nat) : Prop
    extends Carries s t role role' free free' where
  ordered : Ordered t role' free'
  backs : Backs s t free free'
  leads : ∀ q, spared q → s.resolve q ≠ 0 → t.resolve q = s.resolve q

theorem Retains.browses (kept : Retains spared s t role role' free free') (browsable : Browsable s role) (safe : spared path)
    (here : s.Browses path) : t.Browses path := by
  obtain ⟨some,dir⟩ := here
  have same := kept.leads path safe some
  unfold Machine.Browses
  rw [same]
  exact ⟨some,(kept.isDir (resolve_node browsable some)).mpr dir⟩

-- What leaves the directories alone spares every path.
theorem Spares.keeps (spares : Spares s t role role' free free') (ordered : Ordered s role free) (backed : Backed s free)
    (backs : Backs s t free free') : Retains spared s t role role' free free' := by
  obtain ⟨after,same⟩ := ordered.spares spares ((backs.backed backed).imp_right And.left)
  exact ⟨spares.toCarries,after,backs,fun q _ _ => same q⟩

theorem Same.within (same : Same s t) : Within s t := by
  obtain ⟨_,_,_,rfl⟩ := same
  exact ⟨rfl,rfl,rfl,rfl,fun _ _ => rfl⟩

theorem Same.grew (same : Same s t) (layout : Layout s role free) : Grew s t role role free free :=
  Starved.grew ⟨same.within,same.super,fun c _ => same.blk c⟩ layout

theorem Same.keeps (same : Same s t) (ordered : Ordered s role free) (backed : Backed s free) :
    Retains spared s t role role free free :=
  ((same.grew ordered.layout).spares ordered.layout).keeps ordered backed
    ⟨fun synced => .inl (same.synced synced),fun drained => ⟨drained.1,(same.blk 0).trans drained.2⟩⟩

-- The way to a path goes through its ancestors.
theorem walk_ancestor (s : Machine) {i : Word} {p names : List (List Byte)} (before : p <+: names) (some : s.walk i names ≠ 0)
    (start : i ≠ 0) : s.walk i p ≠ 0 := by
  induction p generalizing i names with
  | nil => exact start
  | cons c p ih =>
      obtain ⟨more,whole⟩ := before
      subst whole
      rw [List.cons_append,Machine.walk] at some
      rw [Machine.walk]
      split at some
      · exact absurd rfl some
      · rename_i step
        rw [if_neg step]
        exact ih (List.prefix_append p more) some step

theorem Ordered.ancestor (ordered : Ordered s role free) (before : components path <+: components q) (absolute : Absolute path)
    (some : s.resolve q ≠ 0) : s.resolve path ≠ 0 := by
  unfold Machine.resolve at some ⊢
  split at some
  · rw [if_pos absolute]
    exact walk_ancestor s before some (ordered.tree.root_real ordered.layout)
  · exact absurd rfl some

theorem Ordered.leads (ordered : Ordered s role free) (ordered' : Ordered t role' free') (elsewhere : Elsewhere path s t)
    (outside : ¬ components path <+: components q) : t.resolve q = s.resolve q := by
  have same := elsewhere q outside
  rw [ordered.lookup,ordered'.lookup] at same
  exact Except.ok.inj same

-- A creation that adds a name leads no path elsewhere.
theorem Made.keeps (made : Made s t role b rest path) (ordered : Ordered s role (b :: rest)) (text : 0 ∉ path)
    (parent : s.parent path ≠ 0) (new : s.resolve path = 0) (short : (lastBasename path).length ≤ 15) :
    ∃ role' free', Retains spared s t role role' (b :: rest) free' ∧ role' b = .inode := by
  obtain ⟨m,role',free',spares,edited,sound⟩ := made
  obtain ⟨after,_,others⟩ := ordered.grown text parent new short spares edited sound
  refine ⟨role',free',⟨spares.toCarries.trans edited.toExtends.toCarries,after,?_,fun q _ some => ?_⟩,
    edited.node (Function.update_self _ _ _)⟩
  · exact ⟨fun synced => .inl (sound.synced synced),fun drained => absurd drained.1 (by simp)⟩
  · apply ordered.leads after others
    intro before
    exact ordered.ancestor before (parent_absolute parent) some new

-- A creation that the lookups let through has a name that is kept whole, an entry
-- that reads as it was written, and its blocs, or not even the first; a directory
-- without a slot keeps it for ever.
def Creates (s : Machine) (path : List Byte) : Prop :=
  Rejected path s ∨ s.super.nbBlocLibre = 0 ∨ 3174 ≤ s.vacancy (s.parent path).toNat ∨
    ((lastBasename path).length ≤ 15 ∧ (newcomer s.super.premierLibre (lastBasename path)).Plain ∧ s.Whole (s.parent path).toNat)

theorem runs_createFile_keeps (type : FileType) (ordered : Ordered s role free) (backed : Backed s free) (text : 0 ∉ path)
    (creates : Creates s path) :
    Runs (createFile path type) s (fun r t => ∃ role' free', Retains (fun _ => True) s t role role' free free' ∧
      (r = returnFailure ∨ (role' r.toNat = .inode ∧ t.entryAt r.toNat 0 = type.code))) (fun _ _ => True) := by
  have layout := ordered.layout
  have browsable := ordered.tree.toBrowsable
  by_cases refused : s.parent path = 0 ∨ s.resolve path ≠ 0
  · refine Runs.of_returns (runs_createFile_rejected type layout browsable refused) ?_
    intro r t post
    exact ⟨role,free,post.2.same.keeps ordered backed,.inl post.1⟩
  obtain ⟨parent,exists_⟩ := not_or.mp refused
  have new := not_not.mp exists_
  cases free with
  | nil => exact (create_full_exits type layout browsable parent new).mono (fun _ _ => False.elim) (fun _ _ _ => trivial)
  | cons b rest =>
      have count := layout.chain.count
      have synced := ordered.synced.resolve_right (by simp)
      have head := layout.chain.head
      have through := creates.resolve_left fun wrong => refused ((rejected_iff layout browsable).mp wrong)
      have through := through.resolve_left (by
        intro none
        rw [none] at count
        cases count)
      rcases Nat.lt_or_ge (s.vacancy (s.parent path).toNat) 3174 with room | full
      swap
      · exact (runs_createFile_lost type layout browsable synced parent new full).mono (fun _ _ => False.elim) (fun _ _ _ => trivial)
      obtain ⟨short,plain,whole⟩ := through.resolve_left (by omega)
      by_cases enough : s.lacks (s.parent path).toNat (s.vacancy (s.parent path).toNat) ≤ rest.length
      · refine Runs.of_returns (runs_createFile_typed type layout browsable parent new plain room enough) ?_
        intro r t post
        obtain ⟨done,made,typed⟩ := post
        obtain ⟨role',free',kept,node⟩ := made.keeps ordered text parent new short
        rw [done,head]
        exact ⟨role',free',kept,.inr ⟨node,typed⟩⟩
      · obtain ⟨node,dir,_⟩ := parent_dir browsable parent
        obtain ⟨hole,none⟩ := whole.starved (browsable.dirs _ node dir) count (Nat.lt_of_not_le enough)
        obtain rfl := List.length_eq_zero_iff.mp none
        refine Runs.of_returns (runs_createFile_short type layout browsable parent new room hole) ?_
        intro r t post
        obtain ⟨failed,lost,role',spares⟩ := post
        refine ⟨role',[],spares.keeps ordered backed ⟨fun _ => .inr ⟨rfl,lost⟩,fun _ => ⟨rfl,lost⟩⟩,.inl failed⟩

-- Also where bloc 0 is lost a deletion leaves it so.
theorem runs_delEntry_backs {idir : Word} {name : List Byte} (layout : Layout s role free)
    (readable : s.IsDir idir.toNat → DirOk s idir.toNat) (node : role idir.toNat = .inode) (backed : Backed s free) :
    Runs (delEntry idir name) s (fun _ t => ∃ free', Backs s t free free') (fun _ _ => True) := by
  refine runs_delEntry_at layout readable node (fun t still _ => ⟨free,still.backs⟩) ?_
  intro k fd t ok _ present _ still file scan
  have few := ok.slotted.few
  have position := scan.position
  have handle : Handle t role free fd := ⟨scan.here,.inl (by omega),fun wrong => absurd wrong (by simp [scan.clean])⟩
  unfold emptyEntry writeIfile
  rw [runs_bind,runs_bind]
  refine (handle.writeChars scan.layout (still.backs.backed backed) _).mono ?_ (fun _ _ => id)
  intro r u wrote
  obtain ⟨role',free',fed⟩ := wrote
  rw [runs_pure,runs_bind]
  refine Runs.of_returns (fed.handle.close fed.filed.layout) ?_
  intro _ v closed
  exact ⟨free',(still.backs.trans fed.backs).trans closed.2.2.1⟩

-- A deletion cuts the paths through its name.
theorem runs_deleteFile_keeps (ordered : Ordered s role free) (backed : Backed s free) :
    Runs (deleteFile path) s (fun _ t => ∃ role' free',
      Retains (fun q => s.resolve path = 0 ∨ lastBasename path = [] ∨ ¬ components path <+: components q) s t role role' free free')
      (fun _ _ => True) := by
  have layout := ordered.layout
  have tree := ordered.tree
  have backs : Runs (deleteFile path) s (fun _ t => ∃ free', Backs s t free free') (fun _ _ => True) := by
    unfold deleteFile
    rw [runs_bind]
    refine Runs.of_returns (runs_dinumberOfPath layout tree.toBrowsable) ?_
    intro r t found
    obtain ⟨directory,_,still⟩ := found
    dsimp only
    by_cases none : r.1 = 0
    · rw [if_pos none]
      exact ⟨free,still.backs⟩
    rw [if_neg none]
    have browsable := tree.toBrowsable.same still.same
    obtain ⟨node,_⟩ := parent_dir tree.toBrowsable (by rw [← directory]; exact none)
    rw [← directory] at node
    refine (runs_delEntry_backs (layout.same still.same) (browsable.dirs _ node) node (still.backs.backed backed)).mono ?_ (fun _ _ => id)
    intro _ u last
    obtain ⟨free',backs⟩ := last
    exact ⟨free',still.backs.trans backs⟩
  refine (backs.and (Runs.of_returns (runs_deleteFile layout tree.toBrowsable) fun _ _ => id)).mono ?_ (fun _ _ => id)
  intro r t post
  obtain ⟨⟨_,behind⟩,post⟩ := post
  rcases post with ⟨_,still,_⟩ | ⟨_,parent,found,k,role',free',first,inside,edited,sound⟩
  · exact ⟨role,free,still.same.keeps ordered backed⟩
  obtain ⟨after,short,_,others⟩ := ordered.cut parent first inside edited sound
  refine ⟨role',free',edited.toExtends.toCarries,after,?_,fun q safe some => ?_⟩
  · refine ⟨fun synced => .inl (sound.synced synced),fun drained => ⟨?_,(behind.drained drained).2⟩⟩
    obtain ⟨used,split⟩ := edited.used
    rw [drained.1] at split
    exact (List.append_eq_nil_iff.mp split.symm).2
  have absolute := parent_absolute parent
  have outside : ¬ components (dirname path) ++ [lastBasename path] <+: components q := by
    intro before
    by_cases none : lastBasename path = []
    · rw [none] at before
      exact (components_named q [] (before.subset (by simp))).1 rfl
    · rw [← components_dirname absolute none] at before
      rcases safe with missing | wrong | away
      · rw [step_basename layout tree parent none,List.take_of_length_le (by omega)] at missing
        exact found missing
      · exact none wrong
      · exact away before
  unfold Machine.resolve at some ⊢
  split at some
  · rename_i rooted
    rw [if_pos rooted,if_pos rooted,others _ outside]
  · exact absurd rfl some

end AsePlusPlus
