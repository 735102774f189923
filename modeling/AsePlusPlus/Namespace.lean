import Mathlib.Data.List.Nodup
import AsePlusPlus.Creation
import AsePlusPlus.Lib.Trace

namespace AsePlusPlus
open Words Program Forest Trace

-- A call that comes to an end, with what it returns. Pathnames are C strings.
inductive NameCall where
  | create (path : List Byte) (type : FileType) (r : Word)
  | delete (path : List Byte) (r : Word)

inductive NameStep : Machine → NameCall → Machine → Prop
  | create {s t : Machine} {path : List Byte} {type : FileType} {r : Word} (text : 0 ∉ path)
      (ran : createFile path type s = (.ok r,t)) : NameStep s (.create path type r) t
  | delete {s t : Machine} {path : List Byte} {r : Word} (text : 0 ∉ path)
      (ran : deleteFile path s = (.ok r,t)) : NameStep s (.delete path r) t

variable {role role' : Nat → Role} {free free' rest : List Nat} {s t u m : Machine} {b d k : Nat} {path q : List Byte} {r : Word}
variable {type : FileType} {e : Entry} {c : NameCall} {past : List (Machine × NameCall)}

-- What inumber_of_path says about the paths that do not lead through `path`.
def Elsewhere (path : List Byte) (s t : Machine) : Prop :=
  ∀ q, ¬ components path <+: components q → (inumberOfPath q t).1 = (inumberOfPath q s).1

def Lawful (s : Machine) : NameCall → Machine → Prop
  | .create path _ r,t => Absolute path → lastBasename path ≠ [] →
      (r ≠ returnFailure → (inumberOfPath path t).1 = .ok r ∧ Elsewhere path s t) ∧
      ∀ i, (inumberOfPath path s).1 = .ok i → i ≠ 0 → r = returnFailure
  | .delete path r,t => Absolute path → lastBasename path ≠ [] → r ≠ returnFailure →
      (inumberOfPath path t).1 = .ok 0 ∧ Elsewhere path s t

-- No directory that a path leads to has two live entries for one name.
def Unambiguous (s : Machine) : Prop :=
  ∀ q d, (inumberOfPath q s).1 = .ok d → d ≠ 0 → s.IsDir d.toNat → ((s.liveEntries d.toNat).map Entry.name).Nodup

-- A creation that the lookups let through keeps the whole name, its entry reads
-- as it was written, and is not cut short by the free chain.
def Fitting (s : Machine) : NameCall → Prop
  | .create path _ _ => Rejected path s ∨ ((lastBasename path).length ≤ 15 ∧
      (newcomer s.super.premierLibre (lastBasename path)).Plain ∧ s.Whole (s.parent path).toNat)
  | .delete _ _ => True

-- The invariant: a well-formed volume whose directories form a tree.
structure Ordered (s : Machine) (role : Nat → Role) (free : List Nat) : Prop where
  layout : Layout s role free
  tree : Tree s role
  synced : Synced s ∨ free = []

theorem inumberOfPath_eq (layout : Layout s role free) (browsable : Browsable s role) (path : List Byte) :
    (inumberOfPath path s).1 = .ok (s.resolve path) := by
  obtain ⟨i,t,ran,rfl,_⟩ := returns_iff.mp (runs_inumberOfPath layout browsable path)
  rw [ran]

theorem Ordered.lookup (ordered : Ordered s role free) (path : List Byte) : (inumberOfPath path s).1 = .ok (s.resolve path) :=
  inumberOfPath_eq ordered.layout ordered.tree.toBrowsable path

theorem rejected_iff (layout : Layout s role free) (browsable : Browsable s role) :
    Rejected path s ↔ s.parent path = 0 ∨ s.resolve path ≠ 0 := by
  have found : Returns (dinumberOfPath path) s fun r _ => r.1 = s.parent path :=
    (runs_dinumberOfPath layout browsable).mono (fun _ _ all => all.1) (fun _ _ => id)
  obtain ⟨r,t,ran,equal⟩ := returns_iff.mp found
  unfold Rejected
  rw [ran,inumberOfPath_eq layout browsable]
  constructor
  · intro post
    obtain ⟨_,found,why⟩ := post
    obtain rfl := Except.ok.inj found
    rw [equal] at why
    exact why.imp id fun ⟨i,here,live⟩ => by obtain rfl := Except.ok.inj here; exact live
  · intro why
    refine ⟨r,rfl,?_⟩
    rw [equal]
    exact why.imp id fun live => ⟨_,rfl,live⟩

theorem Tree.distinct_names (tree : Tree s role) (node : role d = .inode) (dir : s.IsDir d) :
    ((s.liveEntries d).map Entry.name).Nodup := by
  unfold Machine.liveEntries Machine.entries
  rw [List.filter_map,List.map_map]
  refine List.Nodup.map_on ?_ (List.nodup_range.filter _)
  intro i one j two same
  simp only [List.mem_filter,List.mem_range,Function.comp_apply,decide_eq_true_eq] at one two
  rw [Function.comp_apply,Function.comp_apply] at same
  have first : Live s role d i (s.slotAt d i) := ⟨node,dir,one.1,rfl,one.2⟩
  have second : Live s role d j (s.slotAt d j) := ⟨node,dir,two.1,rfl,two.2⟩
  exact tree.distinct first second same

theorem Ordered.unambiguous (ordered : Ordered s role free) : Unambiguous s := by
  intro q d found live dir
  rw [ordered.lookup] at found
  have here := Except.ok.inj found
  subst here
  exact ordered.tree.distinct_names (resolve_node ordered.tree.toBrowsable live) dir

-- Tree and lookups through what leaves the directories alone.
theorem Ordered.spares (ordered : Ordered s role free) (spares : Spares s t role role' free free')
    (synced : Synced t ∨ free' = []) : Ordered t role' free' ∧ ∀ q, t.resolve q = s.resolve q := by
  refine ⟨⟨spares.layout,spares.tree ordered.tree,synced⟩,fun q => ?_⟩
  unfold Machine.resolve
  rw [spares.walk ordered.tree ordered.layout]

theorem Ordered.still (ordered : Ordered s role free) (still : Still s t) : Ordered t role free :=
  (ordered.spares (still.spares ordered.layout) (ordered.synced.imp still.same.synced id)).1

theorem parent_walk (parent : s.parent path ≠ 0) (browsable : Browsable s role) :
    s.walk s.super.rootInumber (components (dirname path)) = s.parent path := by
  have found := (parent_dir browsable parent).2.2
  unfold Machine.resolve at found
  rwa [if_pos (absolute_dirname (parent_absolute parent))] at found

-- A path that the lookups let through ends in a name, which its parent lacks.
theorem new_basename (parent : s.parent path ≠ 0) (browsable : Browsable s role) (new : s.resolve path = 0) :
    lastBasename path ≠ [] := by
  intro none
  have whole := dirname_append path
  rw [none,List.append_nil] at whole
  have found := (parent_dir browsable parent).2.2
  rw [whole,new] at found
  exact parent found.symm

theorem step_basename (layout : Layout s role free) (tree : Tree s role) (parent : s.parent path ≠ 0) (some : lastBasename path ≠ []) :
    s.resolve path = s.step (s.parent path) ((lastBasename path).take 16) := by
  have absolute := parent_absolute parent
  have walked := parent_walk parent tree.toBrowsable
  unfold Machine.resolve
  rw [if_pos absolute,components_dirname absolute some,walk_snoc s (tree.root_real layout),walked,if_neg parent]

theorem elsewhere (ordered : Ordered s role free) (ordered' : Ordered t role' free') (absolute : Absolute path)
    (some : lastBasename path ≠ [])
    (same : ∀ names, ¬ components (dirname path) ++ [lastBasename path] <+: names →
      t.walk t.super.rootInumber names = s.walk s.super.rootInumber names) : Elsewhere path s t := by
  intro q outside
  rw [ordered.lookup,ordered'.lookup]
  rw [components_dirname absolute some] at outside
  unfold Machine.resolve
  rw [same _ outside]

theorem Ordered.addable (ordered : Ordered s role (b :: rest)) (text : 0 ∉ path) (parent : s.parent path ≠ 0)
    (new : s.resolve path = 0) (short : (lastBasename path).length ≤ 15)
    (spares : Spares s m role (Function.update role b .inode) (b :: rest) rest) :
    Addable m (Function.update role b .inode) (s.parent path).toNat (s.vacancy (s.parent path).toNat)
      (newcomer s.super.premierLibre (lastBasename path)) := by
  have layout := ordered.layout
  have tree := ordered.tree
  have head := layout.chain.head
  have unused : role b = .free := (layout.vacant b).mpr (by simp)
  obtain ⟨node,dir,_⟩ := parent_dir tree.toBrowsable parent
  have plain : 0 ∉ lastBasename path := fun member => text (by
    rw [← dirname_append path]
    exact List.mem_append_right _ member)
  have name : (newcomer s.super.premierLibre (lastBasename path)).name = lastBasename path := by
    rw [newcomer_name plain,List.take_of_length_le short]
  have number : (newcomer s.super.premierLibre (lastBasename path)).entInumber.toNat = b := head
  have leads : ∀ {d' k' x}, Live s role d' k' x → role x.entInumber.toNat = .inode := fun live =>
    tree.nodes _ live.node live.dir _ (mem_entries.mpr ⟨_,live.slot,live.entry⟩) live.live
  refine ⟨fun x live => ?_,layout.chain.head_ne,by rw [name]; exact short,fun k' x live => ?_,fun d' k' x live => ?_,
    fun k' x live => ?_,?_,?_⟩
  · rw [← spares.vacancy node dir] at live
    exact vacancy_live _ _ _ live
  · rw [name]
    intro same
    have old := spares.live.mp live
    have cut : (lastBasename path).take 16 = lastBasename path := List.take_of_length_le (by omega)
    have found := (tree.step_edge old.node old.live (lastBasename path)).mpr ⟨k',x,old,same,rfl⟩
    rw [step_basename layout tree parent (new_basename parent tree.toBrowsable new),found] at new
    exact old.live new
  · intro same
    have old := leads (spares.live.mp live)
    rw [same,number,unused] at old
    cases old
  · have old := (spares.live.mp live).node
    rw [number,unused] at old
    cases old
  · rw [number]
    intro same
    obtain rfl := same
    rw [unused] at node
    cases node
  · rw [spares.root]
    intro same
    have root := tree.root
    rw [← same,number,unused] at root
    cases root

-- A creation that succeeds adds its name to the tree.
theorem Ordered.grown (ordered : Ordered s role (b :: rest)) (text : 0 ∉ path) (parent : s.parent path ≠ 0) (new : s.resolve path = 0)
    (short : (lastBasename path).length ≤ 15) (spares : Spares s m role (Function.update role b .inode) (b :: rest) rest)
    (edited : Edited m t (Function.update role b .inode) role' rest free' (s.parent path).toNat (s.vacancy (s.parent path).toNat)
      (newcomer s.super.premierLibre (lastBasename path))) (sound : Sound s t) :
    Ordered t role' free' ∧ (inumberOfPath path t).1 = .ok s.super.premierLibre ∧ Elsewhere path s t := by
  have layout := ordered.layout
  have tree := ordered.tree
  have synced := ordered.synced.resolve_right (by simp)
  have absolute := parent_absolute parent
  have some := new_basename parent tree.toBrowsable new
  have plain : 0 ∉ lastBasename path := fun member => text (by
    rw [← dirname_append path]
    exact List.mem_append_right _ member)
  obtain ⟨node,dir,_⟩ := parent_dir tree.toBrowsable parent
  have addable := ordered.addable text parent new short spares
  have leads : role' (newcomer s.super.premierLibre (lastBasename path)).entInumber.toNat = .inode := by
    refine edited.node ?_
    rw [show (newcomer s.super.premierLibre (lastBasename path)).entInumber.toNat = b from layout.chain.head,Function.update_self]
  have found : m.walk m.super.rootInumber (components (dirname path)) = s.parent path := by
    rw [spares.walk tree layout]
    exact parent_walk parent tree.toBrowsable
  have name : (newcomer s.super.premierLibre (lastBasename path)).name = lastBasename path := by
    rw [newcomer_name plain,List.take_of_length_le short]
  obtain ⟨here,others⟩ := edited.walk_more (spares.node node) ((spares.isDir node).mpr dir) rfl addable spares.layout
    (spares.tree tree) leads found
  rw [name] at here others
  have after : Ordered t role' free' :=
    ⟨edited.layout,edited.tree_more (spares.node node) ((spares.isDir node).mpr dir) addable (spares.tree tree) leads,
      Or.inl (sound.synced synced)⟩
  refine ⟨after,?_,elsewhere ordered after absolute some fun names outside => ?_⟩
  · rw [after.lookup]
    unfold Machine.resolve
    rw [if_pos absolute,components_dirname absolute some,here]
    rfl
  · rw [others names outside,spares.walk tree layout]

theorem Ordered.made (ordered : Ordered s role (b :: rest)) (text : 0 ∉ path) (parent : s.parent path ≠ 0) (new : s.resolve path = 0)
    (short : (lastBasename path).length ≤ 15) (made : Made s t role b rest path) :
    ∃ role' free', Ordered t role' free' ∧ (inumberOfPath path t).1 = .ok s.super.premierLibre ∧ Elsewhere path s t := by
  obtain ⟨m,role',free',spares,edited,sound⟩ := made
  exact ⟨role',free',ordered.grown text parent new short spares edited sound⟩

-- A deletion that finds its name takes it from the tree.
theorem Ordered.cut (ordered : Ordered s role free) (parent : s.parent path ≠ 0)
    (first : First (Entry.names (lastBasename path)) (s.byteAt (s.parent path).toNat) 0 (s.slots (s.parent path).toNat) k)
    (inside : k < s.slots (s.parent path).toNat) (edited : Edited s t role role' free free' (s.parent path).toNat k vacated)
    (sound : Sound s t) : Ordered t role' free' ∧ (lastBasename path).length ≤ 15 ∧
    t.walk t.super.rootInumber (components (dirname path) ++ [lastBasename path]) = 0 ∧
    ∀ names, ¬ components (dirname path) ++ [lastBasename path] <+: names →
      t.walk t.super.rootInumber names = s.walk s.super.rootInumber names := by
  have tree := ordered.tree
  obtain ⟨node,dir,_⟩ := parent_dir tree.toBrowsable parent
  obtain ⟨live,name⟩ := first.here inside
  have was : Live s role (s.parent path).toNat k (s.slotAt (s.parent path).toNat k) := ⟨node,dir,inside,rfl,live⟩
  obtain ⟨gone,others⟩ := edited.walk_less node dir rfl vacated_null tree was ordered.layout
    (parent_walk parent tree.toBrowsable)
  have short := tree.short was
  rw [show (s.slotAt (s.parent path).toNat k).name = lastBasename path from name] at gone others short
  refine ⟨⟨edited.layout,edited.tree_less node dir vacated_null tree,ordered.synced.imp sound.synced fun none => ?_⟩,short,gone,others⟩
  obtain ⟨used,split⟩ := edited.used
  rw [none] at split
  exact (List.append_eq_nil_iff.mp split.symm).2

theorem NameStep.create_keeps (ordered : Ordered s role free) (text : 0 ∉ path) (ran : createFile path type s = (.ok r,t))
    (fitting : Fitting s (.create path type r)) : Lawful s (.create path type r) t ∧ ∃ role' free', Ordered t role' free' := by
  have browsable := ordered.tree.toBrowsable
  by_cases refused : s.parent path = 0 ∨ s.resolve path ≠ 0
  · obtain ⟨failed,still⟩ := (runs_createFile_rejected type ordered.layout browsable refused).result ran
    exact ⟨fun _ _ => ⟨fun live => absurd failed live,fun _ _ _ => failed⟩,role,free,ordered.still still⟩
  obtain ⟨short,plain,whole⟩ := fitting.resolve_left fun wrong => refused ((rejected_iff ordered.layout browsable).mp wrong)
  obtain ⟨parent,exists_⟩ := not_or.mp refused
  have new := not_not.mp exists_
  cases free with
  | nil => exact ((create_full_exits type ordered.layout browsable parent new).result ran).elim
  | cons b rest =>
      have synced := ordered.synced.resolve_right (by simp)
      have absent : ∀ i, (inumberOfPath path s).1 = .ok i → i ≠ 0 → r = returnFailure := by
        intro i found live
        rw [ordered.lookup,new] at found
        exact absurd (Except.ok.inj found).symm live
      cases (runs_createFile type ordered.layout browsable synced parent new plain whole).result ran with
      | short failed role' spares =>
          exact ⟨fun _ _ => ⟨fun live => absurd failed live,absent⟩,role',[],(ordered.spares spares (Or.inr rfl)).1⟩
      | made done made =>
          subst done
          obtain ⟨role',free',after,here,others⟩ := ordered.made text parent new short made
          exact ⟨fun _ _ => ⟨fun _ => ⟨here,others⟩,absent⟩,role',free',after⟩

theorem NameStep.delete_keeps (ordered : Ordered s role free) (ran : deleteFile path s = (.ok r,t)) :
    Lawful s (.delete path r) t ∧ ∃ role' free', Ordered t role' free' := by
  have tree := ordered.tree
  rcases (runs_deleteFile ordered.layout tree.toBrowsable).result ran with
    ⟨failed,still,_⟩ | ⟨_,parent,_,k,role',free',first,inside,edited,sound⟩
  · exact ⟨fun _ _ live => absurd failed live,role,free,ordered.still still⟩
  obtain ⟨after,_,gone,others⟩ := ordered.cut parent first inside edited sound
  refine ⟨fun absolute some _ => ⟨?_,elsewhere ordered after absolute some others⟩,role',free',after⟩
  rw [after.lookup]
  unfold Machine.resolve
  rw [if_pos absolute,components_dirname absolute some,gone]

theorem NameStep.keeps (ordered : Ordered s role free) (fitting : Fitting s c) (taken : NameStep s c t) :
    Lawful s c t ∧ ∃ role' free', Ordered t role' free' := by
  cases taken with
  | create text ran => exact NameStep.create_keeps ordered text ran fitting
  | delete _ ran => exact NameStep.delete_keeps ordered ran

theorem Fresh.live (fresh : Fresh s) : ¬ Live s (freshRole s.nsec) d k e := by
  intro live
  obtain rfl := (freshRole_node _ _).mp live.node
  have slot := live.slot
  rw [fresh.slots] at slot
  exact Nat.not_lt_zero k slot

theorem Fresh.ordered (fresh : Fresh s) : Ordered s (freshRole s.nsec) (List.range' 2 (s.nsec-2)) :=
  ⟨fresh.layout,⟨fresh.browsable,fun live => absurd live fresh.live,fun live => absurd live fresh.live,
    fun live => absurd live fresh.live,fun live => absurd live fresh.live⟩,Or.inl fresh.synced⟩

-- As long as no creation loses a part of its entry, the paths are a map: every
-- call of a run obeys the law and no directory is ambiguous.
theorem namespace_lawful (fresh : Fresh s) (run : Run NameStep s past t) (met : Met Fitting past) :
    Unambiguous t ∧ ∀ c u, NameStep t c u → Fitting t c → Lawful t c u := by
  have keep : ∀ t c u, (∃ role free, Ordered t role free) → Fitting t c → NameStep t c u → ∃ role free, Ordered u role free := by
    intro t c u result fitting taken
    obtain ⟨role,free,ordered⟩ := result
    exact (taken.keeps ordered fitting).2
  obtain ⟨role,free,ordered⟩ := (run.keeps Fitting keep ⟨_,_,fresh.ordered⟩ met).1
  exact ⟨ordered.unambiguous,fun c u taken fitting => (taken.keeps ordered fitting).1⟩

-- The first file of a new volume.
theorem first_typed (absolute : Absolute path) (rooted : components (dirname path) = []) (name : List Byte)
    (single : components path = [name]) (plain : (newcomer 2 (lastBasename path)).Plain) :
    ∃ s t, initSuper 0 0 (zeros 8 32) (recordedDisk (volumeOf 64)) = (.ok (),s) ∧ Fresh s ∧ s.nsec = 64 ∧
      s.super.premierLibre = 2 ∧ s.parent path = 1 ∧ s.Whole 1 ∧ createFile path .file s = (.ok 2,t) ∧
      Made s t (freshRole 64) 2 (List.range' 3 61) path ∧ t.entryAt 2 0 = FileType.file.code := by
  obtain ⟨s,equal,fresh,size⟩ := volumeOf_fresh (n := 64) (by decide) (by decide) 0 (zeros 8 32)
  have sectors : s.nsec = 64 := size
  have layout := fresh.layout
  have browsable := fresh.browsable
  rw [sectors] at layout browsable
  have head : s.super.premierLibre = 2 := BitVec.eq_of_toNat_eq layout.chain.head
  have parent : s.parent path = 1 := by
    have root : s.resolve (dirname path) = 1 := by
      unfold Machine.resolve
      rw [if_pos (absolute_dirname absolute),rooted]
      exact fresh.root
    have directory : s.IsDir (1 : Word).toNat := fresh.directory
    unfold Machine.parent
    dsimp only
    rw [root,if_pos directory]
  have new : s.resolve path = 0 := by
    unfold Machine.resolve
    rw [if_pos absolute,single,Machine.walk,fresh.root,fresh.step,if_pos rfl]
  have vacancy := fresh.vacancy
  have one : (1 : Word).toNat = 1 := rfl
  have made := runs_createFile_typed .file layout browsable (by rw [parent]; decide) new (by rw [head]; exact plain)
    (by rw [parent,one,vacancy]; decide) (by rw [parent,one,vacancy,fresh.lacks]; decide)
  obtain ⟨r,t,ran,value,post⟩ := returns_iff.mp made
  rw [value,head] at ran
  have whole : s.Whole 1 := Or.inl (by rw [vacancy]; exact fresh.unmapped _)
  exact ⟨s,t,equal,fresh,sectors,head,parent,whole,ran,post⟩

theorem first_create (absolute : Absolute path) (rooted : components (dirname path) = []) (name : List Byte)
    (single : components path = [name]) (plain : (newcomer 2 (lastBasename path)).Plain) :
    ∃ s t, initSuper 0 0 (zeros 8 32) (recordedDisk (volumeOf 64)) = (.ok (),s) ∧ Fresh s ∧ s.nsec = 64 ∧
      s.super.premierLibre = 2 ∧ s.parent path = 1 ∧ s.Whole 1 ∧ createFile path .file s = (.ok 2,t) ∧ Made s t (freshRole 64) 2 (List.range' 3 61) path := by
  obtain ⟨s,t,equal,fresh,size,head,parent,whole,ran,made,_⟩ := first_typed absolute rooted name single plain
  exact ⟨s,t,equal,fresh,size,head,parent,whole,ran,made⟩

-- What the root holds then.
theorem first_entry (fresh : Fresh s) (parent : s.parent path = 1)
    (made : Made s t (freshRole 64) 2 (List.range' 3 61) path) :
    t.super.rootInumber = 1 ∧ t.IsDir 1 ∧ t.slots 1 = 1 ∧ t.slotAt 1 0 = newcomer s.super.premierLibre (lastBasename path) := by
  obtain ⟨m,role',free',spares,edited,_⟩ := made
  have one : (1 : Word).toNat = 1 := rfl
  have node : freshRole 64 1 = .inode := (freshRole_node 64 1).mpr rfl
  have dir : s.IsDir 1 := fresh.directory
  rw [parent,one,fresh.vacancy] at edited
  refine ⟨?_,?_,?_,edited.written⟩
  · rw [edited.root,spares.root,fresh.root]
  · exact (edited.isDir (spares.node node)).mpr ((spares.isDir node).mpr dir)
  · rw [edited.slots,spares.slots node dir,fresh.slots]
    rfl

-- The first file of a new volume, deleted again.
theorem first_delete : ∃ s t u r role free role' free', initSuper 0 0 (zeros 8 32) (recordedDisk (volumeOf 64)) = (.ok (),s) ∧ Fresh s ∧
    createFile [slash,97] .file s = (.ok 2,t) ∧ Fitting s (.create [slash,97] .file 2) ∧ Ordered t role free ∧
    t.super.rootInumber = 1 ∧ t.IsDir 1 ∧ t.slots 1 = 1 ∧ (t.slotAt 1 0).entInumber = 2 ∧ deleteFile [slash,97] t = (.ok r,u) ∧ r ≠ returnFailure ∧
    Edited t u role role' free free' 1 0 vacated ∧ Sound t u := by
  have plain : (newcomer 2 (lastBasename [slash,97])).Plain := by
    unfold Entry.Plain
    decide
  have absolute : Absolute [slash,97] := by decide
  obtain ⟨s,t,equal,fresh,size,head,parent,whole,ran,made⟩ := first_create absolute (by decide) [97] (by decide) plain
  obtain ⟨root,dir,slots,slot⟩ := first_entry fresh parent made
  have ordered := fresh.ordered
  have absent : s.resolve [slash,97] = 0 := by
    unfold Machine.resolve
    rw [if_pos absolute,show components [slash,97] = [[97]] by decide,Machine.walk,fresh.root,fresh.step,if_pos rfl]
  rw [size] at ordered
  obtain ⟨role,free,after,found,_⟩ := ordered.made (by decide) (by rw [parent]; decide) absent (by decide) made
  rw [after.lookup,head] at found
  have found := Except.ok.inj found
  have parent' : t.parent [slash,97] = 1 := by
    have here : t.resolve (dirname [slash,97]) = 1 := by
      unfold Machine.resolve
      rw [if_pos (absolute_dirname absolute),show components (dirname [slash,97]) = [] by decide]
      exact root
    unfold Machine.parent
    dsimp only
    rw [here,if_pos (show t.IsDir (1 : Word).toNat from dir)]
  have real : t.parent [slash,97] ≠ 0 := by
    rw [parent']
    decide
  have present : t.step (t.parent [slash,97]) (lastBasename [slash,97]) ≠ 0 := by
    have same := step_basename after.layout after.tree real (by decide)
    rw [show (lastBasename [slash,97]).take 16 = lastBasename [slash,97] by decide,found] at same
    rw [← same]
    decide
  have one : (1 : Word).toNat = 1 := rfl
  obtain ⟨r,u,gone,post⟩ := returns_iff.mp (@runs_deleteFile _ _ _ [slash,97] after.layout after.tree.toBrowsable)
  rcases post with ⟨_,_,none | missed⟩ | ⟨value,_,_,k,role',free',_,inside,edited,sound⟩
  · exact absurd none real
  · exact absurd missed present
  · rw [parent',one,slots] at inside
    obtain rfl : k = 0 := Nat.lt_one_iff.mp inside
    rw [parent',one] at edited
    exact ⟨s,t,u,r,role,free,role',free',equal,fresh,ran,.inr ⟨by decide,by rw [head]; exact plain,by rw [parent]; exact whole⟩,after,
      root,dir,slots,by rw [slot]; exact head,gone,by rw [value]; decide,edited,sound⟩

theorem namespace_lawful_once : ∃ s t, initSuper 0 0 (zeros 8 32) (recordedDisk (volumeOf 64)) = (.ok (),s) ∧
    NameStep s (.create [slash,97] .file 2) t ∧ Lawful s (.create [slash,97] .file 2) t ∧ Unambiguous t := by
  have plain : (newcomer 2 (lastBasename [slash,97])).Plain := by
    unfold Entry.Plain
    decide
  obtain ⟨s,t,equal,fresh,_,head,parent,whole,ran,_⟩ := first_create (show Absolute [slash,97] by decide) (by decide) [97] (by decide) plain
  have taken : NameStep s (.create [slash,97] .file 2) t := .create (by decide) ran
  have fitting : Fitting s (.create [slash,97] .file 2) :=
    Or.inr ⟨by decide,by rw [head]; exact plain,by rw [parent]; exact whole⟩
  have met : Met Fitting [(s,NameCall.create [slash,97] .file 2)] := by
    intro entry member
    obtain rfl := List.mem_singleton.mp member
    exact fitting
  exact ⟨s,t,equal,taken,(namespace_lawful fresh (.start s) (by simp [Met])).2 _ _ taken fitting,
    (namespace_lawful fresh (.single taken) met).1⟩

-- A name of sixteen characters is stored without its last one, and never found.
theorem namespace_cuts : ∃ s t, initSuper 0 0 (zeros 8 32) (recordedDisk (volumeOf 64)) = (.ok (),s) ∧
    NameStep s (.create (slash :: List.replicate 16 97) .file 2) t ∧
    (inumberOfPath (slash :: List.replicate 16 97) t).1 = .ok 0 ∧
    ¬ Lawful s (.create (slash :: List.replicate 16 97) .file 2) t := by
  have last : lastBasename (slash :: List.replicate 16 97) = List.replicate 16 97 := by decide
  have single : components (slash :: List.replicate 16 97) = [List.replicate 16 97] := by decide
  obtain ⟨s,t,equal,fresh,sectors,head,parent,_,ran,m,role',free',spares,edited,_⟩ :=
    first_create (show Absolute (slash :: List.replicate 16 97) by decide) (by decide) _ single (by unfold Entry.Plain; decide)
  rw [parent,head,last] at edited
  have browsable := fresh.browsable
  have directory : s.IsDir 1 := fresh.directory
  have root := fresh.root
  have none := fun {d k e} => fresh.live (d := d) (k := k) (e := e)
  rw [sectors] at browsable none
  have node : freshRole 64 1 = .inode := (freshRole_node 64 1).mpr rfl
  have node' := edited.node (spares.node node)
  have browsable' := edited.browsable (spares.browsable browsable) fun _ => edited.node (Function.update_self _ _ _)
  have missed : t.step 1 (List.replicate 16 97) = 0 := by
    by_contra found
    obtain ⟨k,e,live,name,_⟩ := step_live node' found
    rcases (edited.live (spares.node node) ((spares.isDir node).mpr directory)).mp live with ⟨old,_⟩ | ⟨_,_,same,_⟩
    · exact none (spares.live.mp old)
    · rw [same,newcomer_name (by decide)] at name
      exact absurd name (by decide)
  have resolved : (inumberOfPath (slash :: List.replicate 16 97) t).1 = .ok 0 := by
    rw [inumberOfPath_eq edited.layout browsable']
    unfold Machine.resolve
    rw [if_pos (by decide),single,Machine.walk,edited.root,spares.root,root,show (List.replicate 16 97).take 16 = List.replicate 16 (97 : Byte) from rfl,
      missed,if_pos rfl]
  refine ⟨s,t,equal,.create (by decide) ran,resolved,fun lawful => ?_⟩
  have found := ((lawful (by decide) (by rw [last]; decide)).1 (by decide)).1
  rw [resolved] at found
  exact absurd (Except.ok.inj found) (by decide)

end AsePlusPlus
