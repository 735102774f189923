import AsePlusPlus.Lib.Store
import AsePlusPlus.Pouring
import AsePlusPlus.Listing

namespace AsePlusPlus
open Words Program Trace

variable {role role' role'' : Nat → Role} {free free' free'' rest : List Nat} {s t u : Machine} {path dest text : List Byte}
variable {names : List (List Byte)} {b d k : Nat} {type : FileType} {i : Word} {node : Store.Node (List Byte)}

-- What an inumber stands for, and what every path leads to. The data of a file
-- are its bytes up to the recorded size.
def Machine.nodeAt (s : Machine) (i : Word) : Option (Store.Node (List Byte)) :=
  if i = 0 then none else if s.IsDir i.toNat then some .directory else some (.file (s.contents i.toNat))

def Machine.files (s : Machine) : Store.Files (List Byte) (List Byte) :=
  fun names => s.nodeAt (s.walk s.super.rootInumber names)

def Machine.session (s : Machine) : Store.Session (List Byte) (List Byte) := ⟨s.files,components s.cwd⟩

theorem nodeAt_none : s.nodeAt i = none ↔ i = 0 := by
  unfold Machine.nodeAt
  split
  · rename_i none
    exact ⟨fun _ => none,fun _ => rfl⟩
  · rename_i some
    split
    · exact ⟨fun wrong => (by cases wrong),fun none => absurd none some⟩
    · exact ⟨fun wrong => (by cases wrong),fun none => absurd none some⟩

theorem nodeAt_directory : s.nodeAt i = some .directory ↔ i ≠ 0 ∧ s.IsDir i.toNat := by
  unfold Machine.nodeAt
  split
  · rename_i none
    exact ⟨fun wrong => (by cases wrong),fun post => absurd none post.1⟩
  · rename_i some
    split
    · rename_i dir
      exact ⟨fun _ => ⟨some,dir⟩,fun _ => rfl⟩
    · rename_i plain
      exact ⟨fun wrong => (by cases wrong),fun post => absurd post.2 plain⟩

theorem nodeAt_file (some' : i ≠ 0) (plain : ¬ s.IsDir i.toNat) : s.nodeAt i = some (.file (s.contents i.toNat)) := by
  unfold Machine.nodeAt
  rw [if_neg some',if_neg plain]

theorem Same.nodeAt (same : Same s t) (i : Word) : t.nodeAt i = s.nodeAt i := by
  obtain ⟨_,_,_,rfl⟩ := same
  rfl

theorem Same.files (same : Same s t) : t.files = s.files := by
  funext names
  unfold Machine.files
  rw [same.walk,same.super,same.nodeAt]

theorem Same.session (same : Same s t) : t.session = s.session := by
  unfold Machine.session
  rw [same.files,same.cwd]

-- A file that is carried along with its content.
theorem Carries.nodeAt (carries : Carries s t role role' free free') (node : i ≠ 0 → role i.toNat = .inode)
    (contents : role i.toNat = .inode → ¬ s.IsDir i.toNat → t.contents i.toNat = s.contents i.toNat) : t.nodeAt i = s.nodeAt i := by
  unfold Machine.nodeAt
  by_cases none : i = 0
  · rw [if_pos none,if_pos none]
  have here := node none
  rw [if_neg none,if_neg none]
  by_cases dir : s.IsDir i.toNat
  · rw [if_pos dir,if_pos ((carries.isDir here).mpr dir)]
  · rw [if_neg dir,if_neg fun wrong => dir ((carries.isDir here).mp wrong),contents here dir]

theorem Ordered.walk_node (ordered : Ordered s role free) (names : List (List Byte)) (live : s.walk s.super.rootInumber names ≠ 0) :
    role (s.walk s.super.rootInumber names).toNat = .inode :=
  AsePlusPlus.walk_node ordered.tree.toBrowsable ordered.tree.root names live

theorem files_text (absolute : Absolute path) : s.files (components path) = s.nodeAt (s.resolve path) := by
  unfold Machine.files Machine.resolve
  rw [if_pos absolute]

-- A path below the root ends with a name.
structure Pathname (path : List Byte) : Prop where
  absolute : Absolute path
  last : components path ≠ [] → lastBasename path ≠ []

theorem Pathname.split (addressed : Pathname path) (below : components path ≠ []) :
    components path = components (dirname path) ++ [lastBasename path] :=
  components_dirname addressed.absolute (addressed.last below)

theorem parent_live : s.parent path ≠ 0 ↔ s.resolve (dirname path) ≠ 0 ∧ s.IsDir (s.resolve (dirname path)).toNat := by
  unfold Machine.parent
  dsimp only
  split
  · rename_i dir
    exact ⟨fun live => ⟨live,dir⟩,fun post => post.1⟩
  · rename_i plain
    exact ⟨fun wrong => absurd rfl wrong,fun post => absurd post.2 plain⟩

theorem Ordered.files_root (ordered : Ordered s role free) (path : List Byte) (none : components path = []) (absolute : Absolute path) :
    s.resolve path ≠ 0 := by
  unfold Machine.resolve
  rw [if_pos absolute,none]
  exact ordered.tree.root_real ordered.layout

-- What create_file asks of a path is what a tree of files asks.
theorem Ordered.vacant_iff (ordered : Ordered s role free) (addressed : Pathname path) :
    Store.Vacant s.files (components path) ↔ s.parent path ≠ 0 ∧ s.resolve path = 0 := by
  constructor
  · intro vacant
    obtain ⟨below,parent,new⟩ := vacant
    rw [addressed.split below,List.dropLast_concat,files_text (absolute_dirname addressed.absolute)] at parent
    rw [files_text addressed.absolute] at new
    exact ⟨parent_live.mpr (nodeAt_directory.mp parent),nodeAt_none.mp new⟩
  · intro post
    obtain ⟨parent,new⟩ := post
    have below : components path ≠ [] := fun none => ordered.files_root path none addressed.absolute new
    refine ⟨below,?_,?_⟩
    · rw [addressed.split below,List.dropLast_concat,files_text (absolute_dirname addressed.absolute)]
      exact nodeAt_directory.mpr (parent_live.mp parent)
    · rw [files_text addressed.absolute]
      exact nodeAt_none.mpr new

theorem Laid.childless (laid : Laid s t role type b d) (here : i.toNat = b) (name : List Byte) : t.step i name = 0 := by
  have none : t.entries i.toNat = [] := by
    unfold Machine.entries Machine.slots
    rw [here,laid.size]
    rfl
  unfold Machine.step Machine.child
  rw [none]
  split
  · rfl
  · rfl

-- One path more, with nothing below it yet.
structure Sprouted (s t : Machine) (path : List Byte) (i : Word) : Prop where
  here : t.walk t.super.rootInumber (components path) = i
  below : ∀ names, components path <+: names → names ≠ components path → t.walk t.super.rootInumber names = 0
  others : ∀ names, ¬ components path <+: names → t.walk t.super.rootInumber names = s.walk s.super.rootInumber names

theorem Made.sprouted (made : Made s t role b rest path) (ordered : Ordered s role (b :: rest)) (text : 0 ∉ path)
    (parent : s.parent path ≠ 0) (new : s.resolve path = 0) (short : (lastBasename path).length ≤ 15)
    (laid : Laid s t role type b (s.parent path).toNat) : Sprouted s t path s.super.premierLibre := by
  obtain ⟨m,role',free',spares,edited,sound⟩ := made
  have layout := ordered.layout
  have tree := ordered.tree
  have absolute := parent_absolute parent
  have some := new_basename parent tree.toBrowsable new
  have plain : 0 ∉ lastBasename path := fun member => text (by
    rw [← dirname_append path]
    exact List.mem_append_right _ member)
  obtain ⟨node,dir,_⟩ := parent_dir tree.toBrowsable parent
  have addable := ordered.addable text parent new short spares
  have head : (newcomer s.super.premierLibre (lastBasename path)).entInumber.toNat = b := layout.chain.head
  have leads : role' (newcomer s.super.premierLibre (lastBasename path)).entInumber.toNat = .inode := by
    refine edited.node ?_
    rw [head,Function.update_self]
  have found : m.walk m.super.rootInumber (components (dirname path)) = s.parent path := by
    rw [spares.walk tree layout]
    exact parent_walk parent tree.toBrowsable
  have name : (newcomer s.super.premierLibre (lastBasename path)).name = lastBasename path := by
    rw [newcomer_name plain,List.take_of_length_le short]
  obtain ⟨here,others⟩ := edited.walk_more (spares.node node) ((spares.isDir node).mpr dir) rfl addable spares.layout
    (spares.tree tree) leads found
  have after := edited.tree_more (spares.node node) ((spares.isDir node).mpr dir) addable (spares.tree tree) leads
  rw [name,← components_dirname absolute some] at here others
  refine ⟨here,fun names inside other => ?_,fun names outside => ?_⟩
  · by_contra live
    obtain ⟨more,whole⟩ := inside
    cases more with
    | nil => exact other (by rw [← whole,List.append_nil])
    | cons a more =>
        have front := walk_ancestor t (p := components path ++ [a]) ⟨more,by rw [← whole]; simp⟩ live (after.root_real edited.layout)
        rw [walk_snoc t (after.root_real edited.layout),here] at front
        split at front
        · exact front rfl
        · exact front (laid.childless head _)
  · rw [others names outside,spares.walk tree layout]

theorem Ordered.barren (ordered : Ordered s role free) (absolute : Absolute path) (new : s.resolve path = 0)
    (below : components path <+: names) : s.walk s.super.rootInumber names = 0 := by
  by_contra live
  have front := walk_ancestor s below live (ordered.tree.root_real ordered.layout)
  unfold Machine.resolve at new
  rw [if_pos absolute] at new
  exact front new

-- The file that a path leads to has not been in the chain.
theorem Sprouted.files (sprouted : Sprouted s t path i) (ordered : Ordered s role free) (absolute : Absolute path)
    (new : s.resolve path = 0) (walk : ∀ names, u.walk u.super.rootInumber names = t.walk t.super.rootInumber names)
    (here : u.nodeAt i = some node) (old : ∀ j : Word, (j ≠ 0 → role j.toNat = .inode) → u.nodeAt j = s.nodeAt j) :
    u.files = Store.write s.files (components path) node := by
  funext names
  have value : u.files names = u.nodeAt (t.walk t.super.rootInumber names) := by
    unfold Machine.files
    rw [walk]
  by_cases same : names = components path
  · subst same
    rw [value,sprouted.here,Store.write_here]
    exact here
  rw [value,Store.write_other _ _ same]
  by_cases below : components path <+: names
  · rw [sprouted.below names below same]
    unfold Machine.files
    rw [ordered.barren absolute new below]
    exact (nodeAt_none.mpr rfl).trans (nodeAt_none.mpr rfl).symm
  · rw [sprouted.others names below]
    exact old _ fun live => ordered.walk_node names live

-- What a creation needs: a name that is kept whole, an entry that reads as it was
-- written, a slot, and blocs for the inode, the entry and a text.
structure Roomy (s : Machine) (path : List Byte) (length : Nat) : Prop where
  short : (lastBasename path).length ≤ 15
  plain : (newcomer s.super.premierLibre (lastBasename path)).Plain
  slot : s.vacancy (s.parent path).toNat < 3174
  near : length < 63488
  room : 1+s.lacks (s.parent path).toNat (s.vacancy (s.parent path).toNat)+sectorsOf length ≤ s.super.nbBlocLibre.toNat

-- A working directory as do_cd leaves it.
structure Lodged (cwd : List Byte) : Prop extends Place cwd where
  down : ∀ c ∈ components cwd, tokenWay c = .down

theorem Lodged.same (same : t.cwd = s.cwd) (lodged : Lodged s.cwd) : Lodged t.cwd := by rwa [same]

-- Nothing outside the mounted volume is touched.
structure Framed (s t : Machine) : Prop where
  mbr : t.mbr = s.mbr
  volume : t.currentVolume = s.currentVolume
  outside : ∀ p, p < s.start ∨ s.start + s.nsec ≤ p → t.hda.sectors p = s.hda.sectors p

theorem Within.framed (within : Within s t) : Framed s t := ⟨within.mbr,within.volume,within.outside⟩

-- A command has done what a tree of files does, and answers the same.
structure Settles (s t : Machine) (act : Store.Act (List Byte) (List Byte)) (reply : Store.Reply (List Byte) (List Byte)) : Prop where
  ordered : ∃ role free, Ordered t role free
  synced : Synced t
  lodged : Lodged s.cwd → Lodged t.cwd
  framed : Framed s t
  answer : s.session.respond act = (reply,t.session)

def replyOf (failed : Prop) [Decidable failed] : Store.Reply (List Byte) (List Byte) := if failed then .refused else .done

-- What is read of a text that was written: an empty file reads as one zero.
def stored (text : List Byte) : List Byte := if text = [] then [0] else text

theorem Same.settles {act : Store.Act (List Byte) (List Byte)} {reply : Store.Reply (List Byte) (List Byte)} (same : Same s t)
    (ordered : Ordered s role free) (synced : Synced s) (answer : s.session.respond act = (reply,s.session)) : Settles s t act reply := by
  have kept : Retains (fun _ => True) s t role role free free := same.keeps ordered (.inl synced)
  exact ⟨⟨role,free,kept.ordered⟩,same.synced synced,Lodged.same same.cwd,same.within.framed,by rw [same.session]; exact answer⟩

theorem Ordered.rejected_vacant (ordered : Ordered s role free) (addressed : Pathname path) :
    Rejected path s ↔ ¬ Store.Vacant s.files (components path) := by
  rw [rejected_iff ordered.layout ordered.tree.toBrowsable,ordered.vacant_iff addressed,not_and_or,not_not]

theorem Roomy.chain {n : Nat} (roomy : Roomy s path n) (layout : Layout s role free) : ∃ b rest, free = b :: rest ∧
    s.lacks (s.parent path).toNat (s.vacancy (s.parent path).toNat)+sectorsOf n ≤ rest.length := by
  have count := layout.chain.count
  have room := roomy.room
  cases free with
  | nil =>
      rw [List.length_nil] at count
      omega
  | cons b rest =>
      rw [List.length_cons] at count
      exact ⟨b,rest,rfl,by omega⟩

theorem Laid.old (laid : Laid s t role type b d) (carries : Carries s t role role' free free') (dir : s.IsDir d) {j : Word}
    (node : j ≠ 0 → role j.toNat = .inode) : t.nodeAt j = s.nodeAt j := by
  refine carries.nodeAt node fun here plain => ?_
  have other : j.toNat ≠ d := by
    intro same
    rw [same] at plain
    exact plain dir
  obtain ⟨size,bytes⟩ := laid.others _ here other
  exact contents_same size bytes

theorem Ordered.head_real (ordered : Ordered s role (b :: rest)) : s.super.premierLibre ≠ 0 := by
  intro none
  have head := ordered.layout.chain.head
  rw [none] at head
  exact (ordered.layout.bound ((ordered.layout.vacant b).mpr (by simp)) (by simp)).1 head.symm

-- What a creation adds to a tree of files: a new file reads as one zero.
def FileType.newborn (type : FileType) : Store.Node (List Byte) := if type = .directory then .directory else .file [0]

section made
variable (made : Made s t role b rest path) (laid : Laid s t role type b (s.parent path).toNat) (ordered : Ordered s role (b :: rest))
variable (named : 0 ∉ path) (parent : s.parent path ≠ 0) (new : s.resolve path = 0) (short : (lastBasename path).length ≤ 15)
include made laid ordered named parent new short

theorem Made.files : t.files = Store.write s.files (components path) type.newborn ∧ Within s t ∧ ∃ role' free', Ordered t role' free' := by
  obtain ⟨_,dir,_⟩ := parent_dir ordered.tree.toBrowsable parent
  have head := ordered.layout.chain.head
  have keeps : ∃ role' free', Retains (fun _ => True) s t role role' (b :: rest) free' ∧ role' b = .inode :=
    made.keeps ordered named parent new short
  obtain ⟨role',free',kept,_⟩ := keeps
  have sprouted := made.sprouted ordered named parent new short laid
  have here : t.nodeAt s.super.premierLibre = some type.newborn := by
    have code : t.IsDir s.super.premierLibre.toNat ↔ type = .directory := by
      unfold Machine.IsDir
      rw [head,laid.type]
      cases type with
      | directory => exact ⟨fun _ => rfl,fun _ => rfl⟩
      | file => exact ⟨fun wrong => absurd wrong (by decide),fun wrong => by cases wrong⟩
      | special => exact ⟨fun wrong => absurd wrong (by decide),fun wrong => by cases wrong⟩
    have contents : t.contents s.super.premierLibre.toNat = [0] := by
      unfold Machine.contents
      rw [head,laid.size,laid.blank]
      rfl
    unfold Machine.nodeAt FileType.newborn
    rw [if_neg ordered.head_real,contents]
    by_cases directory : type = .directory
    · rw [if_pos (code.mpr directory),if_pos directory]
    · rw [if_neg fun wrong => directory (code.mp wrong),if_neg directory]
  exact ⟨sprouted.files ordered (parent_absolute parent) new (fun _ => rfl) here fun j node => laid.old kept.toCarries dir node,
    kept.within,role',free',kept.ordered⟩

end made

-- A creation that a tree refuses is refused.
theorem runs_createFile_refused (ordered : Ordered s role free) (addressed : Pathname path)
    (occupied : ¬ Store.Vacant s.files (components path)) (type : FileType) :
    Returns (createFile path type) s fun r t => r = returnFailure ∧ Still s t := by
  refine runs_createFile_rejected type ordered.layout ordered.tree.toBrowsable ?_
  exact (rejected_iff ordered.layout ordered.tree.toBrowsable).mp ((ordered.rejected_vacant addressed).mpr occupied)

theorem runs_mkdir (ordered : Ordered s role free) (synced : Synced s) (addressed : Pathname path) (text : 0 ∉ path)
    (fits : Rejected path s ∨ Roomy s path 0) : Returns (createFile path .directory) s fun r t =>
      Settles s t (.make (components path) .directory) (replyOf (r = returnFailure)) := by
  by_cases vacant : Store.Vacant s.files (components path)
  swap
  · refine (runs_createFile_refused ordered addressed vacant .directory).mono ?_ (fun _ _ => id)
    intro r t post
    obtain ⟨rfl,still⟩ := post
    exact still.same.settles ordered synced (Store.respond_refuse vacant _)
  have roomy := fits.resolve_left fun rejected => (ordered.rejected_vacant addressed).mp rejected vacant
  obtain ⟨parent,new⟩ := (ordered.vacant_iff addressed).mp vacant
  obtain ⟨b,rest,rfl,room⟩ := roomy.chain ordered.layout
  refine (runs_createFile_laid .directory ordered.layout ordered.tree.toBrowsable parent new roomy.plain roomy.slot (by omega)).mono
    ?_ (fun _ _ => id)
  intro r t post
  obtain ⟨rfl,made,laid,_⟩ := post
  have settled : Synced t := by
    obtain ⟨_,_,_,_,_,sound⟩ := made
    exact sound.synced synced
  obtain ⟨files,within,after⟩ := made.files laid ordered text parent new roomy.short
  refine ⟨after,settled,Lodged.same within.cwd,within.framed,?_⟩
  unfold replyOf
  rw [if_neg ordered.head_number]
  refine (Store.respond_make vacant _).trans ?_
  unfold Machine.session
  rw [files,within.cwd]
  rfl

-- The new file behind create_file has been filled.
theorem Begun.stores (begun : Begun s t role role' b rest free' path) (ordered : Ordered s role (b :: rest)) (text' : 0 ∉ path)
    (parent : s.parent path ≠ 0) (new : s.resolve path = 0) (short : (lastBasename path).length ≤ 15)
    (pasted : Pasted b t u role' role'' free' free'' text) :
    Ordered u role'' free'' ∧ Within s u ∧ u.files = Store.write s.files (components path) (.file (stored text)) := by
  obtain ⟨_,dir,_⟩ := parent_dir ordered.tree.toBrowsable parent
  have plain := begun.toLaid.plain
  have head : s.super.premierLibre.toNat = b := ordered.layout.chain.head
  have spares := pasted.toFiled.spares plain
  have sprouted := begun.made.sprouted ordered text' parent new short begun.toLaid
  obtain ⟨after,_⟩ := pasted.ordered begun.ordered plain
  have here : u.nodeAt s.super.premierLibre = some (.file (stored text)) := by
    rw [nodeAt_file ordered.head_real,head,pasted.contents,stored]
    rw [head,pasted.toCarries.isDir begun.here]
    exact plain
  refine ⟨after,begun.within.trans pasted.within,?_⟩
  refine sprouted.files ordered (parent_absolute parent) new (spares.walk begun.ordered.tree begun.ordered.layout) here ?_
  intro j node
  refine (pasted.toCarries.nodeAt (fun live => begun.node (node live)) fun here _ => ?_).trans
    (begun.toLaid.old begun.toCarries dir node)
  refine pasted.toFiled.contents here fun same => ?_
  by_cases none : j = 0
  · rw [none] at same
    exact absurd same.symm ((ordered.layout.bound ((ordered.layout.vacant b).mpr (by simp)) (by simp)).1)
  · have old := node none
    rw [same,(ordered.layout.vacant b).mpr (by simp)] at old
    cases old

-- A creation that a tree accepts goes on with a new empty file.
theorem runs_creates {f : Word → M Word} {Q : Word → Machine → Prop} {E : Stop → Machine → Prop} {n : Nat} (ordered : Ordered s role free)
    (addressed : Pathname path) (text : 0 ∉ path) (vacant : Store.Vacant s.files (components path)) (roomy : Roomy s path n)
    (next : ∀ b rest t role' free', free = b :: rest → Begun s t role role' b rest free' path → sectorsOf n ≤ free'.length →
      Runs (f s.super.premierLibre) t Q E) : Runs (createFile path .file >>= f) s Q E := by
  obtain ⟨parent,new⟩ := (ordered.vacant_iff addressed).mp vacant
  obtain ⟨b,rest,rfl,room⟩ := roomy.chain ordered.layout
  rw [runs_bind]
  refine Runs.of_returns (runs_createFile_begins ordered text parent new roomy.short roomy.plain roomy.slot (by omega)) ?_
  intro r t post
  obtain ⟨rfl,role',free',begun⟩ := post
  have spent := begun.spent
  exact next b rest t role' free' rfl begun (by omega)

-- A text goes to a new file.
theorem runs_stores (ordered : Ordered s role free) (addressed : Pathname path) (text' : 0 ∉ path)
    (vacant : Store.Vacant s.files (components path)) (roomy : Roomy s path text.length) {loop : FileDesc → M FileDesc}
    (same : ∀ fd, loop fd = textLoop text fd) {f : Word → M Word} (goes : ∀ inumber, inumber ≠ returnFailure → f inumber = fillFile loop inumber) :
    Returns (createFile path .file >>= f) s fun r t =>
      r = 0 ∧ Settles s t (.make (components path) (.file (stored text))) .done := by
  obtain ⟨parent,new⟩ := (ordered.vacant_iff addressed).mp vacant
  refine runs_creates ordered addressed text' vacant roomy ?_
  intro b rest t role' free' whole begun enough
  subst whole
  rw [goes _ ordered.head_number]
  obtain ⟨here,size,blank⟩ := begun.blank_file ordered
  refine (runs_fillFile begun.ordered.layout begun.synced here size blank roomy.near enough same).mono ?_ (fun _ _ => id)
  intro r u post
  obtain ⟨rfl,settled,role'',free'',pasted⟩ := post
  rw [ordered.layout.chain.head] at pasted
  obtain ⟨after,within,files⟩ := begun.stores ordered text' parent new roomy.short pasted
  refine ⟨rfl,⟨role'',free'',after⟩,settled,Lodged.same within.cwd,within.framed,(Store.respond_make vacant _).trans ?_⟩
  unfold Machine.session
  rw [files,within.cwd]

theorem runs_ed (ordered : Ordered s role free) (synced : Synced s) (addressed : Pathname path) (text' : 0 ∉ path)
    (fits : Rejected path s ∨ Roomy s path text.length) : Returns (editFile text path) s fun r t =>
      Settles s t (.make (components path) (.file (stored text))) (replyOf (r ≠ 0)) := by
  by_cases vacant : Store.Vacant s.files (components path)
  · have roomy := fits.resolve_left fun rejected => (ordered.rejected_vacant addressed).mp rejected vacant
    refine (runs_stores ordered addressed text' vacant roomy (fun _ => rfl) ?_).mono ?_ (fun _ _ => id)
    · intro inumber real
      exact if_neg real
    · intro r t post
      obtain ⟨rfl,settles⟩ := post
      exact settles
  · unfold editFile
    rw [Returns,runs_bind]
    refine Runs.of_returns (runs_createFile_refused ordered addressed vacant .file) ?_
    intro r t post
    obtain ⟨rfl,still⟩ := post
    rw [if_pos rfl]
    exact still.same.settles ordered synced (Store.respond_refuse vacant _)

theorem runs_compute (ordered : Ordered s role free) (addressed : Pathname path) (text' : 0 ∉ path) (max : Int)
    (fits : ¬ Rejected path s ∧ Roomy s path (rows 0 (max+1).toNat).length) : Returns (computeFile max path) s fun r t =>
      Settles s t (.make (components path) (.file (stored (rows 0 (max+1).toNat)))) (replyOf (r ≠ 0)) := by
  obtain ⟨accepted,roomy⟩ := fits
  have vacant := not_not.mp ((not_congr (ordered.rejected_vacant addressed)).mp accepted)
  refine (runs_stores ordered addressed text' vacant roomy (rowLoop_eq (max+1).toNat 0) (fun _ _ => rfl)).mono ?_ (fun _ _ => id)
  intro r t post
  obtain ⟨rfl,settles⟩ := post
  exact settles

theorem session_file (addressed : Pathname path) (found : s.resolve path ≠ 0) (plain : ¬ s.IsDir (s.resolve path).toNat) :
    s.session.dataAt (components path) = some (s.contents (s.resolve path).toNat) :=
  Store.dataAt_file ((files_text addressed.absolute).trans (nodeAt_file found plain))

theorem session_none (addressed : Pathname path) (missing : s.resolve path = 0) : s.session.dataAt (components path) = none :=
  Store.dataAt_none ((files_text addressed.absolute).trans (nodeAt_none.mpr missing))

theorem contents_stored (s : Machine) (i : Nat) : stored (s.contents i) = s.contents i := by
  have length := contents_length s i
  refine if_neg fun none => ?_
  rw [none] at length
  cases length

-- What a copy needs: a destination that is refused, or a source that is missing
-- from a path of its own, or a legible file that has its blocs.
def CopyFits (s : Machine) (source dest : List Byte) : Prop :=
  Rejected dest s ∨ (s.resolve source = 0 ∧ components source ≠ components dest ∧ Roomy s dest 0) ∨
    (s.resolve source ≠ 0 ∧ ¬ s.IsDir (s.resolve source).toNat ∧ Printable s (s.resolve source).toNat ∧
      Roomy s dest (s.contents (s.resolve source).toNat).length)

theorem Sprouted.missing {source : List Byte} (sprouted : Sprouted s t path i) (absolute : Absolute source) (missing : s.resolve source = 0)
    (other : components source ≠ components path) : t.resolve source = 0 := by
  unfold Machine.resolve at missing ⊢
  rw [if_pos absolute] at missing ⊢
  by_cases below : components path <+: components source
  · exact sprouted.below _ below other
  · rw [sprouted.others _ below]
    exact missing

-- Only an empty file is left where there is no source.
theorem Begun.misses {source : List Byte} (begun : Begun s t role role' b rest free' path) (ordered : Ordered s role (b :: rest))
    (text' : 0 ∉ path) (parent : s.parent path ≠ 0) (new : s.resolve path = 0) (short : (lastBasename path).length ≤ 15)
    (missing : t.resolve source = 0) (reads : Nat) : Returns (copyInto reads source s.super.premierLibre) t fun r u =>
      r = 1 ∧ Synced u ∧ (∃ role free, Ordered u role free) ∧ Within s u ∧
      u.files = Store.write s.files (components path) (.file [0]) := by
  obtain ⟨here,size,blank⟩ := begun.blank_file ordered
  obtain ⟨_,dir,_⟩ := parent_dir ordered.tree.toBrowsable parent
  have head : s.super.premierLibre.toNat = b := ordered.layout.chain.head
  refine (copyInto_missing begun.ordered.layout begun.ordered.tree.toBrowsable begun.synced here size blank reads missing).mono
    ?_ (fun _ _ => id)
  intro r u post
  obtain ⟨rfl,still⟩ := post
  refine ⟨rfl,still.same.synced begun.synced,⟨role',free',begun.ordered.still still⟩,begun.within.trans still.same.within,?_⟩
  rw [still.same.files]
  have sprouted := begun.made.sprouted ordered text' parent new short begun.toLaid
  refine sprouted.files ordered (parent_absolute parent) new (fun _ => rfl) ?_ fun j node => begun.toLaid.old begun.toCarries dir node
  rw [nodeAt_file ordered.head_real (by rw [head]; exact begun.toLaid.plain)]
  unfold Machine.contents
  rw [size,blank]
  rfl

theorem Begun.copied {source : List Byte} (begun : Begun s t role role' b rest free' path) (ordered : Ordered s role (b :: rest))
    (text' : 0 ∉ path) (parent : s.parent path ≠ 0) (new : s.resolve path = 0) (roomy : Roomy s path (s.contents (s.resolve source).toNat).length)
    (found : s.resolve source ≠ 0) (plain : ¬ s.IsDir (s.resolve source).toNat) (legible : Printable s (s.resolve source).toNat)
    (enough : sectorsOf (s.contents (s.resolve source).toNat).length ≤ free'.length) (reads : Nat) :
    Runs (copyInto reads source s.super.premierLibre) t (fun r u => r = 0 ∧ Synced u ∧ (∃ role free, Ordered u role free) ∧ Within s u ∧
      u.files = Store.write s.files (components path) (.file (s.contents (s.resolve source).toNat)))
      (fun _ _ => reads ≤ (s.contents (s.resolve source).toNat).length) := by
  obtain ⟨here,size,blank⟩ := begun.blank_file ordered
  obtain ⟨_,dir,_⟩ := parent_dir ordered.tree.toBrowsable parent
  have head : s.super.premierLibre.toNat = b := ordered.layout.chain.head
  have there := begun.leads source found
  obtain ⟨node,apart⟩ := ordered.found_old found
  have other : s.resolve source ≠ s.parent path := by
    intro same
    rw [same] at plain
    exact plain dir
  have same := begun.contents ordered found other
  have length := contents_length t (s.resolve source).toNat
  rw [same] at length
  have near := roomy.near
  refine runs_copyInto begun.ordered.layout begun.ordered.tree.toBrowsable begun.synced here size blank ?_ ?_
  · intro missing
    rw [there] at missing
    exact absurd missing found
  · intro _ sfd dfd v poured drawn
    rw [head] at poured
    rw [there] at drawn
    have legible' : Printable t (s.resolve source).toNat := by
      unfold Printable
      rw [same]
      exact legible
    have flowing := poured.flowing (n := (s.contents (s.resolve source).toNat).length)
      (by rw [length]; exact Nat.succ_pos _) near enough
    rw [length] at near enough
    have here := begun.node node
    refine (flowing.copies here apart near legible' drawn (Nat.zero_le _) enough).mono ?_ (fun _ _ few => by omega)
    intro r w post
    obtain ⟨moved,role'',free'',after⟩ := post
    have file : r.1.file = (s.resolve source).toNat := (congrArg BitVec.toNat moved.inumber).trans drawn.file
    refine Runs.of_returns (after.endCopy moved.clean (by rw [file]; exact here) (by rw [file]; exact apart)
      (by rw [file,moved.size]; exact drawn.size)) ?_
    intro r x post
    obtain ⟨rfl,settled,pasted⟩ := post
    obtain ⟨kept,within,files⟩ := begun.stores ordered text' parent new roomy.short pasted
    rw [contents_stored,same] at files
    exact ⟨rfl,settled,⟨role'',free'',kept⟩,within,files⟩

theorem runs_cp {source : List Byte} (ordered : Ordered s role free) (synced : Synced s) (addressed : Pathname path)
    (addressed' : Pathname source) (text' : 0 ∉ path) (fits : CopyFits s source path) (reads : Nat) :
    Runs (copyFile reads source path) s
      (fun r t => Settles s t (.copy (components source) (components path) [0]) (replyOf (r ≠ 0)))
      (fun _ _ => s.resolve source ≠ 0 ∧ reads ≤ (s.contents (s.resolve source).toNat).length) := by
  unfold copyFile
  by_cases vacant : Store.Vacant s.files (components path)
  swap
  · rw [runs_bind]
    refine Runs.of_returns (runs_createFile_refused ordered addressed vacant .file) ?_
    intro r t post
    obtain ⟨rfl,still⟩ := post
    rw [if_pos rfl]
    exact still.same.settles ordered synced (Store.respond_keep vacant _ _)
  obtain ⟨parent,new⟩ := (ordered.vacant_iff addressed).mp vacant
  rcases fits with rejected | ⟨missing,other,roomy⟩ | ⟨found,plain,legible,roomy⟩
  · exact absurd vacant ((ordered.rejected_vacant addressed).mp rejected)
  · refine runs_creates ordered addressed text' vacant roomy ?_
    intro b rest t role' free' whole begun _
    subst whole
    rw [if_neg ordered.head_number]
    have sprouted := begun.made.sprouted ordered text' parent new roomy.short begun.toLaid
    refine Runs.of_returns (begun.misses ordered text' parent new roomy.short
      (sprouted.missing addressed'.absolute missing other) reads) ?_
    intro r u post
    obtain ⟨rfl,settled,after,within,files⟩ := post
    refine ⟨after,settled,Lodged.same within.cwd,within.framed,(Store.respond_blank vacant (session_none addressed' missing) _).trans ?_⟩
    unfold Machine.session
    rw [files,within.cwd]
    rfl
  · refine runs_creates ordered addressed text' vacant roomy ?_
    intro b rest t role' free' whole begun enough
    subst whole
    rw [if_neg ordered.head_number]
    refine (begun.copied ordered text' parent new roomy found plain legible enough reads).mono ?_ (fun _ _ few => ⟨found,few⟩)
    intro r u post
    obtain ⟨rfl,settled,after,within,files⟩ := post
    refine ⟨after,settled,Lodged.same within.cwd,within.framed,(Store.respond_copy vacant (session_file addressed' found plain) _).trans ?_⟩
    unfold Machine.session
    rw [files,within.cwd]
    rfl

-- A path is found in its parent, under its last name.
theorem Ordered.resolve_last (ordered : Ordered s role free) (addressed : Pathname path) (below : components path ≠ []) :
    s.resolve path ≠ 0 ↔ s.parent path ≠ 0 ∧ s.step (s.parent path) (lastBasename path) ≠ 0 := by
  have some := addressed.last below
  have tree := ordered.tree
  have root := tree.root_real ordered.layout
  constructor
  · intro live
    have parent : s.parent path ≠ 0 := by
      unfold Machine.resolve at live
      rw [if_pos addressed.absolute,addressed.split below,walk_snoc s root] at live
      split at live
      · exact absurd rfl live
      · rename_i front
        have front' : s.resolve (dirname path) ≠ 0 := by
          unfold Machine.resolve
          rw [if_pos (absolute_dirname addressed.absolute)]
          exact front
        refine parent_live.mpr ⟨front',?_⟩
        unfold Machine.step at live
        split at live
        · rename_i dir
          unfold Machine.resolve
          rw [if_pos (absolute_dirname addressed.absolute)]
          exact dir
        · exact absurd rfl live
    obtain ⟨node,_,_⟩ := parent_dir tree.toBrowsable parent
    have same := step_basename ordered.layout tree parent some
    obtain ⟨k,e,here,name,number⟩ := (tree.step_edge (j := s.resolve path) node live (lastBasename path)).mp same.symm
    refine ⟨parent,?_⟩
    have short := tree.short here
    rw [name] at short
    rw [List.take_of_length_le (by omega)] at same
    rw [← same]
    exact live
  · intro post
    obtain ⟨parent,live⟩ := post
    obtain ⟨node,_,_⟩ := parent_dir tree.toBrowsable parent
    obtain ⟨k,e,here,name,_⟩ := step_live node live
    have short := tree.short here
    rw [name] at short
    rw [step_basename ordered.layout tree parent some,List.take_of_length_le (by omega)]
    exact live

-- A name is gone with what was below it, once its number is null.
theorem Ordered.erases {e : Entry} (ordered : Ordered s role free) (addressed : Pathname path) (parent : s.parent path ≠ 0)
    (first : First (Entry.names (lastBasename path)) (s.byteAt (s.parent path).toNat) 0 (s.slots (s.parent path).toNat) k)
    (inside : k < s.slots (s.parent path).toNat) (edited : Edited s t role role' free free' (s.parent path).toNat k e)
    (null : e.entInumber = 0) (below : components path ≠ []) (synced : Synced t) :
    Ordered t role' free' ∧ t.files = Store.erase s.files (components path) := by
  have tree := ordered.tree
  obtain ⟨node,dir,_⟩ := parent_dir tree.toBrowsable parent
  obtain ⟨live,name⟩ := first.here inside
  have was : Live s role (s.parent path).toNat k (s.slotAt (s.parent path).toNat k) := ⟨node,dir,inside,rfl,live⟩
  obtain ⟨gone,others⟩ := edited.walk_less node dir rfl null tree was ordered.layout (parent_walk parent tree.toBrowsable)
  rw [show (s.slotAt (s.parent path).toNat k).name = lastBasename path from name,← addressed.split below] at gone others
  have after : Ordered t role' free' := ⟨edited.layout,edited.tree_less node dir null tree,.inl synced⟩
  refine ⟨after,?_⟩
  funext names
  by_cases inner : components path <+: names
  · rw [Store.erase_below _ inner]
    refine nodeAt_none.mpr ?_
    by_contra live
    exact walk_ancestor t inner live (after.tree.root_real after.layout) gone
  · rw [Store.erase_other _ inner]
    unfold Machine.files
    rw [others names inner]
    refine edited.toCarries.nodeAt (fun live => ordered.walk_node names live) fun node' plain => ?_
    have other : (s.walk s.super.rootInumber names).toNat ≠ (s.parent path).toNat := by
      intro same
      rw [same] at plain
      exact plain dir
    obtain ⟨size,bytes⟩ := edited.others _ node' other
    exact contents_same size bytes

theorem Ordered.erase_missing (ordered : Ordered s role free) (absolute : Absolute path) (missing : s.resolve path = 0) :
    Store.erase s.files (components path) = s.files := by
  funext names
  by_cases inner : components path <+: names
  · rw [Store.erase_below _ inner]
    exact (nodeAt_none.mpr (ordered.barren absolute missing inner)).symm
  · exact Store.erase_other _ inner

theorem runs_rm (ordered : Ordered s role free) (synced : Synced s) (addressed : Pathname path) (below : components path ≠ []) :
    Returns (deleteFile path) s fun r t => Settles s t (.remove (components path)) (replyOf (r = returnFailure)) := by
  have tree := ordered.tree
  have here : s.files (components path) = s.nodeAt (s.resolve path) := files_text addressed.absolute
  refine (runs_deleteFile ordered.layout tree.toBrowsable).mono ?_ (fun _ _ => id)
  intro r t post
  rcases post with ⟨rfl,still,why⟩ | ⟨rfl,parent,live,k,role',free',first,inside,edited,sound⟩
  · have missing : s.resolve path = 0 := by
      by_contra live
      obtain ⟨parent,found⟩ := (ordered.resolve_last addressed below).mp live
      rcases why with none | none
      · exact parent none
      · exact found none
    exact still.same.settles ordered synced (Store.respond_miss (here.trans (nodeAt_none.mpr missing)))
  · have found := (ordered.resolve_last addressed below).mpr ⟨parent,live⟩
    obtain ⟨after,files⟩ := ordered.erases addressed parent first inside edited vacated_null below (sound.synced synced)
    refine ⟨⟨role',free',after⟩,sound.synced synced,Lodged.same edited.within.cwd,edited.within.framed,?_⟩
    refine (Store.respond_remove below ?_).trans ?_
    · intro none
      exact found (nodeAt_none.mp (here.symm.trans none))
    · unfold Machine.session
      rw [files,edited.within.cwd]
      rfl

theorem runs_cat {command : M (Word × List Byte)} {cwd arguments : List Byte} {reads : Nat} (ordered : Ordered s role free) (synced : Synced s)
    (addressed : Pathname path) (canonical : canonicalPath cwd arguments = some path) (begun : doCat reads cwd arguments = some command)
    (fits : s.resolve path ≠ 0 → ¬ s.IsDir (s.resolve path).toNat ∧ Printable s (s.resolve path).toNat ∧
      (s.contents (s.resolve path).toNat).length < 63488) :
    Runs command s (fun r t => Settles s t (.read (components path)) (if r.1 = 1 then .refused else .data r.2))
      (fun _ _ => s.resolve path ≠ 0 ∧ reads ≤ (s.contents (s.resolve path).toNat).length) := by
  have layout := ordered.layout
  unfold doCat at begun
  rw [canonical] at begun
  cases begun
  rw [runs_bind,runs_get,runs_bind]
  unfold openFile
  rw [runs_bind]
  refine Runs.of_returns (runs_inumberOfPath layout ordered.tree.toBrowsable path) ?_
  intro i t post
  obtain ⟨rfl,still⟩ := post
  by_cases missing : s.resolve path = 0
  · rw [if_pos missing,runs_pure]
    dsimp only
    rw [if_pos rfl,runs_pure,if_pos rfl]
    exact still.same.settles ordered synced (Store.respond_absent (session_none addressed missing))
  obtain ⟨plain,legible,near⟩ := fits missing
  have node := resolve_node ordered.tree.toBrowsable missing
  rw [if_neg missing]
  refine Runs.of_returns (runs_openIfile (layout.same still.same) node) ?_
  intro r u post
  obtain ⟨quiet,rfl⟩ := post
  have same := still.same.trans quiet.same
  have length := contents_length s (s.resolve path).toNat
  have buffer : t.fblock (s.resolve path).toNat 0 = s.fblock (s.resolve path).toNat 0 := (still.same.grew layout).fblock layout node 0
  have drawn : Drawn s (s.resolve path).toNat 0 ⟨s.resolve path,t.entryAt (s.resolve path).toNat 1,0,
      t.fblock (s.resolve path).toNat 0,false⟩ := ⟨rfl,rfl,still.same.entryAt _ _,rfl,buffer⟩
  dsimp only
  rw [if_neg (by decide),runs_bind]
  refine (drawn.cats layout same node (by omega) legible (Nat.zero_le _)).mono ?_ (fun _ _ few => ⟨missing,by omega⟩)
  intro r v post
  obtain ⟨same',text,moved⟩ := post
  have clean := moved.clean
  have file : r.2.file = (s.resolve path).toNat := congrArg BitVec.toNat moved.inumber
  have mounted := (layout.same same').mounted
  have inside : r.2.file < v.nsec := by
    rw [file]
    exact ((layout.same same').bound node (by simp)).2
  have quiet' := Quiet.load v r.2.file
  have resized : Same (v.load r.2.file) ((v.load r.2.file).resized r.2.fdsInumber r.2.fdsSize) := by
    refine resized_same r.2.fdsSize ?_
    rw [moved.size,moved.inumber,quiet'.same.entryAt,same'.entryAt]
    exact still.same.entryAt _ _
  unfold closeFile
  rw [runs_bind,runs_close_clean mounted inside clean,runs_pure,if_neg (by decide : ¬ (0 : Word) = 1)]
  refine (same'.trans (quiet'.same.trans resized)).settles ordered synced ?_
  rw [text]
  exact Store.respond_read (session_file addressed missing plain)

theorem closed_components {target goal : List Byte} (closing : closed target = some goal) : components goal = components target := by
  unfold closed at closing
  split at closing
  · unfold buffer at closing
    split at closing
    · cases closing
      rw [components_append,components_nil,List.append_nil]
    · cases closing
  · cases closing
    rfl

theorem runs_cd {command : M Word} {arguments goal : List Byte} (ordered : Ordered s role free) (synced : Synced s) (lodged : Lodged s.cwd)
    (text : 0 ∉ arguments) (canonical : canonicalPath s.cwd arguments = some path) (down : ∀ c ∈ components path, tokenWay c = .down)
    (closing : closed path = some goal) (begun : doCd s.cwd arguments = some command) :
    Returns command s fun r t => Settles s t (.go (components path)) (replyOf (r = 0)) := by
  have place := place_closed lodged.toPlace text canonical closing
  have same := closed_components closing
  unfold doCd at begun
  rw [canonical] at begun
  replace begun : (closed path).bind _ = some command := begun
  rw [closing] at begun
  cases begun
  rw [Returns,runs_bind]
  refine Runs.of_returns (runs_inumberOfPath ordered.layout ordered.tree.toBrowsable goal) ?_
  intro i t post
  obtain ⟨rfl,still⟩ := post
  have there : s.files (components path) = s.nodeAt (s.resolve goal) := by
    rw [← same]
    exact files_text place.absolute
  by_cases missing : s.resolve goal = 0
  · rw [if_pos missing,runs_pure,replyOf,if_pos missing]
    exact still.same.settles ordered synced (Store.respond_stay (there.trans (nodeAt_none.mpr missing)))
  · rw [if_neg missing,runs_bind,runs_modify,runs_pure,replyOf,if_neg missing]
    have kept : Retains (fun _ => True) s t role role free free := still.same.keeps ordered (.inl synced)
    refine ⟨⟨role,free,kept.ordered.chdir goal⟩,still.same.synced synced,fun _ => ⟨place,?_⟩,?_,?_⟩
    · show ∀ c ∈ components goal, tokenWay c = .down
      rw [same]
      exact down
    · exact ⟨still.same.within.mbr,still.same.within.volume,still.same.within.outside⟩
    · have files : Machine.files {t with cwd := goal} = s.files := by
        rw [← still.same.files]
        funext names
        unfold Machine.files
        rw [chdir_walk]
        rfl
      refine (Store.respond_go ?_).trans ?_
      · intro none
        exact missing (nodeAt_none.mp (there.symm.trans none))
      · unfold Machine.session
        rw [files,same]

-- How do_ls shows a name.
def display (entry : List Byte × Bool) : List Byte := if entry.2 then entry.1 ++ [slash] else entry.1

def Shows (shown : List (List Byte)) (names : Set (List Byte × Bool)) : Prop :=
  ∀ x, x ∈ shown ↔ ∃ entry ∈ names, x = display entry

theorem Ordered.shows (ordered : Ordered s role free) (addressed : Pathname path) (found : s.resolve path ≠ 0)
    (dir : s.IsDir (s.resolve path).toNat) (filled : ∀ e ∈ s.entries (s.resolve path).toNat, e.entInumber ≠ 0) :
    Shows ((s.entries (s.resolve path).toNat).map s.spelled) (s.session.namesAt (components path)) := by
  have tree := ordered.tree
  have node := resolve_node tree.toBrowsable found
  have root := tree.root_real ordered.layout
  have child : ∀ a, s.files (components path ++ [a]) = s.nodeAt (s.step (s.resolve path) (a.take 16)) := by
    intro a
    have here : s.walk s.super.rootInumber (components path) = s.resolve path := by
      unfold Machine.resolve
      rw [if_pos addressed.absolute]
    unfold Machine.files
    rw [walk_snoc s root,here,if_neg found]
  intro x
  constructor
  · intro shown
    obtain ⟨e,member,rfl⟩ := List.mem_map.mp shown
    obtain ⟨k,inside,entry⟩ := mem_entries.mp member
    have live := filled e member
    have number : s.step (s.resolve path) (e.name.take 16) = e.entInumber :=
      (tree.step_edge node live e.name).mpr ⟨k,e,⟨node,dir,inside,entry,live⟩,rfl,rfl⟩
    refine ⟨(e.name,decide (s.IsDir e.entInumber.toNat)),?_,?_⟩
    · by_cases sub : s.IsDir e.entInumber.toNat
      · refine ⟨.directory,?_,?_⟩
        · refine (child e.name).trans ?_
          rw [number]
          exact nodeAt_directory.mpr ⟨live,sub⟩
        · simp [sub]
      · refine ⟨.file (s.contents e.entInumber.toNat),?_,?_⟩
        · refine (child e.name).trans ?_
          rw [number]
          exact nodeAt_file live sub
        · simp [sub]
    · unfold Machine.spelled display
      simp only [decide_eq_true_eq]
  · intro post
    obtain ⟨⟨a,flag⟩,⟨value,there,same⟩,rfl⟩ := post
    have there : s.nodeAt (s.step (s.resolve path) (a.take 16)) = some value := (child a).symm.trans there
    have live : s.step (s.resolve path) (a.take 16) ≠ 0 := by
      intro none
      rw [nodeAt_none.mpr none] at there
      cases there
    obtain ⟨k,e,here,name,number⟩ := (tree.step_edge (j := s.step (s.resolve path) (a.take 16)) node live a).mp rfl
    refine List.mem_map.mpr ⟨e,mem_entries.mpr ⟨k,here.slot,here.entry⟩,?_⟩
    unfold Machine.spelled display
    rw [name,number]
    dsimp only at same ⊢
    by_cases sub : s.IsDir (s.step (s.resolve path) (a.take 16)).toNat
    · rw [nodeAt_directory.mpr ⟨live,sub⟩] at there
      rw [if_pos sub,if_pos (same.mpr (Option.some.inj there).symm)]
    · rw [nodeAt_file live sub] at there
      rw [if_neg sub,if_neg fun wrong => ?_]
      rw [same.mp wrong] at there
      cases there

theorem runs_ls (ordered : Ordered s role free) (synced : Synced s) (addressed : Pathname path) (found : s.resolve path ≠ 0)
    (dir : s.IsDir (s.resolve path).toNat) (few : s.slots (s.resolve path).toNat ≤ 16)
    (filled : ∀ e ∈ s.entries (s.resolve path).toNat, e.entInumber ≠ 0) :
    Returns (listDirectory 16 path) s fun r t => Shows r (s.session.namesAt (components path)) ∧
      Settles s t (.list (components path)) (.names (s.session.namesAt (components path))) := by
  rw [listDirectory_seen,Returns,runs_bind]
  refine Runs.of_returns (runs_listDirectorySeen ordered.layout ordered.tree.toBrowsable found dir 16) ?_
  intro seen t post
  obtain ⟨still,rfl⟩ := post
  have length : (s.entries (s.resolve path).toNat).length ≤ 16 := by
    unfold Machine.entries
    rwa [List.length_map,List.length_range]
  have shows := ordered.shows addressed found dir filled
  rw [List.take_of_length_le length,runs_pure,List.map_map]
  exact ⟨shows,still.same.settles ordered synced rfl⟩

end AsePlusPlus
