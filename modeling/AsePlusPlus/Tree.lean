import AsePlusPlus.Lib.Forest
import AsePlusPlus.Edit

namespace AsePlusPlus
open Words Program Forest

variable {role role' role'' : Nat → Role} {free free' free'' : List Nat} {s t u : Machine} {d k i j : Nat} {e x : Entry}
variable {p names : List (List Byte)} {name : List Byte} {n : Word}

-- An entry in use, in a directory that is a file.
structure Live (s : Machine) (role : Nat → Role) (d k : Nat) (e : Entry) : Prop where
  node : role d = .inode
  dir : s.IsDir d
  slot : k < s.slots d
  entry : s.slotAt d k = e
  live : e.entInumber ≠ 0

-- A directory leads to a file under a name.
def Machine.Edge (s : Machine) (role : Nat → Role) (i : Word) (name : List Byte) (j : Word) : Prop :=
  ∃ k e, Live s role i.toNat k e ∧ e.name = name ∧ e.entInumber = j

-- The directories form a tree: no name is used twice in one of them, no file has
-- two names, and nothing leads back to the root.
structure Tree (s : Machine) (role : Nat → Role) : Prop extends Browsable s role where
  short : ∀ {d k e}, Live s role d k e → e.name.length ≤ 15
  distinct : ∀ {d k k' e e'}, Live s role d k e → Live s role d k' e' → e.name = e'.name → k = k'
  single : ∀ {d d' k k' e e'}, Live s role d k e → Live s role d' k' e' → e.entInumber = e'.entInumber → d = d' ∧ k = k'
  rootless : ∀ {d k e}, Live s role d k e → e.entInumber ≠ s.super.rootInumber

theorem Tree.named (tree : Tree s role) : Named (s.Edge role) s.super.rootInumber := by
  refine ⟨?_,?_,?_⟩
  · intro i a j j' result post
    obtain ⟨k,e,one,rfl,rfl⟩ := result
    obtain ⟨k',e',two,same,rfl⟩ := post
    obtain rfl := tree.distinct one two same.symm
    rw [← one.entry,two.entry]
  · intro i a j b n result post
    obtain ⟨k,e,one,rfl,rfl⟩ := result
    obtain ⟨k',e',two,rfl,same⟩ := post
    obtain ⟨dir,slot⟩ := tree.single one two same.symm
    subst slot
    rw [← dir] at two
    refine ⟨BitVec.eq_of_toNat_eq dir,?_⟩
    rw [← one.entry,two.entry]
  · intro i a post
    obtain ⟨k,e,one,_,same⟩ := post
    exact tree.rootless one same

theorem step_live {i : Word} {a : List Byte} (node : role i.toNat = .inode) (found : s.step i a ≠ 0) :
    ∃ k e, Live s role i.toNat k e ∧ e.name = a ∧ e.entInumber = s.step i a := by
  unfold Machine.step Machine.child at found ⊢
  split at found
  swap
  · exact absurd rfl found
  rename_i dir
  rw [if_pos dir]
  cases hit : (s.entries i.toNat).find? (Entry.names a ·) with
  | none => rw [hit] at found; exact absurd rfl found
  | some e =>
      obtain ⟨k,small,entry⟩ := mem_entries.mp (List.mem_of_find?_eq_some hit)
      have named : Entry.names a e := by simpa using List.find?_some hit
      exact ⟨k,e,⟨node,dir,small,entry,named.1⟩,named.2,rfl⟩

-- What a step of a lookup finds is an edge, and the other way round.
theorem Tree.step_edge (tree : Tree s role) {i j : Word} (node : role i.toNat = .inode) (real : j ≠ 0) (a : List Byte) :
    s.step i (a.take 16) = j ↔ s.Edge role i a j := by
  constructor
  · intro same
    obtain rfl := same
    obtain ⟨k,e,live,name,number⟩ := step_live node real
    have short := tree.short live
    have cut : a.take 16 = a := by
      refine List.take_of_length_le ?_
      rw [name,List.length_take] at short
      omega
    exact ⟨k,e,live,name.trans cut,number⟩
  · intro post
    obtain ⟨k,e,live,rfl,rfl⟩ := post
    have cut : e.name.take 16 = e.name := List.take_of_length_le (Nat.le_trans (tree.short live) (by decide))
    have named : Entry.names e.name e := ⟨live.live,rfl⟩
    unfold Machine.step Machine.child
    rw [if_pos live.dir,cut]
    cases hit : (s.entries i.toNat).find? (Entry.names e.name ·) with
    | none =>
        have missed := List.find?_eq_none.mp hit e (mem_entries.mpr ⟨k,live.slot,live.entry⟩)
        exact absurd (decide_eq_true named) missed
    | some e' =>
        obtain ⟨k',small,entry⟩ := mem_entries.mp (List.mem_of_find?_eq_some hit)
        have named' : Entry.names e.name e' := by simpa using List.find?_some hit
        have live' : Live s role i.toNat k' e' := ⟨live.node,live.dir,small,entry,named'.1⟩
        obtain rfl := tree.distinct live live' named'.2.symm
        show e'.entInumber = e.entInumber
        rw [← entry,live.entry]

theorem walk_snoc (s : Machine) {i : Word} (real : i ≠ 0) (a : List Byte) : s.walk i (names ++ [a]) =
    if s.walk i names = 0 then 0 else s.step (s.walk i names) (a.take 16) := by
  induction names generalizing i with
  | nil =>
      rw [List.nil_append,Machine.walk,Machine.walk,Machine.walk,if_neg real]
      split
      · rename_i none; exact none.symm
      · rfl
  | cons c rest ih =>
      rw [List.cons_append,Machine.walk,Machine.walk]
      by_cases none : s.step i (c.take 16) = 0
      · rw [if_pos none,if_pos none,if_pos rfl]
      · rw [if_neg none,if_neg none,ih none]

theorem Tree.root_real (tree : Tree s role) (layout : Layout s role free) : s.super.rootInumber ≠ 0 := by
  intro zero
  have live := (layout.bound tree.root (by simp)).1
  rw [zero] at live
  exact live rfl

theorem Tree.walk_path (tree : Tree s role) (layout : Layout s role free) (names : List (List Byte)) {j : Word} (real : j ≠ 0) :
    s.walk s.super.rootInumber names = j ↔ Path (s.Edge role) s.super.rootInumber names j := by
  have root := tree.root_real layout
  induction names using List.reverseRecOn generalizing j with
  | nil => rw [path_nil,Machine.walk,eq_comm]
  | append_singleton names a ih =>
      rw [walk_snoc s root,path_snoc]
      constructor
      · intro found
        split at found
        · exact absurd found.symm real
        rename_i some
        have node := walk_node tree.toBrowsable tree.root names some
        exact ⟨_,(ih some).mp rfl,(tree.step_edge node real a).mp found⟩
      · intro post
        obtain ⟨i,path,edge⟩ := post
        obtain ⟨k,e,live,_⟩ := edge
        have some : i ≠ 0 := by
          intro same
          obtain rfl := same
          exact absurd rfl (layout.bound live.node (by simp)).1
        have here := (ih some).mpr path
        rw [if_neg (by rw [here]; exact some),here]
        exact (tree.step_edge live.node real a).mpr ⟨k,e,live,by assumption⟩

-- Two trees agree on the names that lead to the same files.
theorem Tree.walk_same (tree : Tree s role) (tree' : Tree t role') (layout : Layout s role free) (layout' : Layout t role' free')
    (same : ∀ j, Path (t.Edge role') t.super.rootInumber names j ↔ Path (s.Edge role) s.super.rootInumber names j) :
    t.walk t.super.rootInumber names = s.walk s.super.rootInumber names := by
  by_cases none : s.walk s.super.rootInumber names = 0
  · rw [none]
    by_contra some
    have path := (same _).mp ((tree'.walk_path layout' names some).mp rfl)
    exact some (((tree.walk_path layout names some).mpr path).symm.trans none)
  · exact (tree'.walk_path layout' names none).mpr ((same _).mpr ((tree.walk_path layout names none).mp rfl))

-- What leaves the directories alone: new files are empty.
structure Spares (s t : Machine) (role role' : Nat → Role) (free free' : List Nat) : Prop
    extends Carries s t role role' free free' where
  same : ∀ j, role j = .inode → s.IsDir j → t.entryAt j 1 = s.entryAt j 1 ∧ t.byteAt j = s.byteAt j
  blank : ∀ j, role' j = .inode → role j ≠ .inode → t.IsDir j → t.entryAt j 1 = 0

theorem Carries.isDir (carries : Carries s t role role' free free') (node : role j = .inode) : t.IsDir j ↔ s.IsDir j := by
  unfold Machine.IsDir
  rw [carries.types j node]

theorem Carries.root (carries : Carries s t role role' free free') : t.super.rootInumber = s.super.rootInumber := by
  obtain ⟨_,_,super⟩ := carries.super
  rw [super]

section spares
variable (spares : Spares s t role role' free free')
include spares

theorem Spares.slots (node : role j = .inode) (dir : s.IsDir j) : t.slots j = s.slots j := by
  unfold Machine.slots
  rw [(spares.same j node dir).1]

theorem Spares.slotAt (node : role j = .inode) (dir : s.IsDir j) (i : Nat) : t.slotAt j i = s.slotAt j i := by
  unfold Machine.slotAt
  rw [(spares.same j node dir).2]

theorem Spares.blank_slots (node : role' j = .inode) (new : role j ≠ .inode) (dir : t.IsDir j) : t.slots j = 0 := by
  unfold Machine.slots
  rw [spares.blank j node new dir]
  decide

theorem Spares.live : Live t role' d k e ↔ Live s role d k e := by
  constructor
  · intro post
    obtain ⟨node,dir,slot,entry,live⟩ := post
    by_cases old : role d = .inode
    · have dir' := (spares.isDir old).mp dir
      exact ⟨old,dir',by rw [← spares.slots old dir']; exact slot,by rw [← spares.slotAt old dir']; exact entry,live⟩
    · rw [spares.blank_slots node old dir] at slot
      exact absurd slot (Nat.not_lt_zero k)
  · intro post
    obtain ⟨node,dir,slot,entry,live⟩ := post
    exact ⟨spares.node node,(spares.isDir node).mpr dir,by rw [spares.slots node dir]; exact slot,
      by rw [spares.slotAt node dir]; exact entry,live⟩

theorem Spares.browsable (browsable : Browsable s role) : Browsable t role' := by
  refine ⟨by rw [spares.root]; exact spares.node browsable.root,fun j node dir => ?_,fun j node dir x member live => ?_⟩
  · by_cases old : role j = .inode
    · have dir' := (spares.isDir old).mp dir
      obtain ⟨size,bytes⟩ := spares.same j old dir'
      exact (browsable.dirs j old dir').carried size bytes fun f mapped => by rw [spares.kept j f old mapped]; exact mapped
    · have none := spares.blank_slots node old dir
      refine ⟨by rw [spares.blank j node old dir,none]; rfl,⟨by rw [none]; decide,fun q low => ?_⟩,fun q low => ?_⟩
      · rw [none] at low; exact absurd low (Nat.not_lt_zero q)
      · rw [none] at low; exact absurd low (Nat.not_lt_zero q)
  · obtain ⟨i,small,entry⟩ := mem_entries.mp member
    have old := spares.live.mp ⟨node,dir,small,entry,live⟩
    exact spares.node (browsable.nodes j old.node old.dir x (mem_entries.mpr ⟨i,old.slot,old.entry⟩) live)

end spares

-- Fewer entries make a tree again.
theorem Tree.less (tree : Tree s role) (browsable : Browsable t role') (root : t.super.rootInumber = s.super.rootInumber)
    (less : ∀ {d k e}, Live t role' d k e → Live s role d k e) : Tree t role' :=
  ⟨browsable,fun one => tree.short (less one),fun one two => tree.distinct (less one) (less two),
    fun one two => tree.single (less one) (less two),fun one => by rw [root]; exact tree.rootless (less one)⟩

theorem Spares.tree (spares : Spares s t role role' free free') (tree : Tree s role) : Tree t role' :=
  tree.less (spares.browsable tree.toBrowsable) spares.root spares.live.mp

theorem Spares.edge (spares : Spares s t role role' free free') : t.Edge role' = s.Edge role := by
  funext i a j
  unfold Machine.Edge
  simp only [spares.live]

theorem Spares.walk (spares : Spares s t role role' free free') (tree : Tree s role) (layout : Layout s role free)
    (names : List (List Byte)) : t.walk t.super.rootInumber names = s.walk s.super.rootInumber names :=
  tree.walk_same (spares.tree tree) layout spares.layout fun j => by rw [spares.edge,spares.root]

theorem Spares.trans (one : Spares s t role role' free free') (two : Spares t u role' role'' free' free'') :
    Spares s u role role'' free free'' := by
  refine ⟨one.toCarries.trans two.toCarries,fun j node dir => ?_,fun j node new dir => ?_⟩
  · obtain ⟨size,bytes⟩ := one.same j node dir
    obtain ⟨size',bytes'⟩ := two.same j (one.node node) ((one.isDir node).mpr dir)
    exact ⟨size'.trans size,bytes'.trans bytes⟩
  · by_cases old : role' j = .inode
    · have dir' := (two.isDir old).mp dir
      exact (two.same j old dir').1.trans (one.blank j old new dir')
    · exact two.blank j node old dir

theorem Grew.spares (grew : Grew s t role role' free free') (layout : Layout s role free) : Spares s t role role' free free' := by
  refine ⟨grew.toCarries,fun j node _ => ⟨grew.sizes j node,funext fun q => ?_⟩,fun j node new _ => absurd (grew.nodes j node) new⟩
  unfold Machine.byteAt
  rw [grew.fblock layout node]

theorem Still.spares (still : Still s t) (layout : Layout s role free) : Spares s t role role free free :=
  (still.grew layout).spares layout

-- An entry that may take a slot.
structure Addable (s : Machine) (role : Nat → Role) (d k : Nat) (e : Entry) : Prop where
  vacant : ∀ x, ¬ Live s role d k x
  real : e.entInumber ≠ 0
  short : e.name.length ≤ 15
  new : ∀ k' x, Live s role d k' x → x.name ≠ e.name
  fresh : ∀ d' k' x, Live s role d' k' x → x.entInumber ≠ e.entInumber
  barren : ∀ k' x, ¬ Live s role e.entInumber.toNat k' x
  apart : e.entInumber.toNat ≠ d
  top : e.entInumber ≠ s.super.rootInumber

-- One slot of one directory is written.
section edited
variable (edited : Edited s t role role' free free' d k e) (node : role d = .inode) (dir : s.IsDir d)
include edited node dir

theorem Edited.live : Live t role' j i x ↔
    (Live s role j i x ∧ ¬ (j = d ∧ i = k)) ∨ (j = d ∧ i = k ∧ x = e ∧ e.entInumber ≠ 0) := by
  have low := edited.low
  have slots := edited.slots
  constructor
  · intro post
    obtain ⟨node',dir',slot,entry,live⟩ := post
    have old := edited.nodes j node'
    have was := (edited.isDir old).mp dir'
    by_cases here : j = d
    · subst here
      by_cases same : i = k
      · subst same
        obtain rfl := edited.written.symm.trans entry
        exact Or.inr ⟨rfl,rfl,rfl,live⟩
      · rw [edited.rest i same] at entry
        exact Or.inl ⟨⟨old,was,by omega,entry,live⟩,fun both => same both.2⟩
    · rw [edited.other_slots old here] at slot
      rw [edited.other_slotAt old here] at entry
      exact Or.inl ⟨⟨old,was,slot,entry,live⟩,fun both => here both.1⟩
  · intro post
    rcases post with ⟨⟨old,was,slot,entry,live⟩,away⟩ | ⟨rfl,rfl,rfl,live⟩
    · refine ⟨edited.node old,(edited.isDir old).mpr was,?_,?_,live⟩
      · by_cases here : j = d
        · subst here; omega
        · rw [edited.other_slots old here]; exact slot
      · by_cases here : j = d
        · subst here
          rw [edited.rest i fun same => away ⟨rfl,same⟩]
          exact entry
        · rw [edited.other_slotAt old here]; exact entry
    · exact ⟨edited.node node,(edited.isDir node).mpr dir,by omega,edited.written,live⟩

-- A name for a file that had none.
section more
variable {D : Word} (here : D.toNat = d) (addable : Addable s role d k e)
include addable

theorem Edited.live_more : Live t role' j i x ↔ Live s role j i x ∨ (j = d ∧ i = k ∧ x = e) := by
  rw [edited.live node dir]
  constructor
  · intro post
    rcases post with ⟨old,_⟩ | ⟨there,slot,same,_⟩
    · exact Or.inl old
    · exact Or.inr ⟨there,slot,same⟩
  · intro post
    rcases post with old | ⟨there,slot,same⟩
    · refine Or.inl ⟨old,?_⟩
      intro post
      obtain ⟨rfl,rfl⟩ := post
      exact addable.vacant _ old
    · exact Or.inr ⟨there,slot,same,addable.real⟩

theorem Edited.tree_more (tree : Tree s role) (leads : role' e.entInumber.toNat = .inode) : Tree t role' := by
  have live := fun {j i x} => edited.live_more (j := j) (i := i) (x := x) node dir addable
  refine ⟨edited.browsable tree.toBrowsable fun _ => leads,?_,?_,?_,?_⟩
  · intro j i x one
    rcases live.mp one with old | ⟨_,_,rfl⟩
    · exact tree.short old
    · exact addable.short
  · intro j i i' x x' one two same
    rcases live.mp one with old | ⟨rfl,rfl,rfl⟩
    · rcases live.mp two with old' | ⟨rfl,rfl,rfl⟩
      · exact tree.distinct old old' same
      · exact absurd same (addable.new _ _ old)
    · rcases live.mp two with old' | ⟨_,rfl,_⟩
      · exact absurd same.symm (addable.new _ _ old')
      · rfl
  · intro j j' i i' x x' one two same
    rcases live.mp one with old | ⟨rfl,rfl,rfl⟩
    · rcases live.mp two with old' | ⟨rfl,rfl,rfl⟩
      · exact tree.single old old' same
      · exact absurd same (addable.fresh _ _ _ old)
    · rcases live.mp two with old' | ⟨rfl,rfl,_⟩
      · exact absurd same.symm (addable.fresh _ _ _ old')
      · exact ⟨rfl,rfl⟩
  · intro j i x one
    rw [edited.root]
    rcases live.mp one with old | ⟨_,_,rfl⟩
    · exact tree.rootless old
    · exact addable.top

include here

theorem Edited.edge_more (i : Word) (a : List Byte) (j : Word) :
    t.Edge role' i a j ↔ s.Edge role i a j ∨ (i = D ∧ a = e.name ∧ j = e.entInumber) := by
  unfold Machine.Edge
  constructor
  · intro post
    obtain ⟨k',x,live,rfl,rfl⟩ := post
    rcases (edited.live_more node dir addable).mp live with old | ⟨there,_,rfl⟩
    · exact Or.inl ⟨k',x,old,rfl,rfl⟩
    · exact Or.inr ⟨BitVec.eq_of_toNat_eq (there.trans here.symm),rfl,rfl⟩
  · intro post
    rcases post with ⟨k',x,live,rfl,rfl⟩ | ⟨rfl,rfl,rfl⟩
    · exact ⟨k',x,(edited.live_more node dir addable).mpr (Or.inl live),rfl,rfl⟩
    · exact ⟨k,e,(edited.live_more node dir addable).mpr (Or.inr ⟨here,rfl,rfl⟩),rfl,rfl⟩

-- The name leads to its file, and only paths through it are concerned.
theorem Edited.walk_more (layout : Layout s role free) (tree : Tree s role) (leads : role' e.entInumber.toNat = .inode)
    (found : s.walk s.super.rootInumber p = D) :
    t.walk t.super.rootInumber (p ++ [e.name]) = e.entInumber ∧
    ∀ names, ¬ p ++ [e.name] <+: names → t.walk t.super.rootInumber names = s.walk s.super.rootInumber names := by
  have tree' := edited.tree_more node dir addable tree leads
  have some : D ≠ 0 := by
    intro same
    obtain rfl := same
    exact (layout.bound node (by simp)).1 here.symm
  have path := (tree.walk_path layout p some).mp found
  have barren : ∀ a j, ¬ s.Edge role e.entInumber a j := by
    intro a j post
    obtain ⟨k',x,live,_⟩ := post
    exact addable.barren _ _ live
  have apart : e.entInumber ≠ D := by
    intro same
    obtain rfl := same
    exact addable.apart here
  have link := fun {q i} => link_path (q := q) (i := i) tree.named (edited.edge_more node dir here addable) barren apart path
  constructor
  · rw [tree'.walk_path edited.layout _ addable.real,edited.root]
    exact link.mpr (Or.inr ⟨rfl,rfl⟩)
  · intro names outside
    refine tree.walk_same tree' layout edited.layout fun j => ?_
    rw [edited.root,link]
    constructor
    · intro post
      rcases post with old | ⟨rfl,_⟩
      · exact old
      · exact absurd (List.prefix_refl _) outside
    · exact Or.inl

end more

-- A name taken away.
section less
variable {D : Word} (here : D.toNat = d) (null : e.entInumber = 0)
include null

theorem Edited.live_less : Live t role' j i x ↔ Live s role j i x ∧ ¬ (j = d ∧ i = k) := by
  rw [edited.live node dir]
  exact ⟨fun either => either.resolve_right fun new => new.2.2.2 null,Or.inl⟩

theorem Edited.tree_less (tree : Tree s role) : Tree t role' :=
  tree.less (edited.browsable tree.toBrowsable fun real => absurd null real) edited.root
    fun one => ((edited.live_less node dir null).mp one).1

variable (tree : Tree s role) (was : Live s role d k x)
include here tree was

theorem Edited.edge_less (i : Word) (a : List Byte) (j : Word) :
    t.Edge role' i a j ↔ s.Edge role i a j ∧ ¬ (i = D ∧ a = x.name) := by
  unfold Machine.Edge
  constructor
  · intro post
    obtain ⟨k',y,live,rfl,rfl⟩ := post
    obtain ⟨old,away⟩ := (edited.live_less node dir null).mp live
    refine ⟨⟨k',y,old,rfl,rfl⟩,?_⟩
    intro post
    obtain ⟨rfl,same⟩ := post
    rw [here] at old
    exact away ⟨here,tree.distinct old was same⟩
  · intro post
    obtain ⟨⟨k',y,old,rfl,rfl⟩,away⟩ := post
    refine ⟨k',y,(edited.live_less node dir null).mpr ⟨old,?_⟩,rfl,rfl⟩
    intro post
    obtain ⟨there,rfl⟩ := post
    refine away ⟨BitVec.eq_of_toNat_eq (there.trans here.symm),?_⟩
    rw [← old.entry,there,was.entry]

theorem Edited.walk_less (layout : Layout s role free) (found : s.walk s.super.rootInumber p = D) :
    t.walk t.super.rootInumber (p ++ [x.name]) = 0 ∧
    ∀ names, ¬ p ++ [x.name] <+: names → t.walk t.super.rootInumber names = s.walk s.super.rootInumber names := by
  have tree' := edited.tree_less node dir null tree
  have some : D ≠ 0 := by
    intro same
    obtain rfl := same
    exact (layout.bound node (by simp)).1 here.symm
  have path := (tree.walk_path layout p some).mp found
  have cut := fun {q i} => cut_path (q := q) (i := i) tree.named (edited.edge_less node dir here null tree was) path
  constructor
  · by_contra live
    have along := (tree'.walk_path edited.layout _ live).mp rfl
    rw [edited.root] at along
    exact (cut.mp along).2 (List.prefix_refl _)
  · intro names outside
    refine tree.walk_same tree' layout edited.layout fun j => ?_
    rw [edited.root,cut]
    exact ⟨fun both => both.1,fun old => ⟨old,outside⟩⟩

end less

end edited

end AsePlusPlus
