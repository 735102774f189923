import Mathlib.Data.List.Infix
import Mathlib.Data.Set.Defs
import Mathlib.Logic.Function.Basic

namespace Store

-- A tree of files: a path leads to a directory, or to a file and its data.
inductive Node (Data : Type) where
  | directory
  | file (data : Data)

abbrev Files (Name Data : Type) := List Name → Option (Node Data)

variable {Name Data : Type} {files : Files Name Data} {path q : List Name} {node : Node Data} {name : Name}

-- A path under which something can be made.
structure Vacant (files : Files Name Data) (path : List Name) : Prop where
  below : path ≠ []
  parent : files path.dropLast = some .directory
  new : files path = none

-- The root is a directory, and what is named lies in directories.
structure Grounded (files : Files Name Data) : Prop where
  root : files [] = some .directory
  above : ∀ {path name}, files (path ++ [name]) ≠ none → files path = some .directory

open Classical in
noncomputable def write (files : Files Name Data) (path : List Name) (node : Node Data) : Files Name Data :=
  fun q => if q = path then some node else files q

open Classical in
noncomputable def erase (files : Files Name Data) (path : List Name) : Files Name Data :=
  fun q => if path <+: q then none else files q

theorem write_here (files : Files Name Data) (path : List Name) (node : Node Data) : write files path node path = some node := if_pos rfl

theorem write_other (files : Files Name Data) (node : Node Data) (other : q ≠ path) : write files path node q = files q := if_neg other

theorem erase_below (files : Files Name Data) (below : path <+: q) : erase files path q = none := if_pos below

theorem erase_other (files : Files Name Data) (outside : ¬ path <+: q) : erase files path q = files q := if_neg outside

theorem Vacant.leaf (vacant : Vacant files path) (grounded : Grounded files) (name : Name) : files (path ++ [name]) = none := by
  by_contra named
  have dir := grounded.above named
  rw [vacant.new] at dir
  cases dir

theorem Grounded.write (grounded : Grounded files) (vacant : Vacant files path) (node : Node Data) :
    Grounded (write files path node) := by
  refine ⟨?_,?_⟩
  · rw [write_other files node (fun same => vacant.below same.symm)]
    exact grounded.root
  · intro front name named
    have away : front ≠ path := by
      intro same
      subst same
      rw [write_other files node (by simp)] at named
      exact named (vacant.leaf grounded name)
    rw [write_other files node away]
    by_cases here : front ++ [name] = path
    · have parent := vacant.parent
      rwa [← here,List.dropLast_concat] at parent
    · rw [write_other files node here] at named
      exact grounded.above named

theorem Grounded.erase (grounded : Grounded files) (some : path ≠ []) : Grounded (erase files path) := by
  refine ⟨?_,?_⟩
  · rw [erase_other files (fun below => some (List.prefix_nil.mp below))]
    exact grounded.root
  · intro front name named
    have outside : ¬ path <+: front ++ [name] := fun below => named (erase_below files below)
    rw [erase_other files outside] at named
    rw [erase_other files (fun below => outside (below.trans (List.prefix_append _ _)))]
    exact grounded.above named

-- Files and the directory that one works in.
structure Session (Name Data : Type) where
  files : Files Name Data
  here : List Name

inductive Act (Name Data : Type) where
  | make (path : List Name) (node : Node Data)
  -- What `source` holds goes to `dest`, or `blank` where there is no such file.
  | copy (source dest : List Name) (blank : Data)
  | remove (path : List Name)
  | read (path : List Name)
  | list (path : List Name)
  | go (path : List Name)
  | rest

inductive Reply (Name Data : Type) where
  | done
  | refused
  | data (data : Data)
  | names (names : Set (Name × Bool))

def Session.dataAt (k : Session Name Data) (path : List Name) : Option Data :=
  match k.files path with
  | some (.file data) => some data
  | _ => none

def Session.namesAt (k : Session Name Data) (path : List Name) : Set (Name × Bool) :=
  fun entry => ∃ node, k.files (path ++ [entry.1]) = some node ∧ (entry.2 = true ↔ node = .directory)

open Classical in
noncomputable def Session.respond (k : Session Name Data) : Act Name Data → Reply Name Data × Session Name Data
  | .make path node => if Vacant k.files path then (.done,{k with files := write k.files path node}) else (.refused,k)
  | .copy source dest blank =>
    if Vacant k.files dest then
      match k.dataAt source with
      | some data => (.done,{k with files := write k.files dest (.file data)})
      | none => (.refused,{k with files := write k.files dest (.file blank)})
    else (.refused,k)
  | .remove path => if path ≠ [] ∧ k.files path ≠ none then (.done,{k with files := erase k.files path}) else (.refused,k)
  | .read path => ((k.dataAt path).elim .refused .data,k)
  | .list path => (.names (k.namesAt path),k)
  | .go path => if k.files path = none then (.refused,k) else (.done,{k with here := path})
  | .rest => (.done,k)

def SessionStep (k : Session Name Data) (act : Act Name Data × Reply Name Data) (l : Session Name Data) : Prop :=
  k.respond act.1 = (act.2,l)

variable {k : Session Name Data}

theorem dataAt_file {data : Data} (found : k.files path = some (.file data)) : k.dataAt path = some data := by
  unfold Session.dataAt
  rw [found]

theorem dataAt_none (missing : k.files path = none) : k.dataAt path = none := by
  unfold Session.dataAt
  rw [missing]

theorem respond_make (vacant : Vacant k.files path) (node : Node Data) :
    k.respond (.make path node) = (.done,{k with files := write k.files path node}) := if_pos vacant

theorem respond_refuse (occupied : ¬ Vacant k.files path) (node : Node Data) : k.respond (.make path node) = (.refused,k) :=
  if_neg occupied

theorem respond_copy {source : List Name} {data : Data} (vacant : Vacant k.files path) (found : k.dataAt source = some data)
    (blank : Data) : k.respond (.copy source path blank) = (.done,{k with files := write k.files path (.file data)}) := by
  refine (if_pos vacant).trans ?_
  rw [found]

theorem respond_blank {source : List Name} (vacant : Vacant k.files path) (missing : k.dataAt source = none) (blank : Data) :
    k.respond (.copy source path blank) = (.refused,{k with files := write k.files path (.file blank)}) := by
  refine (if_pos vacant).trans ?_
  rw [missing]

theorem respond_keep (occupied : ¬ Vacant k.files path) (source : List Name) (blank : Data) :
    k.respond (.copy source path blank) = (.refused,k) := if_neg occupied

theorem respond_remove (below : path ≠ []) (there : k.files path ≠ none) :
    k.respond (.remove path) = (.done,{k with files := erase k.files path}) := if_pos ⟨below,there⟩

theorem respond_miss (none : k.files path = none) : k.respond (.remove path) = (.refused,k) :=
  if_neg fun there => there.2 none

theorem respond_read {data : Data} (found : k.dataAt path = some data) : k.respond (.read path) = (.data data,k) := by
  rw [Session.respond,found]
  rfl

theorem respond_absent (missing : k.dataAt path = none) : k.respond (.read path) = (.refused,k) := by
  rw [Session.respond,missing]
  rfl

theorem respond_go (there : k.files path ≠ none) : k.respond (.go path) = (.done,{k with here := path}) := if_neg there

theorem respond_stay (missing : k.files path = none) : k.respond (.go path) = (.refused,k) := if_pos missing

-- Several trees, one of which is worked in.
structure Shelf (Vol Name Data : Type) where
  volumes : Vol → Files Name Data
  mounted : Vol
  here : List Name

inductive ShelfAct (Vol Name Data : Type) where
  | act (act : Act Name Data)
  | mount (volume : Vol)
  | start (volume : Vol)
  | format (volume : Vol)

-- Nothing but the root.
def bare : Files Name Data
  | [] => some .directory
  | _ :: _ => none

variable {Vol : Type} {h : Shelf Vol Name Data}

def Shelf.session (h : Shelf Vol Name Data) : Session Name Data := ⟨h.volumes h.mounted,h.here⟩

open Classical in
noncomputable def replace (volumes : Vol → Files Name Data) (volume : Vol) (files : Files Name Data) : Vol → Files Name Data :=
  fun v => if v = volume then files else volumes v

noncomputable def Shelf.put (h : Shelf Vol Name Data) (k : Session Name Data) : Shelf Vol Name Data :=
  {h with volumes := replace h.volumes h.mounted k.files,here := k.here}

-- Mounting leaves one where one is; a new start begins at the root.
noncomputable def Shelf.respond (h : Shelf Vol Name Data) : ShelfAct Vol Name Data → Reply Name Data × Shelf Vol Name Data
  | .act act => ((h.session.respond act).1,h.put (h.session.respond act).2)
  | .mount volume => (.done,{h with mounted := volume})
  | .start volume => (.done,{h with mounted := volume,here := []})
  | .format volume => (.done,⟨replace h.volumes volume bare,volume,[]⟩)

def ShelfStep (h : Shelf Vol Name Data) (act : ShelfAct Vol Name Data × Reply Name Data) (g : Shelf Vol Name Data) : Prop :=
  h.respond act.1 = (act.2,g)

theorem replace_here (volumes : Vol → Files Name Data) (volume : Vol) (files : Files Name Data) :
    replace volumes volume files volume = files := if_pos rfl

theorem replace_other (volumes : Vol → Files Name Data) {volume v : Vol} (files : Files Name Data) (other : v ≠ volume) :
    replace volumes volume files v = volumes v := if_neg other

-- What is found behind an act that was broken off: nothing of it, or all, or a part
-- of the data of its new file.
inductive Remains (part : Data → Data → Prop) (k : Session Name Data) (act : Act Name Data) (files : Files Name Data) : Prop
  | nothing (same : files = k.files)
  | whole (same : files = (k.respond act).2.files)
  | part {path : List Name} {left data : Data} (vacant : Vacant k.files path) (meant : (k.respond act).2.files = write k.files path (.file data))
    (less : part left data) (same : files = write k.files path (.file left))

theorem write_inj {data data' : Data} {path' : List Name} (vacant : Vacant files path') (same : write files path' (.file data') = write files path (.file data)) :
    path' = path ∧ data' = data := by
  have here := congrFun same path'
  rw [write_here] at here
  by_cases away : path' = path
  · subst away
    rw [write_here] at here
    cases here
    exact ⟨rfl,rfl⟩
  · rw [write_other files _ away,vacant.new] at here
    cases here

-- What is left of a new file.
theorem Remains.made {part : Data → Data → Prop} {data : Data} {left : Files Name Data} (remains : Remains part k (.make path (.file data)) left)
    (vacant : Vacant k.files path) : left = k.files ∨ left = write k.files path (.file data) ∨
      ∃ less, part less data ∧ left = write k.files path (.file less) := by
  have whole : (k.respond (.make path (.file data))).2.files = write k.files path (.file data) :=
    congrArg (fun post => post.2.files) (respond_make vacant (.file data))
  cases remains with
  | nothing same => exact .inl same
  | whole same => exact .inr (.inl (same.trans whole))
  | part vacant' meant less same =>
      obtain ⟨rfl,rfl⟩ := write_inj vacant' (meant.symm.trans whole)
      exact .inr (.inr ⟨_,less,same⟩)

end Store
