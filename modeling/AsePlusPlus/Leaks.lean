import AsePlusPlus.Deletion
import AsePlusPlus.Handles
import AsePlusPlus.Namespace

namespace AsePlusPlus
open Words Program Trace Chain

-- The files that the entries in use lead to, from the root.
inductive Machine.Reachable (s : Machine) : Nat → Prop
  | root : s.Reachable s.super.rootInumber.toNat
  | entry {d : Nat} {e : Entry} (dir : s.Reachable d) (type : s.IsDir d) (live : e ∈ s.liveEntries d) :
      s.Reachable e.entInumber.toNat

-- The blocs of a file, by the pointers of its inode.
inductive Machine.Belongs (s : Machine) (i : Nat) : Nat → Prop
  | inode : s.Belongs i i
  | direct (w : Nat) (low : 2 ≤ w) (high : w < 126) : s.Belongs i (s.entryAt i w).toNat
  | indirect : s.Belongs i (s.entryAt i 126).toNat
  | listed (w : Nat) (some : s.entryAt i 126 ≠ 0) (small : w < 128) : s.Belongs i (s.entryAt (s.entryAt i 126).toNat w).toNat
  | double : s.Belongs i (s.entryAt i 127).toNat
  | table (k : Nat) (some : s.entryAt i 127 ≠ 0) (small : k < 128) : s.Belongs i (s.entryAt (s.entryAt i 127).toNat k).toNat
  | leaf (k w : Nat) (some : s.entryAt i 127 ≠ 0) (small : k < 128) (more : s.entryAt (s.entryAt i 127).toNat k ≠ 0) (bound : w < 128) :
      s.Belongs i (s.entryAt (s.entryAt (s.entryAt i 127).toNat k).toNat w).toNat

-- Every bloc is on the free chain or a reachable file's.
def NoLeak (s : Machine) : Prop :=
  ∀ b, 1 ≤ b → b < s.nsec → (∃ free, FreeChain s free ∧ b ∈ free) ∨ ∃ i, s.Reachable i ∧ s.Belongs i b

-- A volume and the descriptors that are open on it.
structure Session where
  machine : Machine
  descs : Nat → Option FileDesc

inductive StoreCall where
  | create (path : List Byte) (type : FileType) (r : Word)
  | delete (path : List Byte) (r : Word)
  | open (d : Nat) (path : List Byte) (r : Word)
  | writec (d : Nat) (c : Byte) (r : Word)
  | write (d : Nat) (text : List Byte) (r : Word)
  | close (d : Nat)

-- A call that comes to an end. A descriptor is opened in a variable that holds
-- anything, and is left alone when that fails.
inductive StoreStep : Session → StoreCall → Session → Prop
  | create {s t : Machine} {descs : Nat → Option FileDesc} {path : List Byte} {type : FileType} {r : Word} (text : 0 ∉ path)
      (ran : createFile path type s = (.ok r,t)) : StoreStep ⟨s,descs⟩ (.create path type r) ⟨t,descs⟩
  | delete {s t : Machine} {descs : Nat → Option FileDesc} {path : List Byte} {r : Word} (text : 0 ∉ path)
      (ran : deleteFile path s = (.ok r,t)) : StoreStep ⟨s,descs⟩ (.delete path r) ⟨t,descs⟩
  | open {s t : Machine} {descs : Nat → Option FileDesc} {d : Nat} {path : List Byte} {old fd : FileDesc} {r : Word} (text : 0 ∉ path)
      (ran : openFile old path s = (.ok (r,fd),t)) :
      StoreStep ⟨s,descs⟩ (.open d path r) ⟨t,if r = returnSuccess then Function.update descs d (some fd) else descs⟩
  | writec {s t : Machine} {descs : Nat → Option FileDesc} {d : Nat} {c : Byte} {fd fd' : FileDesc} {r : Word}
      (used : descs d = some fd) (ran : writecFile fd c s = (.ok (r,fd'),t)) :
      StoreStep ⟨s,descs⟩ (.writec d c r) ⟨t,Function.update descs d (some fd')⟩
  | write {s t : Machine} {descs : Nat → Option FileDesc} {d n : Nat} {buf : Vector Byte n} {fd fd' : FileDesc} {r : Word}
      (used : descs d = some fd) (ran : writeFile fd buf s = (.ok (r,fd'),t)) :
      StoreStep ⟨s,descs⟩ (.write d buf.toList r) ⟨t,Function.update descs d (some fd')⟩
  | close {s t : Machine} {descs : Nat → Option FileDesc} {d : Nat} {fd fd' : FileDesc}
      (used : descs d = some fd) (ran : closeFile fd s = (.ok fd',t)) :
      StoreStep ⟨s,descs⟩ (.close d) ⟨t,Function.update descs d none⟩

-- Nothing is deleted, a file that is created gets its entry, and the directories
-- are written by nobody else.
def StoreCall.Careful (h : Session) : StoreCall → Prop
  | .create path _ _ => Rejected path h.machine ∨ h.machine.super.nbBlocLibre = 0 ∨
      ((newcomer h.machine.super.premierLibre (lastBasename path)).Plain ∧
        h.machine.lacks (h.machine.parent path).toNat (h.machine.vacancy (h.machine.parent path).toNat) <
          h.machine.super.nbBlocLibre.toNat)
  | .delete path _ => h.machine.parent path = 0 ∨ h.machine.step (h.machine.parent path) (lastBasename path) = 0
  | .open _ _ _ => True
  | .writec d _ _ | .write d _ _ => ∀ fd, h.descs d = some fd → ¬ h.machine.IsDir fd.file
  | .close d => ∀ fd, h.descs d = some fd → h.machine.IsDir fd.file → fd.fdsSize = h.machine.entryAt fd.file 1

-- The invariant: a consistent volume, every bloc of which has a role, and whose
-- inodes are reachable.
structure Housed (s : Machine) (role : Nat → Role) (free : List Nat) : Prop where
  layout : Layout s role free
  browsable : Browsable s role
  backed : Backed s free
  owned : Owned s role
  named : ∀ b, b ≠ 0 → b < s.nsec → role b ≠ .none
  reached : ∀ i, role i = .inode → s.Reachable i

structure Session.Settled (h : Session) (role : Nat → Role) (free : List Nat) : Prop where
  housed : Housed h.machine role free
  handles : ∀ d fd, h.descs d = some fd → Handle h.machine role free fd ∧ (h.machine.IsDir fd.file → fd.fdsDirty = false)

variable {role role' role'' : Nat → Role} {free free' rest : List Nat} {s t m : Machine} {b d i k : Nat} {path : List Byte} {r : Word}
variable {e : Entry} {type : FileType} {fd : FileDesc} {h h' : Session} {past : List (Session × StoreCall)} {c : StoreCall}

theorem mem_liveEntries : e ∈ s.liveEntries d ↔ ∃ k, k < s.slots d ∧ s.slotAt d k = e ∧ e.entInumber ≠ 0 := by
  unfold Machine.liveEntries
  rw [List.mem_filter,mem_entries]
  simp only [decide_eq_true_eq]
  constructor
  · intro both
    obtain ⟨⟨k,inside,entry⟩,live⟩ := both
    exact ⟨k,inside,entry,live⟩
  · intro slot
    obtain ⟨k,inside,entry,live⟩ := slot
    exact ⟨⟨k,inside,entry⟩,live⟩

-- Which word of which bloc leads to a role.
theorem target_double {q : Role} (target : q.target b k = .double i) : q = .inode ∧ b = i ∧ k = 127 := by
  cases q with
  | inode =>
      simp only [Role.target] at target
      split at target
      · cases target
      · split at target
        · rename_i last
          cases target
          exact ⟨rfl,rfl,last⟩
        · cases target
  | _ => simp [Role.target] at target

theorem target_index {q : Role} {w : Nat} (target : q.target b w = .index i k) : q = .double i ∧ w = k := by
  cases q with
  | inode =>
      simp only [Role.target] at target
      split at target
      · cases target
      · split at target <;> cases target
  | double j =>
      cases target
      exact ⟨rfl,rfl⟩
  | _ => simp [Role.target] at target

theorem target_data {q : Role} {w f : Nat} (target : q.target b w = .data i f) :
    (q = .inode ∧ b = i ∧ 2 ≤ w ∧ w < 126) ∨ ∃ k, q = .index i k := by
  cases q with
  | inode =>
      simp only [Role.target] at target
      split at target
      · rename_i direct
        cases target
        exact .inl ⟨rfl,rfl,direct⟩
      · split at target <;> cases target
  | index j k =>
      cases target
      exact .inr ⟨k,rfl⟩
  | _ => simp [Role.target] at target

section owned
variable (owned : Owned s role) (layout : Layout s role free)
include owned

theorem Owned.double (used : role b = .double i) : role i = .inode ∧ (s.entryAt i 127).toNat = b := by
  obtain ⟨c,w,_,target,reached⟩ := owned b (by simp [used]) (by simp [used]) (by simp [used])
  rw [used] at target
  obtain ⟨node,same,last⟩ := target_double target
  subst same last
  exact ⟨node,reached⟩

include layout

theorem Owned.index (used : role b = .index i k) : role i = .inode ∧ s.entryAt i 127 ≠ 0 ∧ k < 128 ∧
    (s.entryAt (s.entryAt i 127).toNat k).toNat = b := by
  obtain ⟨c,w,small,target,reached⟩ := owned b (by simp [used]) (by simp [used]) (by simp [used])
  rw [used] at target
  obtain ⟨parent,same⟩ := target_index target
  subst same
  obtain ⟨node,above⟩ := owned.double parent
  refine ⟨node,fun null => ?_,small,by rw [above]; exact reached⟩
  rw [null] at above
  exact (layout.bound parent (by simp)).1 above.symm

-- What has a role below an inode is the inode's.
theorem Owned.belongs (real : role b ≠ .none) (taken : role b ≠ .free) : ∃ i, role i = .inode ∧ s.Belongs i b := by
  cases used : role b with
  | none => exact absurd used real
  | free => exact absurd used taken
  | inode => exact ⟨b,used,.inode⟩
  | double i =>
      obtain ⟨node,here⟩ := owned.double used
      exact ⟨i,node,here ▸ .double⟩
  | index i k =>
      obtain ⟨node,above,small,here⟩ := owned.index layout used
      exact ⟨i,node,here ▸ .table k above small⟩
  | data i f =>
      obtain ⟨c,w,small,target,reached⟩ := owned b (by simp [used]) (by simp [used]) (by simp [used])
      rw [used] at target
      rcases target_data target with ⟨node,same,low,high⟩ | ⟨k,parent⟩
      · subst same
        exact ⟨c,node,reached ▸ .direct w low high⟩
      · obtain ⟨node,above,bound,here⟩ := owned.index layout parent
        have more : s.entryAt (s.entryAt i 127).toNat k ≠ 0 := by
          intro null
          rw [null] at here
          exact (layout.bound parent (by simp)).1 here.symm
        refine ⟨i,node,?_⟩
        rw [← reached,← here]
        exact .leaf k w above bound more small

end owned

theorem Housed.covered (housed : Housed s role free) : NoLeak s := by
  intro b low high
  have real := housed.named b (by omega) high
  by_cases unused : role b = .free
  · exact .inl ⟨free,housed.layout.chain,(housed.layout.vacant b).mp unused⟩
  · obtain ⟨i,node,here⟩ := housed.owned.belongs housed.layout real unused
    exact .inr ⟨i,housed.reached i node,here⟩

theorem Browsable.reachable (browsable : Browsable s role) (reachable : s.Reachable i) : role i = .inode := by
  induction reachable with
  | root => exact browsable.root
  | entry _ type live ih =>
      obtain ⟨k,inside,entry,real⟩ := mem_liveEntries.mp live
      exact browsable.nodes _ ih type _ (mem_entries.mpr ⟨k,inside,entry⟩) real

-- An entry in use adds its file to the reachable ones.
theorem Machine.Reachable.step (reachable : s.Reachable d) (live : Live s role d k e) : s.Reachable e.entInumber.toNat :=
  .entry reachable live.dir (mem_liveEntries.mpr ⟨k,live.slot,live.entry,live.live⟩)

-- As long as the entries stay, so do the reachable files.
theorem Browsable.kept_reachable (browsable : Browsable s role) (root : t.super.rootInumber = s.super.rootInumber)
    (kept : ∀ {d k e}, Live s role d k e → Live t role' d k e) (reachable : s.Reachable i) : t.Reachable i := by
  induction reachable with
  | root =>
      rw [← root]
      exact .root
  | entry dir type live ih =>
      obtain ⟨k,inside,entry,real⟩ := mem_liveEntries.mp live
      exact ih.step (kept ⟨browsable.reachable dir,type,inside,entry,real⟩)

-- The directories are left alone and no file is made.
theorem Housed.spared (housed : Housed s role free) (spares : Spares s t role role' free free')
    (nodes : ∀ b, role' b = .inode → role b = .inode) (backs : Backs s t free free') : Housed t role' free' := by
  refine ⟨spares.layout,spares.browsable housed.browsable,backs.backed housed.backed,spares.owned housed.owned,?_,?_⟩
  · intro b real inside
    rw [spares.within.nsec] at inside
    exact spares.named b (housed.named b real inside)
  · intro i node
    exact housed.browsable.kept_reachable spares.root (fun live => spares.live.mpr live) (housed.reached i (nodes i node))

theorem Housed.filed (housed : Housed s role free) (filed : Filed s t role role' free free' i) (plain : ¬ s.IsDir i)
    (backs : Backs s t free free') : Housed t role' free' := housed.spared (filed.spares plain) filed.nodes backs

theorem Housed.still (housed : Housed s role free) (still : Still s t) : Housed t role free :=
  housed.spared (still.spares housed.layout) (fun _ => id) still.backs

-- A new file is reached by its entry, and the others as before.
theorem Housed.made (housed : Housed s role (b :: rest)) (parent : s.parent path ≠ 0) (made : Made s t role b rest path) :
    ∃ role' free', Housed t role' free' ∧ Carries s t role role' (b :: rest) free' ∧ Backs s t (b :: rest) free' := by
  obtain ⟨m,role',free',spares,edited,sound⟩ := made
  have layout := housed.layout
  have browsable := housed.browsable
  obtain ⟨node,dir,_⟩ := parent_dir browsable parent
  have node' := spares.node node
  have dir' := (spares.isDir node).mpr dir
  have number : (newcomer s.super.premierLibre (lastBasename path)).entInumber.toNat = b := layout.chain.head
  have real : (newcomer s.super.premierLibre (lastBasename path)).entInumber ≠ 0 := layout.chain.head_ne
  have leads : role' (newcomer s.super.premierLibre (lastBasename path)).entInumber.toNat = .inode := by
    refine edited.node ?_
    rw [number,Function.update_self]
  have carries := spares.toCarries.trans edited.toExtends.toCarries
  have backs : Backs s t (b :: rest) free' := ⟨fun synced => .inl (sound.synced synced),fun drained => absurd drained.1 (by simp)⟩
  have browsable' := spares.browsable browsable
  -- the slot that is written held no entry in use
  have kept : ∀ {d k e}, Live m (Function.update role b .inode) d k e → Live t role' d k e := by
    intro d k e live
    refine (edited.live node' dir').mpr (.inl ⟨live,fun both => ?_⟩)
    obtain ⟨here,slot⟩ := both
    subst here slot
    rw [← spares.vacancy node dir] at live
    exact vacancy_live _ _ _ live
  have reaches : ∀ i, s.Reachable i → t.Reachable i := fun i reachable =>
    browsable'.kept_reachable edited.root kept (browsable.kept_reachable spares.root (fun live => spares.live.mpr live) reachable)
  refine ⟨role',free',⟨edited.layout,edited.browsable browsable' fun _ => leads,backs.backed housed.backed,
    carries.owned housed.owned,?_,?_⟩,carries,backs⟩
  · intro c live inside
    rw [carries.within.nsec] at inside
    exact carries.named c (housed.named c live inside)
  · intro i old
    by_cases new : i = b
    · rw [new,← number]
      have entry : Live t role' (s.parent path).toNat (s.vacancy (s.parent path).toNat)
          (newcomer s.super.premierLibre (lastBasename path)) := (edited.live node' dir').mpr (.inr ⟨rfl,rfl,rfl,real⟩)
      exact (reaches _ (housed.reached _ node)).step entry
    · have before := edited.nodes i old
      rw [Function.update_of_ne new] at before
      exact reaches i (housed.reached i before)

-- A call keeps what the open descriptors rely on.
theorem Session.Settled.after (settled : h.Settled role free) (carries : Carries h.machine t role role' free free')
    (backs : Backs h.machine t free free') (housed : Housed t role' free') : Session.Settled ⟨t,h.descs⟩ role' free' := by
  refine ⟨housed,fun d fd used => ?_⟩
  obtain ⟨handle,clean⟩ := settled.handles d fd used
  exact ⟨handle.after carries backs,fun dir => clean ((carries.isDir handle.node).mp dir)⟩

theorem Session.Settled.still (settled : h.Settled role free) (still : Still h.machine t) : Session.Settled ⟨t,h.descs⟩ role free :=
  settled.after (still.grew settled.housed.layout).toCarries still.backs (settled.housed.still still)

theorem Session.Settled.put (settled : h.Settled role free) (handle : Handle h.machine role free fd)
    (clean : h.machine.IsDir fd.file → fd.fdsDirty = false) :
    Session.Settled ⟨h.machine,Function.update h.descs d (some fd)⟩ role free := by
  refine ⟨settled.housed,fun e fd' used => ?_⟩
  by_cases same : e = d
  · subst same
    dsimp only at used
    rw [Function.update_self] at used
    cases used
    exact ⟨handle,clean⟩
  · dsimp only at used
    rw [Function.update_of_ne same] at used
    exact settled.handles e fd' used

theorem Session.Settled.create (settled : h.Settled role free) (careful : (StoreCall.create path type r).Careful h)
    (ran : createFile path type h.machine = (.ok r,t)) : ∃ role' free', Session.Settled ⟨t,h.descs⟩ role' free' := by
  have housed := settled.housed
  have layout := housed.layout
  have browsable := housed.browsable
  by_cases refused : h.machine.parent path = 0 ∨ h.machine.resolve path ≠ 0
  · obtain ⟨_,still⟩ := (runs_createFile_rejected type layout browsable refused).result ran
    exact ⟨role,free,settled.still still⟩
  have parent : h.machine.parent path ≠ 0 := fun none => refused (.inl none)
  have new : h.machine.resolve path = 0 := not_not.mp fun some => refused (.inr some)
  cases free with
  | nil => exact ((create_full_exits type layout browsable parent new).result ran).elim
  | cons b rest =>
      have count := layout.chain.count
      rw [List.length_cons] at count
      have fits := careful.resolve_left fun wrong => refused ((rejected_iff layout browsable).mp wrong)
      have some : h.machine.super.nbBlocLibre ≠ 0 := by
        intro none
        rw [none] at count
        cases count
      obtain ⟨plain,enough⟩ := fits.resolve_left some
      rw [count] at enough
      rcases Nat.lt_or_ge (h.machine.vacancy (h.machine.parent path).toNat) 3174 with room | full
      · obtain ⟨_,made⟩ := (runs_createFile_made type layout browsable parent new plain room (Nat.le_of_lt_succ enough)).result ran
        obtain ⟨role',free',housed',carries,backs⟩ := housed.made parent made
        exact ⟨role',free',settled.after carries backs housed'⟩
      · rcases housed.backed with synced | drained
        · exact ((runs_createFile_lost type layout browsable synced parent new full).result ran).elim
        · exact absurd drained.1 (by simp)

theorem Session.Settled.delete (settled : h.Settled role free) (careful : (StoreCall.delete path r).Careful h)
    (ran : deleteFile path h.machine = (.ok r,t)) : Session.Settled ⟨t,h.descs⟩ role free := by
  rcases (runs_deleteFile settled.housed.layout settled.housed.browsable).result ran with ⟨_,still,_⟩ | ⟨_,parent,found,_⟩
  · exact settled.still still
  · exact absurd (careful.resolve_left parent) found

theorem Session.Settled.opened {old : FileDesc} (settled : h.Settled role free) (d : Nat)
    (ran : openFile old path h.machine = (.ok (r,fd),t)) :
    Session.Settled ⟨t,if r = returnSuccess then Function.update h.descs d (some fd) else h.descs⟩ role free := by
  have layout := settled.housed.layout
  have browsable := settled.housed.browsable
  have opens : Returns (openFile old path) h.machine fun r t => Still h.machine t ∧
      (r.1 = returnSuccess → Handle t role free r.2 ∧ r.2.fdsDirty = false) := by
    unfold openFile
    rw [Returns,runs_bind]
    refine (runs_inumberOfPath layout browsable path).mono ?_ (fun _ _ => id)
    intro i u found
    obtain ⟨number,still⟩ := found
    split
    · have other : returnFailure ≠ returnSuccess := by decide
      exact ⟨still,fun wrong => absurd wrong other⟩
    rename_i some
    have node : role i.toNat = .inode := by
      rw [number] at some ⊢
      exact resolve_node browsable some
    refine (runs_openIfile (layout.same still.same) node).mono ?_ (fun _ _ => id)
    intro result v loaded
    obtain ⟨quiet,same⟩ := loaded
    subst same
    exact ⟨still.trans quiet.still,fun _ => ⟨⟨node,.inl (show (0 : Word).toNat < 63488 by decide),fun wrong => absurd wrong Bool.false_ne_true⟩,rfl⟩⟩
  obtain ⟨still,opened⟩ := opens.result ran
  have after := settled.still still
  split
  · rename_i success
    obtain ⟨handle,clean⟩ := opened success
    exact after.put handle fun _ => clean
  · exact after

-- What writing through a descriptor of a plain file leaves.
structure Worked (s t : Machine) (role role' : Nat → Role) (free free' : List Nat) (fd fd' : FileDesc) : Prop where
  housed : Housed t role' free'
  carries : Carries s t role role' free free'
  backs : Backs s t free free'
  handle : Handle t role' free' fd'
  inumber : fd'.fdsInumber = fd.fdsInumber

theorem Housed.worked {fd' : FileDesc} (housed : Housed s role free) (plain : ¬ s.IsDir fd.file)
    (fed : Fed s t role role' free free' fd fd') : Worked s t role role' free free' fd fd' :=
  ⟨housed.filed fed.filed plain fed.backs,fed.filed.toCarries,fed.backs,fed.handle,fed.inumber⟩

theorem Housed.writec (housed : Housed s role free) (handle : Handle s role free fd) (plain : ¬ s.IsDir fd.file) (c : Byte) :
    Runs (writecIfile fd c) s (fun r t => ∃ role' free', Worked s t role role' free free' fd r.2) (fun _ _ => True) := by
  refine (handle.writec housed.layout housed.backed c).mono ?_ (fun _ _ _ => trivial)
  intro r t wrote
  obtain ⟨role',free',written⟩ := wrote
  exact ⟨role',free',housed.worked plain written.fed⟩

theorem Housed.writeChars (text : List Byte) (housed : Housed s role free) (handle : Handle s role free fd) (plain : ¬ s.IsDir fd.file) :
    Runs (writeChars text fd) s (fun r t => ∃ role' free', Worked s t role role' free free' fd r.2) (fun _ _ => True) := by
  refine (handle.writeChars housed.layout housed.backed text).mono ?_ (fun _ _ => id)
  intro r t wrote
  obtain ⟨role',free',fed⟩ := wrote
  exact ⟨role',free',housed.worked plain fed⟩

theorem Housed.writeFile {n : Nat} (housed : Housed s role free) (handle : Handle s role free fd) (plain : ¬ s.IsDir fd.file)
    (buf : Vector Byte n) :
    Runs (writeFile fd buf) s (fun r t => ∃ role' free', Worked s t role role' free free' fd r.2) (fun _ _ => True) := by
  unfold AsePlusPlus.writeFile writeIfile
  rw [runs_bind]
  exact (housed.writeChars buf.toList handle plain).mono (fun _ _ => id) (fun _ _ => id)

theorem Session.Settled.worked {fd' : FileDesc} (settled : h.Settled role free) (handle : Handle h.machine role free fd)
    (plain : ¬ h.machine.IsDir fd.file) (worked : Worked h.machine t role role' free free' fd fd') :
    Session.Settled ⟨t,Function.update h.descs d (some fd')⟩ role' free' := by
  refine (settled.after worked.carries worked.backs worked.housed).put worked.handle fun wrong => ?_
  have file : fd'.file = fd.file := congrArg BitVec.toNat worked.inumber
  have wrong : t.IsDir fd'.file := wrong
  rw [file,worked.carries.isDir handle.node] at wrong
  exact absurd wrong plain

-- A file is closed, or a directory whose size is the one on disk.
theorem Session.Settled.closed {fd' : FileDesc} (settled : h.Settled role free) (used : h.descs d = some fd)
    (same : h.machine.IsDir fd.file → fd.fdsSize = h.machine.entryAt fd.file 1) (ran : closeFile fd h.machine = (.ok fd',t)) :
    Session.Settled ⟨t,Function.update h.descs d none⟩ role free := by
  obtain ⟨handle,clean⟩ := settled.handles d fd used
  have layout := settled.housed.layout
  have after : Session.Settled ⟨t,h.descs⟩ role free := by
    by_cases dir : h.machine.IsDir fd.file
    · have inside := (layout.bound handle.node (by simp)).2
      have quiet := Quiet.load h.machine fd.file
      have closes : Returns (closeFile fd) h.machine fun _ t => Still h.machine t := by
        unfold closeFile
        rw [Returns,runs_close_clean layout.mounted inside (clean dir)]
        exact quiet.still.trans ⟨resized_same _ (by rw [quiet.same.entryAt]; exact same dir),
          (resized_sound (layout.quiet quiet) handle.node _).confined⟩
      exact settled.still (closes.result ran)
    · obtain ⟨filed,_,backs,_⟩ := (handle.close layout).result ran
      exact settled.after filed.toCarries backs (settled.housed.filed filed dir backs)
  refine ⟨after.housed,fun e fd' open_ => ?_⟩
  by_cases here : e = d
  · subst here
    dsimp only at open_
    rw [Function.update_self] at open_
    cases open_
  · dsimp only at open_
    rw [Function.update_of_ne here] at open_
    exact after.handles e fd' open_

theorem StoreStep.settled (settled : h.Settled role free) (careful : c.Careful h) (taken : StoreStep h c h') :
    ∃ role' free', h'.Settled role' free' := by
  cases taken with
  | create _ ran => exact settled.create careful ran
  | delete _ ran => exact ⟨role,free,settled.delete careful ran⟩
  | @«open» _ _ _ d _ _ _ _ _ ran => exact ⟨role,free,settled.opened d ran⟩
  | writec used ran =>
      obtain ⟨handle,_⟩ := settled.handles _ _ used
      have plain := careful _ used
      obtain ⟨role',free',worked⟩ := (settled.housed.writec handle plain _).result ran
      exact ⟨role',free',settled.worked handle plain worked⟩
  | write used ran =>
      obtain ⟨handle,_⟩ := settled.handles _ _ used
      have plain := careful _ used
      obtain ⟨role',free',worked⟩ := (settled.housed.writeFile handle plain _).result ran
      exact ⟨role',free',settled.worked handle plain worked⟩
  | close used ran => exact ⟨role,free,settled.closed used (careful _ used) ran⟩

theorem Fresh.housed (fresh : Fresh s) : Housed s (freshRole s.nsec) (List.range' 2 (s.nsec-2)) := by
  have role : ∀ b, freshRole s.nsec b ≠ .free → b ≠ 1 → freshRole s.nsec b = .none := by
    intro b busy other
    unfold freshRole unusedRole at busy ⊢
    rw [Function.update_of_ne other] at busy ⊢
    split
    · rename_i unused
      exact absurd (if_pos unused) busy
    · rfl
  refine ⟨fresh.layout,fresh.browsable,.inl fresh.synced,?_,?_,?_⟩
  · intro b real busy leaf
    by_cases root : b = 1
    · exact absurd ((freshRole_node _ _).mpr root) leaf
    · exact absurd (role b busy root) real
  · intro b live inside none
    unfold freshRole unusedRole at none
    by_cases root : b = 1
    · rw [root,Function.update_self] at none
      cases none
    · rw [Function.update_of_ne root,if_pos ⟨by omega,inside⟩] at none
      cases none
  · intro i node
    rw [(freshRole_node _ _).mp node]
    have root : s.super.rootInumber.toNat = 1 := by
      rw [fresh.root]
      rfl
    rw [← root]
    exact .root

-- A run from a new volume that deletes nothing, cuts no creation short and leaves
-- the directories to their own functions loses no bloc.
theorem no_leak (fresh : Fresh s) (run : Run StoreStep ⟨s,fun _ => none⟩ past h) (met : Met (fun h c => StoreCall.Careful h c) past) :
    NoLeak h.machine ∧ ∀ entry ∈ past, NoLeak entry.1.machine := by
  have first : ∃ role free, Session.Settled ⟨s,fun _ => none⟩ role free :=
    ⟨_,_,fresh.housed,fun _ _ none => (nomatch none)⟩
  have keep : ∀ t c u, (∃ role free, Session.Settled t role free) → StoreCall.Careful t c → StoreStep t c u →
      ∃ role free, Session.Settled u role free := by
    intro t c u settled careful taken
    obtain ⟨role,free,settled⟩ := settled
    exact taken.settled settled careful
  obtain ⟨⟨_,_,settled⟩,passed⟩ := run.keeps (fun h c => StoreCall.Careful h c) keep first met
  refine ⟨settled.housed.covered,fun entry member => ?_⟩
  obtain ⟨_,_,before⟩ := passed entry member
  exact before.housed.covered

-- The first file of a volume of 64 sectors.
theorem no_leak_once : ∃ s t, initSuper 0 0 (zeros 8 32) (recordedDisk (volumeOf 64)) = (.ok (),s) ∧
    StoreStep ⟨s,fun _ => none⟩ (.create [slash,97] .file 2) ⟨t,fun _ => none⟩ ∧ NoLeak s ∧ NoLeak t := by
  have plain : (newcomer 2 (lastBasename [slash,97])).Plain := by
    unfold Entry.Plain
    decide
  obtain ⟨s,t,equal,fresh,size,head,parent,_,ran,_⟩ := first_create (show Absolute [slash,97] by decide) (by decide) [97] (by decide) plain
  have taken : StoreStep ⟨s,fun _ => none⟩ (.create [slash,97] .file 2) ⟨t,fun _ => none⟩ := .create (by decide) ran
  have count : s.super.nbBlocLibre.toNat = 62 := by
    rw [fresh.layout.chain.count,List.length_range',size]
  have one : (1 : Word).toNat = 1 := rfl
  have careful : StoreCall.Careful ⟨s,fun _ => none⟩ (.create [slash,97] .file 2) := by
    refine .inr (.inr ⟨?_,?_⟩)
    · dsimp only
      rw [head]
      exact plain
    · dsimp only
      rw [parent,one,fresh.vacancy,fresh.lacks,count]
      decide
  have met : Met (fun h c => StoreCall.Careful h c) ([] ++ [((⟨s,fun _ => none⟩ : Session),StoreCall.create [slash,97] .file 2)]) :=
    met_snoc.mpr ⟨met_nil,careful⟩
  obtain ⟨after,before⟩ := no_leak fresh (.single taken) met
  exact ⟨s,t,equal,taken,before _ (List.mem_singleton_self _),after⟩

-- Nothing that belongs to another file is an inode.
theorem Layout.belongs_node (layout : Layout s role free) (node : role i = .inode) (some : b ≠ 0) (node' : role b = .inode)
    (belongs : s.Belongs i b) : b = i := by
  have none : s.entryAt i 126 = 0 := (layout.blocks i).indirect node
  have live : ∀ {w : Word}, w.toNat ≠ 0 → w ≠ 0 := by
    intro w some null
    rw [null] at some
    exact some rfl
  have apart : ∀ {w : Word} {q : Role}, role w.toNat = q → q ≠ .inode → role w.toNat = .inode → False := by
    intro w q used other same
    exact other (used.symm.trans same)
  cases belongs with
  | inode => rfl
  | direct w low high =>
      have target : Role.inode.target i w = .data i (w-2) := by
        simp only [Role.target]
        rw [if_pos ⟨low,high⟩]
      have used := layout.points node w (by omega) (by rw [target]; simp) (live some)
      rw [target] at used
      exact (apart used (by simp) node').elim
  | indirect => exact absurd none (live some)
  | listed w above _ => exact absurd none above
  | double => exact (apart (layout.double_role node (live some)) (by simp) node').elim
  | table k above small =>
      have used := layout.points (layout.double_role node above) k small (by simp [Role.target]) (live some)
      exact (apart used (by simp [Role.target]) node').elim
  | leaf k w above small more bound =>
      have parent := layout.points (layout.double_role node above) k small (by simp [Role.target]) more
      have used := layout.points parent w bound (by simp [Role.target]) (live some)
      exact (apart used (by simp [Role.target]) node').elim

-- A deletion that succeeds leaves the inode behind, whatever was in it.
theorem Ordered.leaks (ordered : Ordered s role free) (ran : deleteFile path s = (.ok r,t)) (done : r ≠ returnFailure) : ¬ NoLeak t := by
  have tree := ordered.tree
  rcases (runs_deleteFile ordered.layout tree.toBrowsable).result ran with
    ⟨failed,_⟩ | ⟨_,parent,_,k,role',free',first,inside,edited,_⟩
  · exact absurd failed done
  intro none
  obtain ⟨node,dir,_⟩ := parent_dir tree.toBrowsable parent
  obtain ⟨live,_⟩ := first.here inside
  have was : Live s role (s.parent path).toNat k (s.slotAt (s.parent path).toNat k) := ⟨node,dir,inside,rfl,live⟩
  generalize s.slotAt (s.parent path).toNat k = x at was live
  have file : role x.entInumber.toNat = .inode := tree.nodes _ node dir x (mem_entries.mpr ⟨k,was.slot,was.entry⟩) was.live
  have kept := edited.node file
  have browsable := edited.browsable tree.toBrowsable fun real => absurd vacated_null real
  obtain ⟨real,bound⟩ := ordered.layout.bound file (by simp)
  -- nothing leads to it any more
  have lost : ∀ i, t.Reachable i → i ≠ x.entInumber.toNat := by
    intro i reachable same
    cases reachable with
    | root =>
        rw [edited.root] at same
        exact tree.rootless was (BitVec.eq_of_toNat_eq same).symm
    | entry above type entry =>
        obtain ⟨j,small,equal,some⟩ := mem_liveEntries.mp entry
        obtain ⟨old,away⟩ := (edited.live_less node dir vacated_null).mp ⟨browsable.reachable above,type,small,equal,some⟩
        exact away (tree.single old was (BitVec.eq_of_toNat_eq same))
  rcases none x.entInumber.toNat (by omega) (by rw [edited.within.nsec]; exact bound) with ⟨chain,whole,member⟩ | ⟨i,reachable,belongs⟩
  · rw [linked_unique whole.linked edited.layout.chain.linked] at member
    have unused := (edited.layout.vacant _).mpr member
    rw [kept] at unused
    cases unused
  · exact lost i reachable (edited.layout.belongs_node (browsable.reachable reachable) real kept belongs).symm

-- The first file is deleted, and its inode is gone.
theorem deletion_leaks : ∃ s t u r, initSuper 0 0 (zeros 8 32) (recordedDisk (volumeOf 64)) = (.ok (),s) ∧
    Run StoreStep ⟨s,fun _ => none⟩ [(⟨s,fun _ => none⟩,.create [slash,97] .file 2),(⟨t,fun _ => none⟩,.delete [slash,97] r)]
      ⟨u,fun _ => none⟩ ∧ r ≠ returnFailure ∧ ¬ NoLeak u := by
  obtain ⟨s,t,u,r,_,_,_,_,equal,_,ran,_,after,_,_,_,_,gone,done,_⟩ := first_delete
  have first : StoreStep ⟨s,fun _ => none⟩ (.create [slash,97] .file 2) ⟨t,fun _ => none⟩ := .create (by decide) ran
  have second : StoreStep ⟨t,fun _ => none⟩ (.delete [slash,97] r) ⟨u,fun _ => none⟩ := .delete (by decide) gone
  exact ⟨s,t,u,r,equal,(Run.single first).next second,done,after.leaks gone done⟩

end AsePlusPlus
