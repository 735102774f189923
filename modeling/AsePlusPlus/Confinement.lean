import AsePlusPlus.Builtins
import AsePlusPlus.Shelves

namespace AsePlusPlus
open Words Program Trace

variable {role role' : Nat → Role} {free free' : List Nat} {extent extent' : Nat → Nat} {s t u : Machine} {h k : Desk}
variable {c : FileCall} {v : Var} {fd : FileDesc} {inumber r : Word} {descs : Var → Option FileDesc} {w : Work}

-- Since `s` nothing outside the volume has been written: each call of write_bloc
-- and write_nbloc named one of its blocs, bloc 0 only from save_super, and bloc 0
-- reads as the superbloc in memory.
structure Guarded (s t : Machine) : Prop where
  mbr : t.mbr = s.mbr
  volume : t.currentVolume = s.currentVolume
  journal : ∃ calls, t.journal = calls ++ s.journal ∧ ∀ call ∈ calls, call.Proper s.currentVolume s.nsec
  outside : ∀ p, p < s.start ∨ s.start+s.nsec ≤ p → t.hda.sectors p = s.hda.sectors p
  super : Super.decode (t.blk 0) = t.super

-- A descriptor in a variable, of a file that exists.
def Desk.Opened (h : Desk) (v : Var) (fd : FileDesc) : Prop := h.descs v = some fd ∧ fd.fdsInumber ≠ returnFailure

-- A creation has its blocs and an entry that reads as it is written; a variable is
-- open before it is used; a byte goes to a plain file and has its bloc, also where
-- reading moves a dirty buffer on.
def FileCall.Fits (h : Desk) : FileCall → Prop
  | .createFile path _ => Rejected path h.machine ∨ h.machine.super.nbBlocLibre = 0 ∨
      3174 ≤ h.machine.vacancy (h.machine.parent path).toNat ∨
      ((newcomer h.machine.super.premierLibre (lastBasename path)).Plain ∧
        h.machine.lacks (h.machine.parent path).toNat (h.machine.vacancy (h.machine.parent path).toNat) <
          h.machine.super.nbBlocLibre.toNat)
  | .readc v => ∃ fd, h.Opened v fd ∧ (fd.fdsDirty = true → fd.fdsPos.toNat%512 = 511 → fd.fdsPos.toNat ≤ fd.fdsSize.toNat →
      fd.block < 123 ∧ (h.machine.lookup fd.file (fd.block+1) ≠ 0 ∨ h.machine.super.nbBlocLibre ≠ 0))
  | .writec v _ => ∃ fd, h.Opened v fd ∧ ¬ h.machine.IsDir fd.file ∧ fd.price h.machine ≤ h.machine.super.nbBlocLibre.toNat
  | .close v => ∃ fd, h.Opened v fd
  | .deleteFile _ | .inumberOfPath _ | .openFile _ _ | .openIfile _ _ | .eof _ | .readInode _ | .chdir _ => True

-- The texts of an order fit their buffers, and each call meets its condition.
def DeskAct.Fits (h : Desk) : DeskAct → Prop
  | .order _ o => o.start h.machine ≠ none
  | .call p => ∀ c, (h.work p).call p = some c → c.Fits h

-- The invariant: the volume is shelved, each descriptor of a file is held, and
-- what is about to be opened by its number is a file or the failure code.
structure Manned (h : Desk) (role : Nat → Role) (free : List Nat) (extent : Nat → Nat) : Prop where
  shelved : Shelved h.machine role free extent
  held : ∀ v fd, h.Opened v fd → Held h.machine role free extent fd
  opens : ∀ p v i, (h.work p).call p = some (.openIfile v i) → i = returnFailure ∨ role i.toNat = .inode

-- A call has come back: the volume is shelved again, the descriptors are held, and
-- a new inumber leads to a file, like those that there were.
structure Answered (s : Machine) (role : Nat → Role) (c : FileCall) (r : Word × (Var → Option FileDesc)) (t : Machine)
    (role' : Nat → Role) (free : List Nat) (extent : Nat → Nat) : Prop where
  guarded : Guarded s t
  shelved : Shelved t role' free extent
  held : ∀ v fd, r.2 v = some fd → fd.fdsInumber ≠ returnFailure → Held t role' free extent fd
  made : ∀ path type, c = .createFile path type → r.1 = returnFailure ∨ role' r.1.toNat = .inode
  kept : ∀ {i : Nat}, role i = .inode → role' i = .inode

-- Programs that only read, whatever number they are given.
abbrev Reads (p : M α) : Prop := Spends (fun _ => Quiet) 0 p

theorem quiet_graded : Graded (fun _ => Quiet) := ⟨Quiet.refl,fun one two => one.trans two,fun _ => id⟩

theorem reads_bind {p : M α} {f : α → M β} (first : Reads p) (next : ∀ a, Reads (f a)) : Reads (p >>= f) :=
  quiet_graded.bind first next

theorem reads_readSector (cylinder sector : Word) : Reads (readSector cylinder sector) := by
  refine reads_bind (quiet_graded.ensure _ _) fun _ => reads_bind ?_ fun _ => reads_bind ?_ fun _ =>
    reads_bind quiet_graded.get fun _ => quiet_graded.pure _
  · exact reads_bind (quiet_graded.ensure _ _) fun _ s => ⟨_,_,rfl⟩
  · exact fun s => ⟨_,_,rfl⟩

theorem reads_current : Reads current := reads_bind quiet_graded.get fun _ => quiet_graded.pure _

theorem reads_readBloc (vol nbloc : Word) : Reads (readBloc vol nbloc) := by
  refine reads_bind ?_ fun _ => reads_bind ?_ fun _ => reads_readSector _ _
  · exact reads_bind quiet_graded.get fun _ => reads_bind (quiet_graded.ensure _ _) fun _ =>
      reads_bind (quiet_graded.ensure _ _) fun _ => quiet_graded.pure _
  · exact reads_bind quiet_graded.get fun _ => reads_bind (quiet_graded.ensure _ _) fun _ =>
      reads_bind (quiet_graded.ensure _ _) fun _ => quiet_graded.pure _

theorem reads_readInode (inumber : Word) : Reads (readInode inumber) :=
  reads_bind reads_current fun _ => reads_bind (reads_readBloc _ _) fun _ => quiet_graded.pure _

theorem reads_loadBuffer (bloc : Word) : Reads (loadBuffer bloc) :=
  spends_ite (quiet_graded.pure _) (reads_bind reads_current fun _ => reads_readBloc _ _)

-- The first bloc of any number is looked up in what is taken for its inode.
theorem reads_firstBloc (inumber : Word) : Reads (vblocOfFbloc inumber 0 false) := by
  refine reads_bind (reads_readInode inumber) fun inode => ?_
  rw [if_pos (by decide)]
  unfold directBloc
  dsimp only
  split
  · exact quiet_graded.pure _
  · rename_i other
    have live : cell inode.blocsDirects (0 : Word).toNat ≠ 0 := fun null => other ⟨null,rfl⟩
    unfold blocOrAllocate
    rw [if_neg live]
    exact quiet_graded.pure _

theorem runs_openIfile_any (inumber : Word) (s : Machine) :
    Runs (openIfile inumber) s (fun r t => r.2.fdsInumber = inumber ∧ Quiet s t) (fun _ t => Quiet s t) := by
  unfold openIfile
  rw [runs_bind]
  refine ((reads_readInode inumber).runs s).mono ?_ (fun _ _ => id)
  intro inode t first
  rw [runs_bind]
  refine ((reads_firstBloc inumber).runs t).mono ?_ (fun _ _ second => Quiet.trans first second)
  intro bloc u second
  rw [runs_bind]
  refine ((reads_loadBuffer bloc).runs u).mono ?_ (fun _ _ third => (Quiet.trans first second).trans third)
  intro buf v third
  exact ⟨rfl,(Quiet.trans first second).trans third⟩

theorem Guarded.refl (synced : Synced s) : Guarded s s := ⟨rfl,rfl,⟨[],rfl,fun _ none => absurd none List.not_mem_nil⟩,fun _ _ => rfl,synced⟩

theorem Guarded.sound (guarded : Guarded s t) (sound : Sound t u) : Guarded s u := by
  obtain ⟨early,first,proper⟩ := guarded.journal
  have within := sound.confined.toWithin
  obtain ⟨late,second,proper'⟩ := sound.confined.journal
  have vol : t.vol = s.vol := by
    unfold Machine.vol
    rw [guarded.mbr,guarded.volume]
  have nsec : t.nsec = s.nsec := by
    unfold Machine.nsec
    rw [vol]
  have start : t.start = s.start := by
    unfold Machine.start
    rw [vol]
  refine ⟨within.mbr.trans guarded.mbr,within.volume.trans guarded.volume,⟨late ++ early,?_,?_⟩,?_,sound.synced guarded.super⟩
  · rw [second,first,List.append_assoc]
  · intro call member
    rcases List.mem_append.mp member with new | old
    · have kept := proper' call new
      rwa [guarded.volume,nsec] at kept
    · exact proper call old
  · intro p away
    rw [within.outside p (by rw [start,nsec]; exact away),guarded.outside p away]

theorem Manned.again (manned : Manned h role free extent) (again : Reshelved h.machine t role role' free free' extent extent') :
    ∀ v fd, h.descs v = some fd → fd.fdsInumber ≠ returnFailure → Held t role' free' extent' fd :=
  fun v fd used real => (manned.held v fd ⟨used,real⟩).after manned.shelved again

-- One variable holds another descriptor.
theorem held_update (others : ∀ v fd, descs v = some fd → fd.fdsInumber ≠ returnFailure → Held t role free extent fd)
    (mine : fd.fdsInumber ≠ returnFailure → Held t role free extent fd) (v : Var) :
    ∀ w fd', Function.update descs v (some fd) w = some fd' → fd'.fdsInumber ≠ returnFailure → Held t role free extent fd' := by
  intro w fd' used real
  by_cases same : w = v
  · subst same
    rw [Function.update_self] at used
    cases used
    exact mine real
  · rw [Function.update_of_ne same] at used
    exact others w fd' used real

theorem Desk.Opened.var (opened : h.Opened v fd) : h.var v = fd := by
  unfold Desk.var
  rw [opened.1]
  rfl

-- What a call does that comes back with the same descriptors.
theorem Manned.same (manned : Manned h role free extent) (guarded : Guarded s h.machine)
    (again : Reshelved h.machine t role role' free free' extent extent')
    (made : ∀ path type, c = .createFile path type → r = returnFailure ∨ role' r.toNat = .inode) :
    Answered s role c (r,h.descs) t role' free' extent' :=
  ⟨guarded.sound again.sound,again.shelved,manned.again again,made,again.carries.node⟩

-- And with one more.
theorem Manned.more (manned : Manned h role free extent) (guarded : Guarded s h.machine) (v : Var)
    (again : Rehandled h.machine t role role' free free' extent extent' fd) (other : ∀ path type, c ≠ .createFile path type) :
    Answered s role c (r,Function.update h.descs v (some fd)) t role' free' extent' :=
  ⟨guarded.sound again.sound,again.shelved,held_update (manned.again again.toReshelved) (fun _ => again.held) v,
    fun path type wrong => absurd wrong (other path type),again.carries.node⟩

-- Nothing on the disk depends on the current directory.
theorem Layout.chdir (layout : Layout s role free) (target : List Byte) : Layout {s with cwd := target} role free := by
  obtain ⟨m,⟨linked,magic,inside,count⟩,frees,bounds,blocks⟩ := layout
  exact ⟨⟨m.1,m.2,m.3,m.4,m.5⟩,⟨linked,magic,inside,count⟩,frees,bounds,blocks⟩

theorem Shelved.chdir (shelved : Shelved s role free extent) (target : List Byte) : Shelved {s with cwd := target} role free extent := by
  obtain ⟨⟨root,none,size,slots,paged⟩,layout,synced⟩ := shelved
  refine ⟨⟨root,none,size,slots,fun d node dir => ?_⟩,layout.chdir target,synced⟩
  obtain ⟨slotted,mapped,nodes⟩ := paged d node dir
  exact ⟨slotted,mapped,nodes⟩

theorem Held.chdir (held : Held s role free extent fd) (target : List Byte) : Held {s with cwd := target} role free extent fd := by
  obtain ⟨⟨node,near,dirty⟩,entries⟩ := held
  exact ⟨⟨node,near,dirty⟩,entries⟩

theorem Guarded.chdir (guarded : Guarded s t) (target : List Byte) : Guarded s {t with cwd := target} := by
  obtain ⟨mbr,volume,journal,outside,super⟩ := guarded
  exact ⟨mbr,volume,journal,outside,super⟩

theorem FileCall.answers (manned : Manned h role free extent) (guarded : Guarded s h.machine) (fits : c.Fits h)
    (opens : ∀ v i, c = .openIfile v i → i = returnFailure ∨ role i.toNat = .inode) :
    Runs (c.run h) h.machine (fun r t => ∃ role' free' extent', Answered s role c r t role' free' extent') (fun _ t => Guarded s t) := by
  have shelved := manned.shelved
  cases c with
  | createFile path type =>
      unfold FileCall.run
      rw [runs_bind]
      refine (shelved.createFile type fits).mono ?_ (fun _ _ sound => guarded.sound sound)
      intro r t done
      obtain ⟨role',free',extent',again,result⟩ := done
      exact ⟨role',free',extent',manned.same guarded again fun _ _ _ => result⟩
  | deleteFile path =>
      unfold FileCall.run
      rw [runs_bind]
      refine Runs.of_returns shelved.deleteFile ?_
      intro r t done
      obtain ⟨role',free',extent',again⟩ := done
      exact ⟨role',free',extent',manned.same guarded again fun _ _ wrong => (nomatch wrong)⟩
  | inumberOfPath path =>
      unfold FileCall.run
      rw [runs_bind]
      refine Runs.of_returns (runs_inumberOfPath shelved.layout shelved.browsable path) ?_
      intro r t found
      exact ⟨role,free,extent,manned.same guarded (shelved.still found.2) fun _ _ wrong => (nomatch wrong)⟩
  | openFile v path =>
      unfold FileCall.run AsePlusPlus.openFile
      rw [runs_bind,runs_bind]
      refine Runs.of_returns (runs_inumberOfPath shelved.layout shelved.browsable path) ?_
      intro i t found
      obtain ⟨number,still⟩ := found
      have again := shelved.still still
      split
      · rw [runs_pure,runs_pure,if_neg (by decide)]
        exact ⟨role,free,extent,manned.same guarded again fun _ _ wrong => (nomatch wrong)⟩
      rename_i some
      have node : role i.toNat = .inode := by
        rw [number] at some ⊢
        exact resolve_node shelved.browsable some
      refine Runs.of_returns (again.shelved.open node) ?_
      intro result u opened
      obtain ⟨done,_,onward⟩ := opened
      rw [runs_pure,if_pos done]
      have both : Rehandled h.machine u role role free free extent extent result.2 := ⟨again.trans onward.toReshelved,onward.held⟩
      exact ⟨role,free,extent,manned.more guarded v both fun _ _ wrong => (nomatch wrong)⟩
  | openIfile v inumber =>
      unfold FileCall.run
      rw [runs_bind]
      rcases opens v inumber rfl with failed | node
      · refine (runs_openIfile_any inumber h.machine).mono ?_ (fun _ _ quiet => guarded.sound (Quiet.sound quiet))
        intro result t opened
        obtain ⟨number,quiet⟩ := opened
        have again := shelved.still (Quiet.still quiet)
        refine ⟨role,free,extent,guarded.sound again.sound,again.shelved,held_update (manned.again again) (fun real => ?_) v,
          fun _ _ wrong => (nomatch wrong),id⟩
        exact absurd (number.trans failed) real
      · refine Runs.of_returns (shelved.open node) ?_
        intro result t opened
        exact ⟨role,free,extent,manned.more guarded v opened.2.2 fun _ _ wrong => (nomatch wrong)⟩
  | eof v =>
      unfold FileCall.run
      rw [runs_pure]
      exact ⟨role,free,extent,manned.same guarded (shelved.still (.refl _)) fun _ _ wrong => (nomatch wrong)⟩
  | readc v =>
      obtain ⟨fd,opened,fits⟩ := fits
      unfold FileCall.run readcFile
      rw [runs_bind,opened.var]
      refine ((manned.held v fd opened).readc shelved fits).mono ?_ (fun _ _ sound => guarded.sound sound)
      intro result t read
      obtain ⟨role',free',again,_⟩ := read
      exact ⟨role',free',extent,manned.more guarded v again fun _ _ wrong => (nomatch wrong)⟩
  | writec v c =>
      obtain ⟨fd,opened,plain,enough⟩ := fits
      unfold FileCall.run writecFile
      rw [runs_bind,opened.var]
      refine ((manned.held v fd opened).writec shelved plain enough c).mono ?_ (fun _ _ sound => guarded.sound sound)
      intro result t wrote
      obtain ⟨role',free',again,_⟩ := wrote
      exact ⟨role',free',extent,manned.more guarded v again fun _ _ wrong => (nomatch wrong)⟩
  | close v =>
      obtain ⟨fd,opened⟩ := fits
      unfold FileCall.run closeFile
      rw [runs_bind,opened.var]
      refine Runs.of_returns ((manned.held v fd opened).close shelved) ?_
      intro fd' t closed
      exact ⟨role,free,extent,manned.more guarded v closed.1 fun _ _ wrong => (nomatch wrong)⟩
  | readInode inumber =>
      unfold FileCall.run
      rw [runs_bind]
      refine ((reads_readInode inumber).runs h.machine).mono ?_ (fun _ _ quiet => guarded.sound (Quiet.sound quiet))
      intro inode t quiet
      exact ⟨role,free,extent,manned.same guarded (shelved.still (Quiet.still quiet)) fun _ _ wrong => (nomatch wrong)⟩
  | chdir target =>
      unfold FileCall.run
      rw [runs_bind,runs_modify,runs_pure]
      exact ⟨role,free,extent,guarded.chdir target,shelved.chdir target,fun v fd used real =>
        (manned.held v fd ⟨used,real⟩).chdir target,fun _ _ wrong => (nomatch wrong),id⟩

-- Only what create_file has returned is opened by its number.
theorem Work.after_opens (p : Nat) (r : Word) (w : Work) (next : (w.after p r).call p = some (.openIfile v inumber)) :
    inumber = r ∧ ∃ path, w.call p = some (.createFile path .file) := by
  cases w with
  | ed target text =>
      simp only [Work.after] at next
      split at next
      · cases next
      · cases next
        exact ⟨rfl,target,rfl⟩
  | compute target max =>
      cases next
      exact ⟨rfl,target,rfl⟩
  | cp source dest =>
      simp only [Work.after] at next
      split at next
      · cases next
      · cases next
        exact ⟨rfl,dest,rfl⟩
  | edOpen number text =>
      simp only [Work.after] at next
      split at next
      · cases next
      · cases text <;> cases next
  | edWrite text =>
      cases text with
      | nil => cases next
      | cons c rest => cases rest <;> cases next
  | writes v c rest =>
      cases rest with
      | nil => cases next
      | cons c rest =>
          simp only [Work.after] at next
          split at next <;> cases next
  | _ =>
      simp only [Work.after,readsOf] at next
      grind [Work.call]

-- No order opens a file by a number.
theorem Order.start_opens {o : Order} {p : Nat} (begun : o.start s = some w) : w.call p ≠ some (.openIfile v inumber) := by
  intro wrong
  cases o with
  | writeFile d text => cases text <;> cases begun <;> cases wrong
  | compute max path =>
      cases path with
      | none => cases begun; cases wrong
      | some path =>
          obtain ⟨target,_,same⟩ := Option.map_eq_some_iff.mp begun
          subst same
          cases wrong
  | cp words =>
      have copies : ∀ source dest, cpWork s source dest = some w → False := by
        intro source dest begun
        obtain ⟨_,_,rest⟩ := Option.bind_eq_some_iff.mp begun
        obtain ⟨_,_,last⟩ := Option.bind_eq_some_iff.mp rest
        cases last
        cases wrong
      cases words with
      | nil => cases begun; cases wrong
      | cons source rest => cases rest <;> exact copies _ _ begun
  | cd arguments =>
      obtain ⟨target,_,rest⟩ := Option.bind_eq_some_iff.mp begun
      obtain ⟨_,_,same⟩ := Option.map_eq_some_iff.mp rest
      subst same
      cases wrong
  | cat arguments | ed arguments text | ls arguments | mkdir arguments | rm arguments =>
      obtain ⟨target,_,same⟩ := Option.map_eq_some_iff.mp begun
      subst same
      cases wrong
  | _ =>
      cases begun
      cases wrong

-- What a run keeps: the disk is guarded, and unless the program has stopped the
-- volume is shelved.
def Upheld (s : Machine) (h : Desk) : Prop :=
  Guarded s h.machine ∧ ((∀ p, h.work p = .stuck) ∨ ∃ role free extent, Manned h role free extent)

theorem Upheld.manned (kept : Upheld s h) (p : Nat) (running : h.work p ≠ .stuck) : ∃ role free extent, Manned h role free extent :=
  kept.2.resolve_left fun stuck => running (stuck p)

theorem Upheld.calling {p : Nat} (kept : Upheld s h) (next : (h.work p).call p = some c) : ∃ role free extent, Manned h role free extent := by
  refine kept.manned p fun stuck => ?_
  rw [stuck] at next
  cases next

theorem DeskStep.keeps {d : DeskAct} (kept : Upheld s h) (fits : d.Fits h) (taken : DeskStep h d k) : Upheld s k := by
  have guarded := kept.1
  cases taken with
  | @order p _ _ idle begun =>
      obtain ⟨role,free,extent,manned⟩ := kept.manned p (by rw [idle]; simp)
      refine ⟨guarded,.inr ⟨role,free,extent,manned.shelved,fun v fd opened => ?_,fun q v i next => ?_⟩⟩
      · obtain ⟨used,real⟩ := opened
        dsimp only [Desk.cleared] at used
        split at used
        · cases used
        · exact manned.held v fd ⟨used,real⟩
      · by_cases here : q = p
        · subst here
          dsimp only at next
          rw [Function.update_self] at next
          exact absurd next (Order.start_opens begun)
        · dsimp only at next
          rw [Function.update_of_ne here] at next
          exact manned.opens q v i next
  | overruns _ long => exact absurd long fits
  | @returns p c _ _ _ next ran =>
      obtain ⟨role,free,extent,manned⟩ := kept.calling next
      obtain ⟨role',free',extent',answered⟩ := (FileCall.answers manned guarded (fits _ next) fun v i same =>
        manned.opens p v i (same ▸ next)).result ran
      refine ⟨answered.guarded,.inr ⟨role',free',extent',answered.shelved,fun v fd opened => answered.held v fd opened.1 opened.2,
        fun q v i later => ?_⟩⟩
      dsimp only at later
      by_cases here : q = p
      · subst here
        rw [Function.update_self] at later
        obtain ⟨number,path,created⟩ := Work.after_opens _ _ _ later
        rw [next] at created
        rw [number]
        exact answered.made path .file (Option.some.inj created)
      · rw [Function.update_of_ne here] at later
        exact (manned.opens q v i later).imp id answered.kept
  | @stops p _ _ _ next ran =>
      obtain ⟨role,free,extent,manned⟩ := kept.calling next
      have stopped := FileCall.answers manned guarded (fits _ next) fun v i same => manned.opens p v i (same ▸ next)
      exact ⟨(runs_error ran).mp stopped,.inl fun _ => rfl⟩

def bootDesk (s : Machine) : Desk := ⟨s,fun _ => none,fun _ => .idle⟩

theorem Fresh.kept (fresh : Fresh s) : Upheld s (bootDesk s) := by
  have slots := fresh.slots
  refine ⟨.refl fresh.synced,.inr ⟨_,_,fun _ => 0,⟨⟨fresh.browsable.root,fun _ _ => rfl,?_,?_,fun d _ _ => .empty _ _ d⟩,fresh.layout,
    fresh.synced⟩,fun v fd opened => (nomatch opened.1),fun p v i next => (nomatch next)⟩⟩
  · intro d node dir
    exact (fresh.browsable.dirs d node dir).size
  · intro d node _
    rw [(freshRole_node _ _).mp node,show (bootDesk s).machine.slots 1 = 0 from slots]

-- A run of the commands from a new volume writes nothing outside it, as long as
-- each call meets its condition.
theorem writes_confined {past : List (Desk × DeskAct)} (fresh : Fresh s) (run : Run DeskStep (bootDesk s) past h)
    (met : Met (fun h d => DeskAct.Fits h d) past) : Guarded s h.machine ∧ ∀ entry ∈ past, Guarded s entry.1.machine := by
  obtain ⟨last,passed⟩ := run.keeps (fun h d => DeskAct.Fits h d) (fun _ _ _ kept fits taken => DeskStep.keeps kept fits taken) fresh.kept met
  exact ⟨last.1,fun entry member => (passed entry member).1⟩

-- A single process.
def soleDesk (s : Machine) (descs : Var → Option FileDesc) (w : Work) : Desk := ⟨s,descs,Function.update (fun _ => .idle) 0 w⟩

theorem DeskStep.first {o : Order} (begun : o.start s = some w) :
    DeskStep (bootDesk s) (.order 0 o) (soleDesk s (fun _ => none) w) := by
  have step := DeskStep.order (h := bootDesk s) (p := 0) rfl begun
  have cleared : (bootDesk s).cleared 0 = fun _ => none := funext fun _ => ite_self none
  rw [cleared] at step
  exact step

theorem DeskStep.next {descs' : Var → Option FileDesc} (next : w.call 0 = some c)
    (ran : c.run (soleDesk s descs w) s = (.ok (r,descs'),t)) :
    DeskStep (soleDesk s descs w) (.call 0) (soleDesk t descs' (w.after 0 r)) := by
  have here : (soleDesk s descs w).work 0 = w := by simp [soleDesk]
  have step := DeskStep.returns (h := soleDesk s descs w) (p := 0) (by rw [here]; exact next) ran
  rw [here] at step
  dsimp only [soleDesk] at step ⊢
  rw [Function.update_idem] at step
  exact step

-- The first file of a volume of 64 sectors.
theorem writes_confined_once : ∃ s t, initSuper 0 0 (zeros 8 32) (recordedDisk (volumeOf 64)) = (.ok (),s) ∧
    DeskStep (soleDesk s (fun _ => none) (.once (.createFile [slash,97] .file))) (.call 0) (soleDesk t (fun _ => none) .idle) ∧
    Guarded s t := by
  have plain : (newcomer 2 (lastBasename [slash,97])).Plain := by
    unfold Entry.Plain
    decide
  obtain ⟨s,t,equal,fresh,size,head,parent,_,ran,_⟩ := first_create (show Absolute [slash,97] by decide) (by decide) [97] (by decide) plain
  have first : DeskStep (bootDesk s) (.order 0 (.createFile [slash,97] .file)) _ := .first rfl
  have made : (FileCall.createFile [slash,97] .file).run (soleDesk s (fun _ => none) (.once (.createFile [slash,97] .file))) s =
      (.ok (2,fun _ => none),t) := by
    refine Runs.equal fun Q => ?_
    unfold FileCall.run
    rw [Returns,runs_bind,runs_eq ran,runs_pure]
    rfl
  have second : DeskStep (soleDesk s (fun _ => none) (.once (.createFile [slash,97] .file))) (.call 0) (soleDesk t (fun _ => none) .idle) :=
    .next rfl made
  have count : s.super.nbBlocLibre.toNat = 62 := by
    rw [fresh.layout.chain.count,List.length_range',size]
  have one : (1 : Word).toNat = 1 := rfl
  have fits : DeskAct.Fits (soleDesk s (fun _ => none) (.once (.createFile [slash,97] .file))) (.call 0) := by
    intro c next
    cases next
    refine .inr (.inr (.inr ?_))
    show (newcomer s.super.premierLibre (lastBasename [slash,97])).Plain ∧
      s.lacks (s.parent [slash,97]).toNat (s.vacancy (s.parent [slash,97]).toNat) < s.super.nbBlocLibre.toNat
    rw [head,parent,one,fresh.vacancy,fresh.lacks,count]
    exact ⟨plain,by decide⟩
  have room : DeskAct.Fits (bootDesk s) (.order 0 (.createFile [slash,97] .file)) := Option.some_ne_none _
  have run := (Run.single first).next second
  exact ⟨s,t,equal,second,(writes_confined fresh run (met_snoc.mpr ⟨met_snoc.mpr ⟨met_nil,room⟩,fits⟩)).1⟩

-- A path that leads nowhere is listed: do_ls closes a descriptor that open_file has
-- left as it was, and its inode is bloc 0 here.
theorem listing_unconfined : ∃ s past h, initSuper 0 0 (zeros 8 32) (recordedDisk (volumeOf 64)) = (.ok (),s) ∧
    Run DeskStep (bootDesk s) past h ∧ past.map Prod.snd = [.order 0 (.ls [slash,120]),.call 0,.call 0,.call 0] ∧
    ¬ Guarded s h.machine := by
  obtain ⟨s,equal,fresh,size⟩ := volumeOf_fresh (n := 64) (by decide) (by decide) 0 (zeros 8 32)
  have frame := volumeOf_frame (n := 64) (by decide) (by decide) equal
  have absolute : Absolute [slash,120] := by decide
  have canonical : canonicalPath s.cwd [slash,120] = some [slash,120] := by
    have same : canonicalPath s.cwd [slash,120] = canonicalPath [] [slash,120] := rfl
    rw [same]
    decide
  have absent : s.resolve [slash,120] = 0 := by
    unfold Machine.resolve
    rw [if_pos absolute,show components [slash,120] = [[120]] by decide,Machine.walk,fresh.root,fresh.step,if_pos rfl]
  have begun : (Order.ls [slash,120]).start s = some (.ls [slash,120] s.frame.entry) := by
    show (canonicalPath s.cwd [slash,120]).map (Work.ls · s.frame.entry) = _
    rw [canonical]
    rfl
  have opens : Returns ((FileCall.openFile (.fd 0) [slash,120]).run (soleDesk s (fun _ => none) (.ls [slash,120] s.frame.entry))) s
      fun r t => r = (returnFailure,fun _ => none) ∧ Still s t := by
    unfold FileCall.run AsePlusPlus.openFile
    rw [Returns,runs_bind,runs_bind]
    refine (runs_inumberOfPath fresh.layout fresh.browsable _).mono ?_ (fun _ _ => id)
    intro i t found
    obtain ⟨number,still⟩ := found
    rw [number,if_pos absent,runs_pure,runs_pure,if_neg (by decide)]
    exact ⟨rfl,still⟩
  obtain ⟨r,t,opened,post⟩ := returns_iff.mp opens
  obtain ⟨failed,still⟩ := post
  subst failed
  have first : DeskStep (soleDesk s (fun _ => none) (.ls [slash,120] s.frame.entry)) (.call 0)
      (soleDesk t (fun _ => none) (.lsEntry 16 s.frame.entry)) := .next rfl opened
  -- the descriptor that nothing has been stored in
  have held : ∀ w, Desk.var (soleDesk t (fun _ => none) w) (.fd 0) = ⟨0,0,0,zeros 8 512,false⟩ := by
    intro w
    show t.frame.desc = _
    rw [still.same.frame,frame]
    rfl
  have ended : (FileCall.eof (.fd 0)).run (soleDesk t (fun _ => none) (.lsEntry 16 s.frame.entry)) t = (.ok (readEof,fun _ => none),t) := by
    unfold FileCall.run
    dsimp only
    rw [held]
    rfl
  have second : DeskStep (soleDesk t (fun _ => none) (.lsEntry 16 s.frame.entry)) (.call 0)
      (soleDesk t (fun _ => none) (.once (.close (.fd 0)))) := .next rfl ended
  have layout := fresh.layout.same still.same
  have inside : FileDesc.file ⟨0,0,0,zeros 8 512,false⟩ < t.nsec := by
    rw [still.same.nsec,size]
    decide
  have closes : Returns ((FileCall.close (.fd 0)).run (soleDesk t (fun _ => none) (.once (.close (.fd 0))))) t
      fun _ u => u = (t.load 0).resized 0 0 := by
    unfold FileCall.run closeFile
    dsimp only
    rw [held,Returns,runs_bind,runs_close_clean layout.mounted inside rfl]
    rfl
  obtain ⟨r,u,closed,last⟩ := returns_iff.mp closes
  have third : DeskStep (soleDesk t (fun _ => none) (.once (.close (.fd 0)))) (.call 0) (soleDesk u r.2 .idle) := .next rfl closed
  refine ⟨s,_,_,equal,(((Run.single (.first begun)).next first).next second).next third,rfl,fun guarded => ?_⟩
  obtain ⟨calls,journal,proper⟩ := guarded.journal
  obtain ⟨before,quiet,_⟩ := still.confined.journal
  have whole : calls ++ s.journal = (WriteCall.bloc t.currentVolume 0 :: before) ++ s.journal := by
    rw [← journal,List.cons_append,← quiet]
    show u.journal = _
    rw [last]
    rfl
  rw [List.append_cancel_right whole] at proper
  obtain ⟨_,live,_⟩ := proper _ (List.mem_cons_self ..)
  exact live rfl

end AsePlusPlus
