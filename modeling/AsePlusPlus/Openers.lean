import AsePlusPlus.Lib.Trace
import AsePlusPlus.Fixed
import AsePlusPlus.Formatting
import AsePlusPlus.Writing

namespace AsePlusPlus
open Words Program Trace

-- A descriptor, with the size that was on disk when it was opened and whether a
-- byte was written through it.
structure Opener where
  fd : FileDesc
  size : Word
  written : Bool

structure Sharing where
  machine : Machine
  openers : Nat → Option Opener

inductive ShareCall where
  | open (d : Nat)
  | readc (d : Nat)
  | writec (d : Nat) (c : Byte)
  | seek (d : Nat) (offset : Word)
  | close (d : Nat)

-- Any order of calls on any number of descriptors of one inode.
inductive ShareStep (inumber : Word) : Sharing → ShareCall → Sharing → Prop
  | open {s t : Machine} {openers : Nat → Option Opener} {d : Nat} {r : Word} {fd : FileDesc}
      (unused : openers d = none) (ran : openIfile inumber s = (.ok (r,fd),t)) :
      ShareStep inumber ⟨s,openers⟩ (.open d)
        ⟨t,Function.update openers d (some ⟨fd,(s.inodeAt inumber.toNat).size,false⟩)⟩
  | readc {s t : Machine} {openers : Nat → Option Opener} {d : Nat} {o : Opener} {r : Word} {fd : FileDesc}
      (used : openers d = some o) (ran : readcIfile o.fd s = (.ok (r,fd),t)) :
      ShareStep inumber ⟨s,openers⟩ (.readc d) ⟨t,Function.update openers d (some {o with fd := fd})⟩
  | writec {s t : Machine} {openers : Nat → Option Opener} {d : Nat} {o : Opener} {c : Byte} {r : Word} {fd : FileDesc}
      (used : openers d = some o) (ran : writecIfile o.fd c s = (.ok (r,fd),t)) :
      ShareStep inumber ⟨s,openers⟩ (.writec d c)
        ⟨t,Function.update openers d (some {o with fd := fd,written := true})⟩
  | seek {s t : Machine} {openers : Nat → Option Opener} {d : Nat} {o : Opener} {offset : Word} {fd : FileDesc}
      (used : openers d = some o) (ran : seekIfile o.fd offset s = (.ok fd,t)) :
      ShareStep inumber ⟨s,openers⟩ (.seek d offset) ⟨t,Function.update openers d (some {o with fd := fd})⟩
  | close {s t : Machine} {openers : Nat → Option Opener} {d : Nat} {o : Opener} {fd : FileDesc}
      (used : openers d = some o) (ran : closeIfile o.fd s = (.ok fd,t)) :
      ShareStep inumber ⟨s,openers⟩ (.close d) ⟨t,Function.update openers d none⟩

variable {s t : Machine} {fd : FileDesc} {inumber : Word}

-- What a call that writes nothing leaves of a descriptor, on whatever disk.
structure Passed (fd fd' : FileDesc) : Prop where
  inumber : fd'.fdsInumber = fd.fdsInumber
  size : fd'.fdsSize = fd.fdsSize
  clean : fd.fdsDirty = false → fd'.fdsDirty = false

theorem passed_flush (fd : FileDesc) (s : Machine) :
    Runs (flushIfile fd) s (fun fd' _ => Passed fd fd') (fun _ _ => True) := by
  unfold flushIfile
  rw [runs_ite]
  split
  · simp only [runs_bind,runs_pure]
    exact Runs.always fun _ _ => Runs.always fun _ _ => Runs.always fun _ _ => ⟨rfl,rfl,fun _ => rfl⟩
  · exact ⟨rfl,rfl,id⟩

theorem passed_seek (fd : FileDesc) (offset : Word) (s : Machine) :
    Runs (seekIfile fd offset) s (fun fd' _ => Passed fd fd') (fun _ _ => True) := by
  unfold seekIfile
  dsimp only
  rw [runs_ite]
  split
  · rw [runs_bind]
    refine (passed_flush _ s).mono ?_ (fun _ _ => id)
    intro fd' t passed
    simp only [runs_bind,runs_pure]
    exact Runs.always fun _ _ => Runs.always fun _ _ => ⟨passed.inumber,passed.size,passed.clean⟩
  · exact ⟨rfl,rfl,id⟩

theorem passed_readc (fd : FileDesc) (s : Machine) :
    Runs (readcIfile fd) s (fun r _ => Passed fd r.2) (fun _ _ => True) := by
  unfold readcIfile
  rw [runs_ite]
  split
  · exact ⟨rfl,rfl,id⟩
  · simp only [runs_bind,runs_pure]
    exact passed_seek fd 1 s

theorem kept_inumber_store (fd : FileDesc) (s : Machine) :
    Runs (writecStore fd) s (fun r _ => r.2.fdsInumber = fd.fdsInumber) (fun _ _ => True) := by
  unfold writecStore
  rw [runs_ite]
  simp only [writecAdvance_eq]
  split
  · simp only [runs_bind,runs_pure]
    exact Runs.always fun _ _ => Runs.always fun _ _ => Runs.always fun _ _ => Runs.always fun _ _ =>
      Runs.always fun _ _ => rfl
  · exact rfl

theorem kept_inumber_writec (fd : FileDesc) (c : Byte) (s : Machine) :
    Runs (writecIfile fd c) s (fun r _ => r.2.fdsInumber = fd.fdsInumber) (fun _ _ => True) := by
  cases dirty : fd.fdsDirty with
  | true =>
      rw [runs_writec_dirty dirty]
      exact kept_inumber_store _ s
  | false =>
      rw [runs_writec_clean dirty]
      refine Runs.always fun v t => ?_
      split
      · rfl
      · exact kept_inumber_store _ t

theorem opened_fields (s : Machine) (m : Mounted s) (inside : inumber.toNat < s.nsec) : Runs (openIfile inumber) s
    (fun r _ => r.2.fdsInumber = inumber ∧ r.2.fdsSize = (s.inodeAt inumber.toNat).size ∧ r.2.fdsDirty = false)
    (fun _ _ => True) := by
  simp only [openIfile,runs_bind,runs_readInode m inside,runs_pure]
  exact Runs.always fun _ _ => Runs.always fun _ _ => ⟨trivial,trivial,trivial⟩

-- A descriptor through which nothing was written owes nothing and still carries
-- the size it found.
structure Shared (inumber : Word) (h : Sharing) : Prop where
  mounted : Mounted h.machine
  inside : inumber.toNat < h.machine.nsec
  inumber : ∀ d o, h.openers d = some o → o.fd.fdsInumber = inumber
  unwritten : ∀ d o, h.openers d = some o → o.written = false → o.fd.fdsDirty = false ∧ o.fd.fdsSize = o.size

theorem Shared.update {h : Sharing} {o : Opener} {d : Nat} (shared : Shared inumber h) (fixed : Fixed h.machine t)
    (number : o.fd.fdsInumber = inumber) (unwritten : o.written = false → o.fd.fdsDirty = false ∧ o.fd.fdsSize = o.size) :
    Shared inumber ⟨t,Function.update h.openers d (some o)⟩ := by
  refine ⟨fixed.mounted shared.mounted,by rw [fixed.nsec]; exact shared.inside,?_,?_⟩
  · intro e p found
    by_cases same : e = d
    · subst same
      simp only [Function.update_self,Option.some.injEq] at found
      rw [← found]; exact number
    · simp only [Function.update_of_ne same] at found
      exact shared.inumber e p found
  · intro e p found idle
    by_cases same : e = d
    · subst same
      simp only [Function.update_self,Option.some.injEq] at found
      rw [← found] at idle ⊢; exact unwritten idle
    · simp only [Function.update_of_ne same] at found
      exact shared.unwritten e p found idle

theorem ShareStep.keeps {h h' : Sharing} {c : ShareCall} (shared : Shared inumber h)
    (step : ShareStep inumber h c h') : Shared inumber h' := by
  cases step with
  | «open» unused ran =>
      obtain ⟨number,size,clean⟩ := (opened_fields _ shared.mounted shared.inside).result ran
      exact shared.update ((fixed_charged.openIfile _).result ran) number fun _ => ⟨clean,size⟩
  | readc used ran =>
      have passed := (passed_readc _ _).result ran
      refine shared.update ((fixed_charged.readcIfile _).result ran) (passed.inumber.trans (shared.inumber _ _ used)) ?_
      intro idle
      obtain ⟨clean,size⟩ := shared.unwritten _ _ used idle
      exact ⟨passed.clean clean,passed.size.trans size⟩
  | writec used ran =>
      have number := (kept_inumber_writec _ _ _).result ran
      exact shared.update ((fixed_charged.writecIfile _ _).result ran) (number.trans (shared.inumber _ _ used))
        fun idle => absurd idle (by simp)
  | seek used ran =>
      have passed := (passed_seek _ _ _).result ran
      refine shared.update ((fixed_charged.seekIfile _ _).result ran) (passed.inumber.trans (shared.inumber _ _ used)) ?_
      intro idle
      obtain ⟨clean,size⟩ := shared.unwritten _ _ used idle
      exact ⟨passed.clean clean,passed.size.trans size⟩
  | @close s t openers d o fd used ran =>
      have fixed := (fixed_charged.closeIfile _).result ran
      have old : ∀ e p, Function.update openers d none e = some p → openers e = some p := by
        intro e p found
        by_cases same : e = d
        · subst same; simp at found
        · rwa [Function.update_of_ne same] at found
      exact ⟨fixed.mounted shared.mounted,by rw [fixed.nsec]; exact shared.inside,
        fun e p found => shared.inumber e p (old e p found),fun e p found => shared.unwritten e p (old e p found)⟩

theorem sectors_resized (s : Machine) (inumber size : Word) :
    ((s.load inumber.toNat).resized inumber size).hda.sectors = s.hda.sectors ↔ s.entryAt inumber.toNat 1 = size := by
  constructor
  · intro same
    have here : ((s.load inumber.toNat).resized inumber size).blk inumber.toNat = s.blk inumber.toNat :=
      congrFun same (s.start+inumber.toNat)
    have entry := resized_entry (s.load inumber.toNat) inumber size inumber.toNat (v := 1) (by decide)
    rw [if_pos ⟨rfl,rfl⟩] at entry
    rw [← entry]
    exact (congrArg (wordAt · 1) here).symm
  · intro same
    funext p
    have put : putWord (s.blk inumber.toNat) 1 size = s.blk inumber.toNat := putWord_same _ same
    have sector : ((s.load inumber.toNat).resized inumber size).hda.sectors p =
        if p = s.start+inumber.toNat then putWord (s.blk inumber.toNat) 1 size else s.hda.sectors p := rfl
    rw [sector,put]
    split
    · rename_i here; rw [here]; rfl
    · rfl

theorem Shared.close {h : Sharing} {d : Nat} {o : Opener} (shared : Shared inumber h) (used : h.openers d = some o)
    (idle : o.written = false) :
    Returns (closeIfile o.fd) h.machine (fun _ t => t.hda.sectors = h.machine.hda.sectors) ↔
      (h.machine.inodeAt inumber.toNat).size = o.size := by
  obtain ⟨clean,size⟩ := shared.unwritten d o used idle
  have number := shared.inumber d o used
  have file : o.fd.file = inumber.toNat := congrArg BitVec.toNat number
  rw [Returns,runs_close_clean shared.mounted (by rw [file]; exact shared.inside) clean,file,number,size]
  exact sectors_resized h.machine inumber o.size

theorem Shared.reached {h h' : Sharing} {past : List (Sharing × ShareCall)} (m : Mounted h.machine)
    (inside : inumber.toNat < h.machine.nsec) (none : ∀ d, h.openers d = none)
    (run : Run (ShareStep inumber) h past h') : Shared inumber h' := by
  have empty : ∀ d o, h.openers d ≠ some o := fun d o found => absurd ((none d).symm.trans found) (by simp)
  have start : Shared inumber h :=
    ⟨m,inside,fun d o found => absurd found (empty d o),fun d o found => absurd found (empty d o)⟩
  exact (run.keeps (fun _ _ => True) (fun _ _ _ shared _ step => step.keeps shared) start fun _ _ => trivial).1

-- In every state that any interleaving reaches, closing a descriptor that wrote
-- nothing leaves the disk as it is exactly when the size on disk is still the
-- one the descriptor found.
theorem close_unwritten_exact {h h' : Sharing} {past : List (Sharing × ShareCall)} {d : Nat} {o : Opener}
    (m : Mounted h.machine) (inside : inumber.toNat < h.machine.nsec) (none : ∀ d, h.openers d = none)
    (run : Run (ShareStep inumber) h past h') (used : h'.openers d = some o) (idle : o.written = false) :
    Returns (closeIfile o.fd) h'.machine (fun _ t => t.hda.sectors = h'.machine.hda.sectors) ↔
      (h'.machine.inodeAt inumber.toNat).size = o.size :=
  (Shared.reached m inside none run).close used idle

-- Two openers of the root of a formatted volume.
theorem first_open : ∃ s t fd, initSuper 0 0 (zeros 8 32) (recordedDisk (volumeOf 64)) = (.ok (),s) ∧ Fresh s ∧
    s.nsec = 64 ∧ Quiet s t ∧
    ShareStep 1 ⟨s,fun _ => none⟩ (.open 0) ⟨t,Function.update (fun _ => none) 0 (some ⟨fd,0,false⟩)⟩ := by
  obtain ⟨s,equal,fresh,size⟩ := volumeOf_fresh (n := 64) (by decide) (by decide) 0 (zeros 8 32)
  have node : freshRole s.nsec (1 : Word).toNat = .inode := Function.update_self _ _ _
  obtain ⟨⟨r,fd⟩,t,ran,quiet,_⟩ := returns_iff.mp (runs_openIfile fresh.layout node)
  have step : ShareStep 1 ⟨s,fun _ => none⟩ (.open 0) _ := .open rfl ran
  rw [show (s.inodeAt (1 : Word).toNat).size = 0 from fresh.empty] at step
  exact ⟨s,t,fd,equal,fresh,size,quiet,step⟩

-- A second opener, which has written a byte.
theorem second_writes : ∃ s t v past fd o role free free' content, initSuper 0 0 (zeros 8 32) (recordedDisk (volumeOf 64)) = (.ok (),s) ∧
    Mounted s ∧ s.nsec = 64 ∧ Run (ShareStep 1) ⟨s,fun _ => none⟩ past v ∧ past.map Prod.snd = [.open 0,.open 1,.writec 1 65] ∧
    v.openers 0 = some ⟨fd,0,false⟩ ∧ v.openers 1 = some o ∧ freshRole s.nsec 1 = .inode ∧
    Writing t v.machine (freshRole s.nsec) role free free' o.fd content ∧ o.fd.fdsDirty = true ∧ o.fd.fdsPos = 1 ∧ o.fd.fdsSize = 0 ∧
    o.fd.fdsInumber = 1 ∧ v.machine.entryAt 1 1 = 0 := by
  obtain ⟨s,t,fd,equal,fresh,size,quiet,step⟩ := first_open
  have node : freshRole s.nsec (1 : Word).toNat = .inode := Function.update_self _ _ _
  have layout := fresh.layout.quiet quiet
  have still : t.entryAt 1 1 = 0 := (congrArg (wordAt · 1) (quiet.blk 1)).trans fresh.empty
  obtain ⟨⟨r,fd'⟩,u,ran,writing,quiet',_,number,length,pos,clean⟩ := returns_iff.mp (Writing.open layout 1 node)
  have start : fd'.fdsPos = 0 := pos
  have empty : fd'.fdsSize = 0 := length.trans still
  have low : Supported 0 := Or.inl (by decide)
  have enough : fd'.price u ≤ (List.range' 2 (s.nsec-2)).length := by
    rw [List.length_range',size,FileDesc.price,if_neg (by simp [show fd'.fdsDirty = false from clean])]
    exact Nat.le_trans (needed_le _ _ _) (by decide)
  have block : fd'.block = 0 := by unfold FileDesc.block; rw [start]; rfl
  obtain ⟨⟨r1,fd1⟩,v,ran1,role1,free1,writing1,_,_,moved1,dirty1,_⟩ :=
    returns_iff.mp (writing.writec 65 (by rw [block]; exact low) (by rw [start]; exact low) enough)
  have run := ((Run.single step).next (.open (d := 1) rfl ran)).next (.writec (d := 1) rfl ran1)
  refine ⟨s,t,_,_,fd,_,role1,_,free1,_,equal,fresh.layout.mounted,size,run,rfl,by simp,rfl,node,writing1,
    dirty1.mpr (by rw [start]; decide),?_,?_,moved1.inumber.trans number,(writing1.sizes 1 node).trans still⟩
  · rw [show fd1.fdsPos = fd'.fdsPos+1 from moved1.position,start]
    rfl
  · rw [show fd1.fdsSize = _ from moved1.size,empty,start]
    rfl

-- The byte is in the buffer of the second, and the size on disk as it was.
theorem close_unwritten_beside : ∃ s h past o, initSuper 0 0 (zeros 8 32) (recordedDisk (volumeOf 64)) = (.ok (),s) ∧
    Run (ShareStep 1) ⟨s,fun _ => none⟩ past h ∧ past.map Prod.snd = [.open 0,.open 1,.writec 1 65] ∧ h.openers 0 = some o ∧
    Returns (closeIfile o.fd) h.machine (fun _ t => t.hda.sectors = h.machine.hda.sectors) := by
  obtain ⟨s,_,h,past,fd,_,_,_,_,_,equal,mounted,size,run,calls,used,_,_,_,_,_,_,_,still⟩ := second_writes
  exact ⟨s,h,past,_,equal,run,calls,used,
    (close_unwritten_exact mounted (show (1 : Word).toNat < s.nsec by rw [size]; decide) (fun _ => rfl) run used rfl).mpr still⟩

-- The second opener writes two bytes and records the size 1; closing the first
-- one puts the size 0 back.
theorem close_unwritten_undoes : ∃ s h past o, initSuper 0 0 (zeros 8 32) (recordedDisk (volumeOf 64)) = (.ok (),s) ∧
    Run (ShareStep 1) ⟨s,fun _ => none⟩ past h ∧
    past.map Prod.snd = [.open 0,.open 1,.writec 1 65,.writec 1 66,.close 1] ∧
    h.openers 0 = some o ∧ o.written = false ∧
    ¬ Returns (closeIfile o.fd) h.machine (fun _ t => t.hda.sectors = h.machine.hda.sectors) := by
  obtain ⟨s,t,h,past,fd,o,role,_,_,_,equal,mounted,size,run,calls,first,second,node,writing,dirty,pos,empty,number,_⟩ := second_writes
  have low : Supported 0 := Or.inl (by decide)
  obtain ⟨⟨r2,fd2⟩,w,ran2,role2,free2,writing2,_,_,moved2,_⟩ := returns_iff.mp (writing.writec 66
    (by unfold FileDesc.block; rw [pos]; exact low) (by rw [pos]; exact low) (by simp [FileDesc.price,dirty]))
  have pos2 : fd2.fdsPos = 2 := by rw [show fd2.fdsPos = o.fd.fdsPos+1 from moved2.position,pos]; rfl
  have size2 : fd2.fdsSize = 1 := by rw [show fd2.fdsSize = _ from moved2.size,empty,pos]; rfl
  have file2 : fd2.file = 1 := by
    unfold FileDesc.file
    rw [show fd2.fdsInumber = o.fd.fdsInumber from moved2.inumber,number]
    rfl
  obtain ⟨fd3,x,ran3,closed,_⟩ := returns_iff.mp (writing2.close (by unfold FileDesc.block; rw [pos2]; exact low))
  have wrote : ShareStep 1 h (.writec 1 66) _ := .writec second ran2
  have whole := (run.next wrote).next (.close (d := 1) (Function.update_self ..) ran3)
  have shared := Shared.reached mounted (show (1 : Word).toNat < s.nsec by rw [size]; decide) (fun _ => rfl) whole
  have used : Function.update (Function.update h.openers 1 (some ⟨fd2,o.size,true⟩)) 1 none 0 = some ⟨fd,0,false⟩ := by
    rw [Function.update_of_ne (by decide),Function.update_of_ne (by decide)]
    exact first
  refine ⟨s,_,_,⟨fd,0,false⟩,equal,whole,?_,used,rfl,fun same => ?_⟩
  · rw [List.map_append,List.map_append,calls]
    rfl
  have still := (shared.close (d := 0) used rfl).mp same
  have recorded : x.entryAt 1 1 = 1 := by
    rw [closed.sizes 1 node,file2,if_pos rfl,size2]
  exact absurd (show (1 : Word) = 0 from recorded.symm.trans still) (by decide)

end AsePlusPlus
