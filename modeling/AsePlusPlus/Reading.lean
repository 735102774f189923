import AsePlusPlus.Calm
import AsePlusPlus.Lib.Trace
import AsePlusPlus.Canonical
import AsePlusPlus.File
import AsePlusPlus.Bulk

namespace AsePlusPlus
open Words Program Trace

variable {o s t : Machine} {fd : FileDesc} {path : List Byte}

-- while ((c = readc_file(&fd)) != READ_EOF) putchar(c), for so many reads.
def catLoop : Nat → FileDesc → M (List Byte × FileDesc)
  | 0,_ => stop .loop
  | reads+1,fd => do
    let (c,fd) ← readcFile fd
    if c = readEof then
      return ([],fd)
    else
      let (text,fd) ← catLoop reads fd
      return (c.setWidth 8 :: text,fd)

def doCat (reads : Nat) (cwd arguments : List Byte) : Option (M (Word × List Byte)) := do
  let target ← canonicalPath cwd arguments
  return do
    let m ← get
    let (status,fd) ← openFile m.frame.desc target
    if status = returnFailure then
      return (1,[])
    else
      let (text,fd) ← catLoop reads fd
      let _ ← closeFile fd
      return (0,text)

def doLs (cwd arguments : List Byte) : Option (M (List (List Byte))) := do
  let target ← canonicalPath cwd arguments
  return listDirectory 16 target

-- A program that opens, reads, seeks and closes, its descriptors with whatever
-- their memory held, and for each of them whether an open has filled it.
structure Reader where
  machine : Machine
  descs : Nat → FileDesc
  filled : Nat → Bool
  ended : Bool

-- Between two calls other code may use the stack.
inductive ReadCall where
  | openFile (d : Nat) (path : List Byte)
  | readcFile (d : Nat)
  | readFile (d : Nat) {nbyte : Nat} (buf : Vector Byte nbyte)
  | seekFile (d : Nat) (offset : Word)
  | closeFile (d : Nat)
  | cat (arguments : List Byte) (reads : Nat)
  | ls (arguments : List Byte)
  | cd (arguments : List Byte)
  | stack (frame : Frame)

abbrev Descs := (Nat → FileDesc) × (Nat → Bool)

def ReadCall.run (h : Reader) : ReadCall → Option (M Descs)
  | .openFile d path => some do
    let (r,fd) ← AsePlusPlus.openFile (h.descs d) path
    return (Function.update h.descs d fd,if r = returnFailure then h.filled else Function.update h.filled d true)
  | .readcFile d => some do
    let (_,fd) ← AsePlusPlus.readcFile (h.descs d)
    return (Function.update h.descs d fd,h.filled)
  | .readFile d buf => some do
    let (_,_,fd) ← AsePlusPlus.readFile (h.descs d) buf
    return (Function.update h.descs d fd,h.filled)
  | .seekFile d offset => some do
    let fd ← AsePlusPlus.seekFile (h.descs d) offset
    return (Function.update h.descs d fd,h.filled)
  | .closeFile d => some do
    let fd ← AsePlusPlus.closeFile (h.descs d)
    return (Function.update h.descs d fd,h.filled)
  | .cat arguments reads => (doCat reads h.machine.cwd arguments).map fun command => do
    let _ ← command
    return (h.descs,h.filled)
  | .ls arguments => (doLs h.machine.cwd arguments).map fun command => do
    let _ ← command
    return (h.descs,h.filled)
  | .cd arguments => (doCd h.machine.cwd arguments).map fun command => do
    let _ ← command
    return (h.descs,h.filled)
  | .stack frame => some do
    modify fun m => {m with frame := frame}
    return (h.descs,h.filled)

-- A call returns, or ends the program; a text that does not fit its buffer runs
-- over whatever lies behind it.
inductive ReadStep : Reader → ReadCall → Reader → Prop
  | returns {h : Reader} {c : ReadCall} {command : M Descs} {r : Descs} {t : Machine} (live : h.ended = false)
      (begun : c.run h = some command) (ran : command h.machine = (.ok r,t)) : ReadStep h c ⟨t,r.1,r.2,false⟩
  | stops {h : Reader} {c : ReadCall} {command : M Descs} {e : Stop} {t : Machine} (live : h.ended = false)
      (begun : c.run h = some command) (ran : command h.machine = (.error e,t)) : ReadStep h c ⟨t,h.descs,h.filled,true⟩
  | overruns {h k : Reader} {c : ReadCall} (live : h.ended = false) (long : c.run h = none) : ReadStep h c k

-- A descriptor that an open has filled, or that owes the disk nothing as it is.
def Reader.Ready (h : Reader) (d : Nat) : Prop := h.filled d = true ∨ Idle h.machine (h.descs d)

-- A descriptor is used where it has been filled; a directory is listed where the
-- path leads somewhere. The paths of the commands fit their buffers.
def ReadCall.Fits (h : Reader) : ReadCall → Prop
  | .readcFile d | .readFile d _ | .seekFile d _ | .closeFile d => h.Ready d
  | .cat arguments _ => canonicalPath h.machine.cwd arguments ≠ none
  | .ls arguments => ∃ target, canonicalPath h.machine.cwd arguments = some target ∧
      ((inumberOfPath target h.machine).1 ≠ .ok 0 ∨ Idle h.machine h.machine.frame.desc)
  | .cd arguments => (canonicalPath h.machine.cwd arguments).bind closed ≠ none
  | .openFile _ _ | .stack _ => True

-- No sector of the disk and nothing of the superbloc has changed.
structure Untouched (s t : Machine) : Prop where
  sectors : t.hda.sectors = s.hda.sectors
  super : t.super = s.super
  mbr : t.mbr = s.mbr
  volume : t.currentVolume = s.currentVolume

theorem Untouched.refl (s : Machine) : Untouched s s := ⟨rfl,rfl,rfl,rfl⟩

theorem Untouched.trans (one : Untouched o s) (two : Untouched s t) : Untouched o t :=
  ⟨two.sectors.trans one.sectors,two.super.trans one.super,two.mbr.trans one.mbr,two.volume.trans one.volume⟩

theorem Same.untouched (same : Same s t) : Untouched s t := by
  obtain ⟨_,_,_,rfl⟩ := same
  exact ⟨rfl,rfl,rfl,rfl⟩

theorem Untouched.vol (untouched : Untouched s t) : t.vol = s.vol := by
  unfold Machine.vol
  rw [untouched.mbr,untouched.volume]

theorem Untouched.blk (untouched : Untouched s t) (b : Nat) : t.blk b = s.blk b := by
  unfold Machine.blk Machine.start
  rw [untouched.sectors,untouched.vol]

theorem Idle.untouched (idle : Idle s fd) (untouched : Untouched s t) : Idle t fd := by
  obtain ⟨clean,inode,⟨on,read⟩,size⟩ := idle
  have cylinder : t.cylinderOf fd.fdsInumber = s.cylinderOf fd.fdsInumber := by
    unfold Machine.cylinderOf
    rw [untouched.vol]
  have sector : t.sectorOf fd.fdsInumber = s.sectorOf fd.fdsInumber := by
    unfold Machine.sectorOf
    rw [untouched.vol]
  refine ⟨clean,inode,⟨?_,?_⟩,size⟩
  · rw [cylinder,sector]
    exact on
  · rw [cylinder,sector,untouched.sectors]
    exact read

-- open_file fills the descriptor or leaves it as it was.
theorem calm_openFile (fd : FileDesc) (path : List Byte) :
    Calm o (openFile fd path) (fun r => r = (returnFailure,fd) ∧ (inumberOfPath path o).1 = .ok 0 ∨ Idle o r.2) := by
  refine steady_bind ((calm_inumberOfPath path).self (.refl o)) fun inumber found => calm_ite (fun none => ?_) fun _ => ?_
  · subst none
    exact steady_pure _ (.inl ⟨rfl,found.2⟩)
  · exact (calm_openIfile inumber).mono fun _ idle => .inr idle

theorem calm_catLoop (reads : Nat) (idle : Idle o fd) : Calm o (catLoop reads fd) (fun r => Idle o r.2) := by
  induction reads generalizing fd with
  | zero => exact steady_stop _
  | succ reads ih =>
      refine steady_bind (calm_readcIfile idle) fun _ next => ?_
      exact calm_ite (fun _ => steady_pure _ next) fun _ => steady_bind (ih next) fun _ last => steady_pure _ last

theorem calm_listLoop (count : Nat) (idle : Idle o fd) (entry : Vector Byte 20) :
    Calm o (listLoop count fd entry) (fun r => Idle o r.2) := by
  induction count generalizing fd entry with
  | zero => exact steady_pure _ idle
  | succ count ih =>
      refine steady_bind (calm_readIfile idle entry) fun _ next => calm_ite (fun _ => steady_pure _ next) fun _ => ?_
      exact steady_bind (calm_readInode _) fun _ _ => steady_bind (ih next _) fun _ last => steady_pure _ last

theorem calm_listDirectory (size : Nat) (leads : (inumberOfPath path o).1 ≠ .ok 0 ∨ Idle o o.frame.desc) :
    Calm o (listDirectory size path) (fun _ => True) := by
  refine calm_get (by rintro s ⟨_,_,_,rfl⟩; rfl) (steady_bind (calm_openFile _ _) fun r opened => ?_)
  have idle : Idle o r.2 := by
    rcases opened with ⟨failed,missing⟩ | idle
    · rw [failed]
      exact leads.resolve_left (not_not_intro missing)
    · exact idle
  exact steady_bind (calm_listLoop size idle _) fun _ last => steady_bind (calm_closeIfile last) fun _ _ => steady_pure _ trivial

-- do_cat looks at the status of open_file.
theorem calm_doCat {command : M (Word × List Byte)} {cwd arguments : List Byte} {reads : Nat}
    (begun : doCat reads cwd arguments = some command) : Calm o command (fun _ => True) := by
  obtain ⟨target,_,begun⟩ := Option.bind_eq_some_iff.mp begun
  cases begun
  refine calm_get (by rintro s ⟨_,_,_,rfl⟩; rfl) (steady_bind (calm_openFile _ _) fun r opened => ?_)
  refine calm_ite (fun _ => steady_pure _ trivial) fun success => ?_
  have idle : Idle o r.2 := by
    rcases opened with ⟨failed,_⟩ | idle
    · exact absurd (congrArg Prod.fst failed) success
    · exact idle
  exact steady_bind (calm_catLoop reads idle) fun _ last => steady_bind (calm_closeIfile last) fun _ _ => steady_pure _ trivial

-- Since `s` nothing has changed on the disk, and the filled descriptors owe it
-- nothing.
structure Resting (s : Machine) (h : Reader) : Prop where
  untouched : Untouched s h.machine
  idle : ∀ d, h.filled d = true → Idle h.machine (h.descs d)

-- What a call leaves behind that returns with these descriptors.
def Rests (h : Reader) (r : Descs) (t : Machine) : Prop :=
  Untouched h.machine t ∧ ∀ d, r.2 d = true → Idle t (r.1 d)

theorem Reader.Ready.idle {h : Reader} {d : Nat} (ready : h.Ready d) (rest : Resting s h) : Idle h.machine (h.descs d) := by
  rcases ready with filled | idle
  · exact rest.idle d filled
  · exact idle

theorem Resting.same {h : Reader} (rest : Resting s h) (untouched : Untouched h.machine t) : Rests h (h.descs,h.filled) t :=
  ⟨untouched,fun d filled => (rest.idle d filled).untouched untouched⟩

theorem Resting.update {h : Reader} (rest : Resting s h) (untouched : Untouched h.machine t) (d : Nat) {filled : Nat → Bool}
    (others : ∀ x, x ≠ d → filled x = true → h.filled x = true) (idle : filled d = true → Idle h.machine fd) :
    Rests h (Function.update h.descs d fd,filled) t := by
  refine ⟨untouched,fun x full => ?_⟩
  dsimp only at full ⊢
  by_cases here : x = d
  · subst here
    rw [Function.update_self]
    exact (idle full).untouched untouched
  · rw [Function.update_of_ne here]
    exact (rest.idle x (others x here full)).untouched untouched

-- A call that gives back a descriptor in the place of the one it was given.
theorem Resting.runs {α : Type} {h : Reader} {p : M α} {give : α → FileDesc} (rest : Resting s h) (d : Nat)
    (calm : Calm h.machine p (fun a => Idle h.machine (give a))) :
    Runs (do let a ← p; return (Function.update h.descs d (give a),h.filled)) h.machine (fun r t => Rests h r t)
      (fun _ t => Untouched h.machine t) := by
  rw [runs_bind]
  refine (calm.runs (.refl _)).mono ?_ (fun _ _ same => same.untouched)
  intro a t post
  exact rest.update post.2.2.untouched d (fun _ _ full => full) fun _ => post.1

-- A command keeps its descriptor to itself.
theorem Resting.commands {α : Type} {h : Reader} {p : M α} (rest : Resting s h) (calm : Calm h.machine p (fun _ => True)) :
    Runs (do let _ ← p; return (h.descs,h.filled)) h.machine (fun r t => Rests h r t) (fun _ t => Untouched h.machine t) := by
  rw [runs_bind]
  refine (calm.runs (.refl _)).mono ?_ (fun _ _ same => same.untouched)
  intro _ t post
  exact rest.same post.2.2.untouched

theorem doCd_untouched {cwd arguments : List Byte} {command : M Word} (begun : doCd cwd arguments = some command) (s : Machine) :
    Runs command s (fun _ t => Untouched s t) (fun _ t => Untouched s t) := by
  obtain ⟨canonical,_,begun⟩ := Option.bind_eq_some_iff.mp begun
  obtain ⟨target,_,begun⟩ := Option.bind_eq_some_iff.mp begun
  cases begun
  rw [runs_bind]
  refine ((calm_inumberOfPath target).runs (.refl s)).mono ?_ (fun _ _ same => same.untouched)
  intro status t post
  have untouched := post.2.2.untouched
  split
  · exact untouched
  · exact untouched.trans ⟨rfl,rfl,rfl,rfl⟩

theorem ReadCall.runs {h : Reader} {c : ReadCall} {command : M Descs} (rest : Resting s h) (fits : c.Fits h)
    (begun : c.run h = some command) :
    Runs command h.machine (fun r t => Rests h r t) (fun _ t => Untouched h.machine t) := by
  cases c with
  | openFile d path =>
      cases begun
      rw [runs_bind]
      refine ((calm_openFile (h.descs d) path).runs (.refl _)).mono ?_ (fun _ _ same => same.untouched)
      intro r t post
      obtain ⟨opened,_,same⟩ := post
      by_cases failed : r.1 = returnFailure
      · dsimp only
        rw [if_pos failed]
        refine rest.update same.untouched d (fun _ _ full => full) fun full => ?_
        rcases opened with ⟨kept,_⟩ | idle
        · rw [kept]
          exact rest.idle d full
        · exact idle
      · dsimp only
        rw [if_neg failed]
        refine rest.update same.untouched d (fun x away full => ?_) fun _ => ?_
        · rwa [Function.update_of_ne away] at full
        · rcases opened with ⟨kept,_⟩ | idle
          · exact absurd (congrArg Prod.fst kept) failed
          · exact idle
  | readcFile d =>
      cases begun
      exact rest.runs d (calm_readcIfile (fits.idle rest))
  | readFile d buf =>
      cases begun
      exact rest.runs d (calm_readIfile (fits.idle rest) buf)
  | seekFile d offset =>
      cases begun
      exact rest.runs d (calm_seekIfile (fits.idle rest) offset)
  | closeFile d =>
      cases begun
      exact rest.runs d (calm_closeIfile (fits.idle rest))
  | cat arguments reads =>
      obtain ⟨p,made,same⟩ := Option.map_eq_some_iff.mp begun
      subst same
      exact rest.commands (calm_doCat made)
  | ls arguments =>
      obtain ⟨p,made,same⟩ := Option.map_eq_some_iff.mp begun
      subst same
      obtain ⟨target,canonical,leads⟩ := fits
      have listed : some (listDirectory 16 target) = some p := by
        rw [← made]
        unfold doLs
        rw [canonical]
        rfl
      cases listed
      exact rest.commands (calm_listDirectory 16 leads)
  | cd arguments =>
      obtain ⟨p,made,same⟩ := Option.map_eq_some_iff.mp begun
      subst same
      rw [runs_bind]
      refine (doCd_untouched made h.machine).mono ?_ (fun _ _ => id)
      intro _ t untouched
      exact rest.same untouched
  | stack frame =>
      cases begun
      exact rest.same ⟨rfl,rfl,rfl,rfl⟩

theorem ReadStep.keeps {h k : Reader} {c : ReadCall} (rest : Resting s h) (fits : c.Fits h) (taken : ReadStep h c k) :
    Resting s k := by
  cases taken with
  | returns _ begun ran =>
      obtain ⟨untouched,idle⟩ := (c.runs rest fits begun).result ran
      exact ⟨rest.untouched.trans untouched,idle⟩
  | stops _ begun ran =>
      have untouched := (runs_error ran).mp (c.runs rest fits begun)
      exact ⟨rest.untouched.trans untouched,fun d filled => (rest.idle d filled).untouched untouched⟩
  | overruns _ long =>
      cases c with
      | cat arguments reads =>
          unfold ReadCall.run doCat at long
          cases canonical : canonicalPath h.machine.cwd arguments with
          | none => exact absurd canonical fits
          | some target => simp [canonical] at long
      | ls arguments =>
          obtain ⟨target,canonical,_⟩ := fits
          simp [ReadCall.run,doLs,canonical] at long
      | cd arguments =>
          unfold ReadCall.run doCd at long
          cases canonical : canonicalPath h.machine.cwd arguments with
          | none => simp [ReadCall.Fits,canonical] at fits
          | some goal =>
              cases closing : closed goal with
              | none => simp [ReadCall.Fits,canonical,closing] at fits
              | some target => simp [canonical,closing] at long
      | openFile _ _ | readcFile _ | readFile _ _ | seekFile _ _ | closeFile _ | stack _ => cases long

-- Whatever the memory of the descriptors holds, none of them has been filled.
def startReader (s : Machine) (descs : Nat → FileDesc) : Reader := ⟨s,descs,fun _ => false,false⟩

-- Runs of the read-only calls and commands from any state of the disk.
theorem reads_leave_untouched {descs : Nat → FileDesc} {past : List (Reader × ReadCall)} {h : Reader}
    (run : Run ReadStep (startReader s descs) past h) (met : Met (fun h c => ReadCall.Fits h c) past) :
    Untouched s h.machine ∧ ∀ entry ∈ past, Untouched s entry.1.machine := by
  have start : Resting s (startReader s descs) := ⟨.refl s,fun _ full => by cases full⟩
  obtain ⟨last,passed⟩ := run.keeps (fun h c => ReadCall.Fits h c) (fun _ _ _ rest fits taken => taken.keeps rest fits) start met
  exact ⟨last.untouched,fun entry member => (passed entry member).untouched⟩

-- A new volume, and on the stack a stale descriptor that names its root.
def leftDisk (n : Word) : Machine :=
  {recordedDisk (volumeOf n) with frame := ⟨zeros 8 20,⟨1,9,9,zeros 8 512,false⟩,[]⟩}

theorem leftDisk_fresh {n : Word} (room : 2 ≤ n.toNat) (fits : n.toNat ≤ 32736) :
    ∃ s, initSuper 0 0 (zeros 8 32) (leftDisk n) = (.ok (),s) ∧ Fresh s ∧ s.nsec = n.toNat ∧
      s.frame.desc = ⟨1,9,9,zeros 8 512,false⟩ := by
  have same := volumeOf_sited room fits
  have sited : Sited (leftDisk n) 0 := ⟨same.magic,same.slot,same.fits,same.room⟩
  obtain ⟨_,s,equal,fresh,mbr,volume,_,frame,_⟩ := returns_iff.mp (runs_initSuper sited 0 (zeros 8 32))
  refine ⟨s,equal,fresh,?_,?_⟩
  · have disk : (leftDisk n).hda = (recordedDisk (volumeOf n)).hda := rfl
    unfold Machine.nsec Machine.vol
    rw [mbr,volume,disk,recordedDisk_vol]
    rfl
  · rw [frame]
    rfl

-- A descriptor at its end lists nothing.
theorem listLoop_ended (count : Nat) (ended : fd.fdsSize ≤ fd.fdsPos) (entry : Vector Byte 20) (s : Machine) :
    listLoop (count+1) fd entry s = (.ok ([],fd),s) := by
  unfold listLoop
  exact bind_ok (readIfile_last ended entry s)

theorem listDirectory_ended {r : Word × FileDesc} {fd' : FileDesc} {u : Machine} (count : Nat)
    (opened : openFile s.frame.desc path s = (.ok r,t)) (ended : r.2.fdsSize ≤ r.2.fdsPos) (closed : closeFile r.2 t = (.ok fd',u)) :
    listDirectory (count+1) path s = (.ok [],u) := by
  have got : (get : M Machine) s = (.ok s,s) := rfl
  unfold listDirectory
  refine (bind_ok got).trans ((bind_ok opened).trans ?_)
  refine (bind_ok (listLoop_ended count ended _ t)).trans ?_
  exact bind_ok closed

theorem closeFile_clean (m : Mounted s) (inside : fd.file < s.nsec) (clean : fd.fdsDirty = false) :
    closeFile fd s = (.ok fd,(s.load fd.file).resized fd.fdsInumber fd.fdsSize) :=
  Runs.equal fun _ => runs_close_clean m inside clean

theorem canonicalPath_absolute {text : List Byte} (absolute : text.head? = some slash) (cwd : List Byte) :
    canonicalPath cwd text = canonicalPath [] text := by
  unfold canonicalPath
  rw [if_neg (not_not_intro absolute),if_neg (not_not_intro absolute)]

theorem ReadStep.listed {descs : Nat → FileDesc} {arguments target : List Byte} {names : List (List Byte)}
    (canonical : canonicalPath s.cwd arguments = some target) (ran : listDirectory 16 target s = (.ok names,t)) :
    ReadStep (startReader s descs) (.ls arguments) (startReader t descs) := by
  have begun : (ReadCall.ls arguments).run (startReader s descs) = some (listDirectory 16 target >>= fun _ => return (descs,fun _ => false)) := by
    show (doLs s.cwd arguments).map _ = _
    unfold doLs
    rw [canonical]
    rfl
  exact .returns rfl begun (bind_ok ran)

-- The root of a new volume, whatever the stack holds.
theorem leave_untouched_root : ∃ s t, initSuper 0 0 (zeros 8 32) (leftDisk 64) = (.ok (),s) ∧
    ReadStep (startReader s fun _ => s.frame.desc) (.ls [slash]) (startReader t fun _ => s.frame.desc) ∧ Untouched s t := by
  obtain ⟨s,equal,fresh,size,_⟩ := leftDisk_fresh (n := 64) (by decide) (by decide)
  have canonical : canonicalPath s.cwd [slash] = some [slash] := by
    rw [canonicalPath_absolute rfl]
    decide
  have root : s.resolve [slash] = 1 := by
    unfold Machine.resolve
    rw [if_pos (by decide),show components [slash] = [] by decide,Machine.walk,fresh.root]
  obtain ⟨_,t,looked,number,still⟩ := returns_iff.mp (runs_inumberOfPath fresh.layout fresh.browsable [slash])
  rw [root] at number
  subst number
  have layout := fresh.layout.same still.same
  have node : freshRole s.nsec (1 : Word).toNat = .inode := rfl
  obtain ⟨_,u,opens,quiet,loaded⟩ := returns_iff.mp (runs_openIfile layout node)
  have empty : t.entryAt (1 : Word).toNat 1 = 0 := (still.same.entryAt 1 1).trans fresh.empty
  rw [empty] at loaded
  subst loaded
  have opened : openFile s.frame.desc [slash] s = (.ok _,u) := (bind_ok looked).trans opens
  have mounted := (layout.quiet quiet).mounted
  have inside : (1 : Word).toNat < u.nsec := by
    rw [quiet.nsec,still.same.nsec,size]
    decide
  have listed := listDirectory_ended 15 opened (show (0 : Word) ≤ 0 by decide) (closeFile_clean mounted inside rfl)
  have step : ReadStep (startReader s fun _ => s.frame.desc) (.ls [slash]) _ := .listed canonical listed
  have fits : (ReadCall.ls [slash]).Fits (startReader s fun _ => s.frame.desc) := by
    refine ⟨[slash],canonical,.inl ?_⟩
    show (inumberOfPath [slash] s).1 ≠ .ok 0
    rw [looked]
    intro wrong
    cases wrong
  exact ⟨s,_,equal,step,(reads_leave_untouched (.single step) (met_snoc.mpr ⟨met_nil,fits⟩)).1⟩

-- A path that leads nowhere: the size that the stack holds is recorded in the root.
theorem listing_resizes_root : ∃ s t, initSuper 0 0 (zeros 8 32) (leftDisk 64) = (.ok (),s) ∧
    ReadStep (startReader s fun _ => s.frame.desc) (.ls [slash,120]) (startReader t fun _ => s.frame.desc) ∧
    t.blk 1 ≠ s.blk 1 ∧ ¬ Untouched s t := by
  obtain ⟨s,equal,fresh,size,held⟩ := leftDisk_fresh (n := 64) (by decide) (by decide)
  have canonical : canonicalPath s.cwd [slash,120] = some [slash,120] := by
    rw [canonicalPath_absolute rfl]
    decide
  have absent : s.resolve [slash,120] = 0 := by
    unfold Machine.resolve
    rw [if_pos (by decide),show components [slash,120] = [[120]] by decide,Machine.walk,fresh.root,fresh.step,if_pos rfl]
  obtain ⟨_,t,looked,number,still⟩ := returns_iff.mp (runs_inumberOfPath fresh.layout fresh.browsable [slash,120])
  rw [absent] at number
  subst number
  have layout := fresh.layout.same still.same
  have opened : openFile s.frame.desc [slash,120] s = (.ok (returnFailure,⟨1,9,9,zeros 8 512,false⟩),t) := by
    rw [held]
    exact bind_ok looked
  have inside : (1 : Word).toNat < t.nsec := by
    rw [still.same.nsec,size]
    decide
  have listed := listDirectory_ended 15 opened (show (9 : Word) ≤ 9 by decide) (closeFile_clean layout.mounted inside rfl)
  have changed : ((t.load 1).resized 1 9).blk 1 ≠ s.blk 1 := by
    intro same
    have word : ((t.load 1).resized 1 9).entryAt 1 1 = 9 := by
      rw [resized_entry _ _ _ _ (by decide),if_pos ⟨rfl,rfl⟩]
    have before : s.entryAt 1 1 = 0 := fresh.empty
    unfold Machine.entryAt at word before
    rw [same,before] at word
    cases word
  exact ⟨s,_,equal,.listed canonical listed,changed,fun untouched => changed (untouched.blk 1)⟩

end AsePlusPlus
