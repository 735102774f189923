import AsePlusPlus.Mknfs
import AsePlusPlus.Lib.Mirror

namespace AsePlusPlus
open Words Program Trace

variable {o s t m : Machine} {live : List Vol} {behind : Nat → Word}

-- The table of vm.c: the names of its commands and the texts of help.
inductive VmCommand where
  | list
  | new
  | del
  | save
  | quit
  | exit
  | help

def vmCommands : List (String × VmCommand × String) := [
  ("list",.list,"display the partition table"),
  ("new",.new,"create a new partition"),
  ("del",.del,"delete a partition"),
  ("save",.save,"save the MBR"),
  ("quit",.quit,"save the MBR and quit"),
  ("exit",.exit,"exit (without saving)"),
  ("help",.help,"display this help")]

-- A word of the dialog, and what the calls of scanf that follow it leave in their
-- variables.
structure VmLine where
  name : String
  typed : Nat → Word

def VmLine.command (line : VmLine) : Option VmCommand := (vmCommands.find? fun c => c.1 = line.name).map fun c => c.2.1

-- What a program prints: a call of printf, or a line for stderr.
inductive Printed where
  | out (text : String)
  | err (text : String)

def displayTypeVol (volType : Word) : String :=
  if volType = 0 then "Principale" else if volType = 1 then "Etendue" else "Autre"

-- printf with %d
def shownInt (value : Word) : String := toString value.toInt

def volumeRow (i : Nat) (v : Vol) : Printed :=
  .out ("sda" ++ toString i ++ "\t" ++ shownInt v.volCylinder ++ "\t" ++ shownInt v.volSector ++ "\t" ++
    shownInt v.volNsectors ++ "\t" ++ displayTypeVol v.volType ++ "\n")

def volumeHeader : Printed :=
  .out "Volume|Cylindre|Secteur|Nb secteurs|Type\n-------------------------------------------------\n"

def listVolumes (behind : Nat → Word) (m : Mbr) : List Printed :=
  volumeHeader :: (List.range m.nbvols.toNat).map fun i => volumeRow i (m.slot behind i)

def quotaText : Printed := .err "Impossible de créer un nouveau volume car le quota est dépassé\n"

def missingText (number : Word) : Printed :=
  .err ("Impossible de supprimer le volume " ++ shownInt number ++ " car ce dernier n'existe pas\n")

def create (cylinder sector nsectors volType : Word) : M (List Printed) := do
  let m ← get
  modify fun m => {m with mbr := (createVolume cylinder sector nsectors volType ⟨m.mbr,[]⟩).mbr}
  return if m.mbr.nbvols.toNat = maxvol then [quotaText] else []

def delete (behind : Nat → Word) (number : Word) : M (List Printed) := do
  let m ← get
  modify fun m => {m with mbr := (deleteVolume behind number ⟨m.mbr,[]⟩).mbr}
  return if m.mbr.nbvols ≤ number then [missingText number] else []

def blankText : Printed := .out "init the mbr\n"
def hardwareText : Printed := .err "Error in hardware initialization\n"

-- read_mbr with what it prints.
def readMbrShown : M (List Printed) := do
  let buff ← readSector 0 0
  modify fun m => {m with mbr := Mbr.decode buff}
  let m ← get
  if m.mbr.magicNumber ≠ mbrMagic then
    modify fun m => {m with mbr := {mbrVol := Vector.replicate 8 .empty,nbvols := 0,magicNumber := mbrMagic}}
    return [blankText]
  else
    return []

-- init_mbr, and whether the program goes on behind it: init_hardware has found the
-- machine `ready`.
def initMbr (ready : Bool) : M (List Printed × Bool) :=
  if ready then do
    let shown ← readMbrShown
    return (shown,true)
  else
    return ([hardwareText],false)

def cylinderQuestion : Printed := .out "Saisir le 1er cylindre:\n"
def sectorQuestion : Printed := .out "Saisir le 1er secteur:\n"
def sizeQuestion : Printed := .out "Saisir le nombre de secteurs:\n"
def typeQuestion : Printed := .out "Choisir le type de volume (0- Principal\n1- Etendu\n2- Autre:\n"
def numberQuestion : Printed := .out "Saisir le volume à supprimer:\n"
def quitQuestion : Printed := .out "Etes-vous sur de vouloir quitter ?\n1- Sauvegarder et quitter\n2- Quitter\n"
def prompt : Printed := .out "> "

def newQuestions : List Printed := [cylinderQuestion,sectorQuestion,sizeQuestion,typeQuestion]
def helpText : List Printed := vmCommands.map fun c => .out (c.1 ++ "\t-- " ++ c.2.2 ++ "\n")
def unknownText : Printed := .out "unknown command, try help\n"

-- A command of the dialog: what it prints, and whether the program ends with it.
def execute (behind : Nat → Word) (line : VmLine) : M (List Printed × Bool) :=
  match line.command with
  | some .list => do
    let m ← get
    return (listVolumes behind m.mbr,false)
  | some .new => do
    let text ← create (line.typed 0) (line.typed 1) (line.typed 2) (line.typed 3)
    return (newQuestions ++ text,false)
  | some .del => do
    let text ← delete behind (line.typed 0)
    return (numberQuestion :: text,false)
  | some .save => do
    writeMbr
    return ([],false)
  | some .quit => do
    if line.typed 0 = 1 then
      writeMbr
    return ([quitQuestion],true)
  | some .exit => return ([],true)
  | some .help => return (helpText,false)
  | none => return ([unknownText],false)

-- The dialog ends with its commands quit and exit, or where nothing more is typed.
def vmLoop (behind : Nat → Word) : List VmLine → M (List Printed)
  | [] => return [prompt]
  | line :: rest => do
    let r ← execute behind line
    if r.2 then
      return prompt :: r.1
    else
      let more ← vmLoop behind rest
      return prompt :: (r.1 ++ more)

-- A program that calls init_mbr and goes on to its exit: what is printed, and the
-- status it ends with.
def started (ready : Bool) (work : M (List Printed)) : M (List Printed × Nat) := do
  let begun ← initMbr ready
  if begun.2 then
    let shown ← work
    return (begun.1 ++ shown,0)
  else
    return (begun.1,1)

def vm (ready : Bool) (behind : Nat → Word) (lines : List VmLine) : M (List Printed × Nat) := started ready (vmLoop behind lines)

-- The options of mkvol as getopt_long hands them over: whether sscanf finds a number
-- in the argument, and the one that atoi makes of it.
inductive MkvolOption where
  | help
  | sector (parsed : Bool) (number : Word)
  | cylinder (parsed : Bool) (number : Word)
  | size (parsed : Bool) (number : Word)
  | type (text : String)
  | other

structure MkvolArgs where
  cylinder : Word
  sector : Word
  size : Word
  volType : Word

def usage (programName : String) : Printed :=
  .out ("usage " ++ programName ++ " --cylinder first_cylinder --sector first_sector --size block_size --type volume_type\n")

def numberText (argument : String) : Printed := .err ("error - argument " ++ argument ++ " not an integer\n")
def typeText : Printed := .err "Could not parse volume type\n"

def volTypes : List (String × Word) := [("base",0),("annex",1),("other",2)]

-- The values given, or what is printed before the program ends, and its status.
def mkvolOptions (programName : String) (args : MkvolArgs) : List MkvolOption → Except (Printed × Nat) MkvolArgs
  | [] => .ok args
  | .help :: _ => .error (usage programName,0)
  | .sector parsed number :: rest =>
    if parsed then mkvolOptions programName {args with sector := number} rest else .error (numberText "sector",2)
  | .cylinder parsed number :: rest =>
    if parsed then mkvolOptions programName {args with cylinder := number} rest else .error (numberText "cylinder",2)
  | .size parsed number :: rest =>
    if parsed then mkvolOptions programName {args with size := number} rest else .error (numberText "size",2)
  | .type text :: rest =>
    match volTypes.lookup text with
    | some volType => mkvolOptions programName {args with volType := volType} rest
    | none => .error (typeText,2)
  | .other :: _ => .error (usage programName,1)

-- A question is asked where the value is negative; scanf leaves `typed`.
def asked (question : Printed) (value typed : Word) : List Printed × Word :=
  if value.toInt < 0 then ([question],typed) else ([],value)

def MkvolArgs.ask (args : MkvolArgs) (typed : MkvolArgs) : List Printed × MkvolArgs :=
  let cylinder := asked cylinderQuestion args.cylinder typed.cylinder
  let sector := asked sectorQuestion args.sector typed.sector
  let size := asked sizeQuestion args.size typed.size
  let volType := asked typeQuestion args.volType typed.volType
  (cylinder.1 ++ sector.1 ++ size.1 ++ volType.1,⟨cylinder.2,sector.2,size.2,volType.2⟩)

-- mkvol behind init_mbr: the questions, the volume, the list and the MBR.
def mkvolWork (behind : Nat → Word) (args typed : MkvolArgs) : M (List Printed) := do
  let given := args.ask typed
  let text ← create given.2.cylinder given.2.sector given.2.size given.2.volType
  let m ← get
  writeMbr
  return given.1 ++ (text ++ listVolumes behind m.mbr)

def mkvol (ready : Bool) (behind : Nat → Word) (programName : String) (options : List MkvolOption) (typed : MkvolArgs) :
    M (List Printed × Nat) :=
  match mkvolOptions programName ⟨-1,-1,-1,-1⟩ options with
  | .error ended => return ([ended.1],ended.2)
  | .ok args => started ready (mkvolWork behind args typed)

inductive ToolCall where
  | vm (ready : Bool) (lines : List VmLine)
  | mkvol (ready : Bool) (programName : String) (options : List MkvolOption) (typed : MkvolArgs)

def ToolCall.run (behind : Nat → Word) : ToolCall → M (List Printed × Nat)
  | .vm ready lines => AsePlusPlus.vm ready behind lines
  | .mkvol ready programName options typed => AsePlusPlus.mkvol ready behind programName options typed

-- Each tool is a process of its own, `m`, that finds the disk and nothing else.
inductive ToolStep : Machine → ToolCall × (List Printed × Nat) → Machine → Prop
  | ran {s m t : Machine} {behind : Nat → Word} {call : ToolCall} {shown : List Printed × Nat} (disk : m.hda.sectors = s.hda.sectors)
      (ended : call.run behind m = (.ok shown,t)) : ToolStep s (call,shown) t

-- What the tools mean: the list of volumes that has been saved, if any has, and the
-- one that is worked on.
structure Saved where
  live : List Vol
  marked : Bool

structure Draft where
  working : List Vol
  saved : Saved

def volumeRows (live : List Vol) : List Printed := volumeHeader :: live.mapIdx volumeRow

def Draft.create (d : Draft) (cylinder sector nsectors volType : Word) : List Printed × Draft :=
  if d.working.length = maxvol then ([quotaText],d) else ([],{d with working := d.working ++ [⟨cylinder,sector,nsectors,volType,0⟩]})

def Draft.delete (d : Draft) (number : Word) : List Printed × Draft :=
  if d.working.length ≤ number.toNat then ([missingText number],d) else ([],{d with working := d.working.eraseIdx number.toNat})

def Draft.save (d : Draft) : Draft := {d with saved := ⟨d.working,true⟩}

def Draft.execute (d : Draft) (line : VmLine) : (List Printed × Bool) × Draft :=
  match line.command with
  | some .list => ((volumeRows d.working,false),d)
  | some .new =>
    let r := d.create (line.typed 0) (line.typed 1) (line.typed 2) (line.typed 3)
    ((newQuestions ++ r.1,false),r.2)
  | some .del =>
    let r := d.delete (line.typed 0)
    ((numberQuestion :: r.1,false),r.2)
  | some .save => (([],false),d.save)
  | some .quit => (([quitQuestion],true),if line.typed 0 = 1 then d.save else d)
  | some .exit => (([],true),d)
  | some .help => ((helpText,false),d)
  | none => (([unknownText],false),d)

def Draft.dialog (d : Draft) : List VmLine → List Printed × Draft
  | [] => ([prompt],d)
  | line :: rest =>
    let r := d.execute line
    if r.1.2 then
      (prompt :: r.1.1,r.2)
    else
      let more := r.2.dialog rest
      (prompt :: (r.1.1 ++ more.1),more.2)

-- A tool starts to work on what has been saved, if it gets that far.
def Saved.begin (h : Saved) (ready : Bool) (work : Draft → List Printed × Draft) : (List Printed × Nat) × Saved :=
  if ready then
    let r := work ⟨h.live,h⟩
    (((if h.marked then [] else [blankText]) ++ r.1,0),r.2.saved)
  else
    (([hardwareText],1),h)

def Draft.enter (d : Draft) (args : MkvolArgs) : List Printed × Draft :=
  let r := d.create args.cylinder args.sector args.size args.volType
  (r.1 ++ volumeRows r.2.working,r.2.save)

-- What a call shows, and what it leaves saved.
def ToolCall.apply (h : Saved) : ToolCall → (List Printed × Nat) × Saved
  | .vm ready lines => h.begin ready fun d => d.dialog lines
  | .mkvol ready programName options typed =>
    match mkvolOptions programName ⟨-1,-1,-1,-1⟩ options with
    | .error ended => (([ended.1],ended.2),h)
    | .ok args => h.begin ready fun d => ((args.ask typed).1 ++ (d.enter (args.ask typed).2).1,(d.enter (args.ask typed).2).2)

def SavedStep (h : Saved) (call : ToolCall × (List Printed × Nat)) (g : Saved) : Prop := call.1.apply h = (call.2,g)

-- The disk has the table that was saved, and nothing marked as one before.
structure Keeps (s : Machine) (h : Saved) : Prop where
  listed : Listed s.recorded h.live
  marked : h.marked = true ↔ (Mbr.decode (s.hda.sectors 0)).magicNumber = mbrMagic

-- A process that works on the table, on a disk that was `o` when it began.
structure Drafted (o s : Machine) (d : Draft) : Prop where
  working : Listed s.mbr d.working
  magic : s.mbr.magicNumber = mbrMagic
  saved : Keeps s d.saved
  elsewhere : ∀ p, p ≠ 0 → s.hda.sectors p = o.hda.sectors p

variable {d : Draft}

theorem recorded_magic (s : Machine) : s.recorded.magicNumber = mbrMagic := by
  unfold Machine.recorded
  split
  · rfl
  · rename_i marked
    exact not_not.mp marked

theorem readMbrShown_exact (s : Machine) : readMbrShown s =
    (.ok (if (Mbr.decode (s.hda.sectors 0)).magicNumber ≠ mbrMagic then [blankText] else []),s.read) := by
  have positive : (512 : Nat) ≠ 0 := by decide
  have inside : (0 : Word).toNat % 65536 < 1024 ∧ (0 : Word).toNat % 65536 < 32 := by decide
  refine Runs.equal fun Q => ?_
  simp only [readMbrShown,readSector,readNsector,runs_bind,runs_ensure,if_pos positive,runs_seekSector inside.1 inside.2,
    cmdRead,runs_modify,runs_get,runs_pure,build_cell,runs_ite]
  unfold Machine.read Machine.recorded
  by_cases blank : (Mbr.decode (s.hda.sectors 0)).magicNumber ≠ mbrMagic
  · rw [if_pos blank,if_pos blank]
    exact iff_of_eq (if_pos blank)
  · rw [if_neg blank,if_neg blank]
    exact iff_of_eq (if_neg blank)

theorem readMbr_shown : readMbr = (do let _ ← readMbrShown; return ()) := by
  funext s
  rw [readMbr_exact,bind_ok (readMbrShown_exact s)]
  rfl

theorem Keeps.disk {h : Saved} (keeps : Keeps s h) (same : t.hda.sectors = s.hda.sectors) : Keeps t h := by
  obtain ⟨listed,marked⟩ := keeps
  unfold Machine.recorded at listed
  refine ⟨?_,by rw [same]; exact marked⟩
  unfold Machine.recorded
  rw [same]
  exact listed

-- read_mbr works on what has been saved, and tells where nothing has.
theorem runs_readMbrShown {h : Saved} (keeps : Keeps s h) : Returns readMbrShown s fun shown t =>
    shown = (if h.marked then [] else [blankText]) ∧ Drafted s t ⟨h.live,h⟩ := by
  rw [Returns,runs_eq (readMbrShown_exact s)]
  refine ⟨?_,keeps.listed,recorded_magic s,keeps.disk rfl,fun _ _ => rfl⟩
  by_cases marked : h.marked = true
  · rw [if_pos marked,if_neg (not_not.mpr (keeps.marked.mp marked))]
  · rw [if_neg marked,if_pos fun magic => marked (keeps.marked.mpr magic)]

-- A tool that begins and then works on the table.
theorem runs_started {h : Saved} {w : Draft → List Printed × Draft} {body : M (List Printed)} (keeps : Keeps s h) (ready : Bool)
    (works : ∀ t, Drafted s t ⟨h.live,h⟩ → Returns body t fun shown u => shown = (w ⟨h.live,h⟩).1 ∧ Drafted s u (w ⟨h.live,h⟩).2) :
    Returns (started ready body) s fun shown t => shown = (h.begin ready w).1 ∧ Keeps t (h.begin ready w).2 ∧
      ∀ p, p ≠ 0 → t.hda.sectors p = s.hda.sectors p := by
  unfold started initMbr Saved.begin
  rw [Returns,runs_bind]
  cases ready with
  | false => exact ⟨rfl,keeps,fun _ _ => rfl⟩
  | true =>
      rw [if_pos rfl,if_pos rfl,runs_bind]
      refine Runs.of_returns (runs_readMbrShown keeps) ?_
      intro shown t post
      obtain ⟨rfl,drafted⟩ := post
      rw [runs_pure,if_pos rfl,runs_bind]
      refine Runs.of_returns (works t drafted) ?_
      intro shown u post
      obtain ⟨rfl,after⟩ := post
      exact ⟨rfl,after.saved,after.elsewhere⟩

-- write_mbr saves what is worked on.
theorem runs_writeMbr_drafted (drafted : Drafted o s d) : Returns writeMbr s fun _ t => Drafted o t d.save := by
  have positive : (512 : Nat) ≠ 0 := by decide
  have inside : (0 : Word).toNat % 65536 < 1024 ∧ (0 : Word).toNat % 65536 < 32 := by decide
  simp only [writeMbr,writeSector,writeNsector,cmdWrite,Returns,runs_bind,runs_get,runs_ensure,if_pos drafted.magic,if_pos positive,
    runs_modify,runs_seekSector inside.1 inside.2]
  have origin : (0 : Word).toNat % 65536 * 32 + (0 : Word).toNat % 65536 = 0 := by decide
  rw [origin]
  refine ⟨drafted.working,drafted.magic,?_,fun p other => (if_neg other).trans (drafted.elsewhere p other)⟩
  generalize new : (fun p => if p = 0 then overlay (overlay s.mbr.encode (zeros 8 512)) s.hda.master else s.hda.sectors p) = sectors
  have first : Mbr.decode (sectors 0) = s.mbr := by
    have value : sectors 0 = overlay (overlay s.mbr.encode (zeros 8 512)) s.hda.master := by
      rw [← new]
      exact if_pos rfl
    rw [value,overlay_same]
    exact Mbr.decode_encode _ _
  refine ⟨?_,iff_of_true rfl (by rw [first]; exact drafted.magic)⟩
  unfold Machine.recorded
  rw [first,if_neg (not_not.mpr drafted.magic)]
  exact drafted.working

theorem listVolumes_listed {m : Mbr} (listed : Listed m live) : listVolumes behind m = volumeRows live := by
  have room := listed.room
  unfold listVolumes volumeRows
  rw [listed.count]
  refine congrArg (volumeHeader :: ·) (List.ext_getElem (by simp) fun i one two => ?_)
  rw [List.length_mapIdx] at two
  rw [List.getElem_map,List.getElem_range,List.getElem_mapIdx,slot_inside _ _ (by omega),listed.slots i two]

theorem createVolume_magic (t : VolTable) (cylinder sector nsectors volType : Word) :
    (createVolume cylinder sector nsectors volType t).mbr.magicNumber = t.mbr.magicNumber := by
  unfold createVolume
  split <;> rfl

theorem deleteVolume_magic (behind : Nat → Word) (t : VolTable) (number : Word) :
    (deleteVolume behind number t).mbr.magicNumber = t.mbr.magicNumber := by
  unfold deleteVolume
  split
  · rfl
  · exact shiftVols_magic behind _ _ _

section drafted
variable (drafted : Drafted o s d)
include drafted

theorem runs_create (cylinder sector nsectors volType : Word) : Returns (create cylinder sector nsectors volType) s fun text t =>
    text = (d.create cylinder sector nsectors volType).1 ∧ Drafted o t (d.create cylinder sector nsectors volType).2 := by
  have listed := createVolume_listed (t := ⟨s.mbr,[]⟩) drafted.working cylinder sector nsectors volType
  have magic := (createVolume_magic ⟨s.mbr,[]⟩ cylinder sector nsectors volType).trans drafted.magic
  have count := drafted.working.count
  simp only [create,Returns,runs_bind,runs_get,runs_modify,runs_pure,Draft.create]
  rw [count]
  dsimp only [VolumeCall.apply] at listed
  by_cases full : d.working.length = maxvol
  · rw [if_pos full] at listed
    rw [if_pos full,if_pos full]
    exact ⟨rfl,listed,magic,drafted.saved.disk rfl,drafted.elsewhere⟩
  · rw [if_neg full] at listed
    rw [if_neg full,if_neg full]
    exact ⟨rfl,listed,magic,drafted.saved.disk rfl,drafted.elsewhere⟩

theorem runs_delete (behind : Nat → Word) (number : Word) : Returns (delete behind number) s fun text t =>
    text = (d.delete number).1 ∧ Drafted o t (d.delete number).2 := by
  have listed := deleteVolume_listed (t := ⟨s.mbr,[]⟩) drafted.working behind number
  have magic := (deleteVolume_magic behind ⟨s.mbr,[]⟩ number).trans drafted.magic
  have count := drafted.working.count
  have missing : s.mbr.nbvols ≤ number ↔ d.working.length ≤ number.toNat := by
    rw [BitVec.le_def,count]
  simp only [delete,Returns,runs_bind,runs_get,runs_modify,runs_pure,Draft.delete,missing]
  by_cases beyond : d.working.length ≤ number.toNat
  · rw [List.eraseIdx_of_length_le beyond] at listed
    rw [if_pos beyond,if_pos beyond]
    exact ⟨rfl,listed,magic,drafted.saved.disk rfl,drafted.elsewhere⟩
  · rw [if_neg beyond,if_neg beyond]
    exact ⟨rfl,listed,magic,drafted.saved.disk rfl,drafted.elsewhere⟩

theorem runs_execute (behind : Nat → Word) (line : VmLine) : Returns (execute behind line) s fun r t =>
    r = (d.execute line).1 ∧ Drafted o t (d.execute line).2 := by
  unfold execute Draft.execute
  cases line.command with
  | none => exact ⟨rfl,drafted⟩
  | some command =>
      cases command with
      | list =>
          simp only [Returns,runs_bind,runs_get,runs_pure]
          rw [listVolumes_listed drafted.working]
          exact ⟨rfl,drafted⟩
      | new =>
          rw [Returns,runs_bind]
          refine Runs.of_returns (runs_create drafted _ _ _ _) ?_
          intro text t post
          exact ⟨congrArg (newQuestions ++ ·,false) post.1,post.2⟩
      | del =>
          rw [Returns,runs_bind]
          refine Runs.of_returns (runs_delete drafted behind _) ?_
          intro text t post
          exact ⟨congrArg (numberQuestion :: ·,false) post.1,post.2⟩
      | save =>
          rw [Returns,runs_bind]
          refine Runs.of_returns (runs_writeMbr_drafted drafted) ?_
          intro _ t after
          exact ⟨rfl,after⟩
      | quit =>
          by_cases yes : line.typed 0 = 1
          · simp only [if_pos yes,Returns,runs_bind]
            refine Runs.of_returns (runs_writeMbr_drafted drafted) ?_
            intro _ t after
            exact ⟨rfl,after⟩
          · rw [if_neg yes,if_neg yes]
            exact ⟨rfl,drafted⟩
      | exit => exact ⟨rfl,drafted⟩
      | help => exact ⟨rfl,drafted⟩

end drafted

theorem runs_vmLoop (behind : Nat → Word) (lines : List VmLine) (drafted : Drafted o s d) : Returns (vmLoop behind lines) s fun r t =>
    r = (d.dialog lines).1 ∧ Drafted o t (d.dialog lines).2 := by
  induction lines generalizing s d with
  | nil => exact ⟨rfl,drafted⟩
  | cons line rest ih =>
      rw [vmLoop,Draft.dialog,Returns,runs_bind]
      refine Runs.of_returns (runs_execute drafted behind line) ?_
      intro r t post
      obtain ⟨rfl,after⟩ := post
      dsimp only
      by_cases ends : (d.execute line).1.2 = true
      · rw [if_pos ends,if_pos ends]
        exact ⟨rfl,after⟩
      · rw [if_neg ends,if_neg ends,runs_bind]
        refine Runs.of_returns (ih after) ?_
        intro more u post
        exact ⟨congrArg (fun more => prompt :: ((d.execute line).1.1 ++ more)) post.1,post.2⟩

theorem runs_mkvolWork (behind : Nat → Word) (args typed : MkvolArgs) (drafted : Drafted o s d) :
    Returns (mkvolWork behind args typed) s fun shown t =>
      shown = (args.ask typed).1 ++ (d.enter (args.ask typed).2).1 ∧ Drafted o t (d.enter (args.ask typed).2).2 := by
  unfold mkvolWork
  rw [Returns,runs_bind]
  refine Runs.of_returns (runs_create drafted _ _ _ _) ?_
  intro text t post
  obtain ⟨rfl,after⟩ := post
  rw [runs_bind,runs_get,runs_bind,listVolumes_listed after.working]
  refine Runs.of_returns (runs_writeMbr_drafted after) ?_
  intro _ u last
  exact ⟨rfl,last⟩

-- What a tool prints is what the list says, and it leaves the list that it saved.
theorem ToolCall.runs {h : Saved} (call : ToolCall) (keeps : Keeps s h) : Returns (call.run behind) s fun shown t =>
    shown = (call.apply h).1 ∧ Keeps t (call.apply h).2 ∧ ∀ p, p ≠ 0 → t.hda.sectors p = s.hda.sectors p := by
  cases call with
  | vm ready lines => exact runs_started (w := fun d => d.dialog lines) keeps ready fun t drafted => runs_vmLoop behind lines drafted
  | mkvol ready programName options typed =>
      unfold ToolCall.run AsePlusPlus.mkvol ToolCall.apply
      dsimp only
      cases mkvolOptions programName ⟨-1,-1,-1,-1⟩ options with
      | error ended => exact ⟨rfl,keeps,fun _ _ => rfl⟩
      | ok args => exact runs_started keeps ready fun t drafted => runs_mkvolWork behind args typed drafted

-- Over any sequence of sessions with vm and calls of mkvol the disk holds the list
-- of volumes that the last save has left: every tool ends, prints what the list
-- says, and touches no sector but that of the table.
theorem tools_keep_list {h : Saved} {past : List (Machine × (ToolCall × (List Printed × Nat)))} (keeps : Keeps s h)
    (run : Run ToolStep s past t) : ∃ g images, Run SavedStep h images g ∧ Keeps t g ∧
      (∀ p, p ≠ 0 → t.hda.sectors p = s.hda.sectors p) ∧
      List.Forall₂ (fun entry image => Keeps entry.1 image.1 ∧ image.2 = entry.2) past images ∧
      ∀ call : ToolCall, ∃ shown u, ToolStep t (call,shown) u := by
  have mirror : ∀ (t : Machine) (c : ToolCall × (List Printed × Nat)) (u : Machine) (h : Saved),
      (Keeps t h ∧ ∀ p, p ≠ 0 → t.hda.sectors p = s.hda.sectors p) → True → ToolStep t c u →
      ∃ a g, SavedStep h a g ∧ a = c ∧ Keeps u g ∧ ∀ p, p ≠ 0 → u.hda.sectors p = s.hda.sectors p := by
    intro t c u h state _ taken
    obtain ⟨disk,ended⟩ := taken
    rename_i m behind call shown
    obtain ⟨told,after,elsewhere⟩ := (call.runs (state.1.disk disk)).result ended
    have applied : SavedStep h (call,shown) (call.apply h).2 := Prod.ext told.symm rfl
    refine ⟨(call,shown),_,applied,rfl,after,fun p other => ?_⟩
    rw [elsewhere p other,disk]
    exact state.2 p other
  obtain ⟨g,images,went,⟨after,elsewhere⟩,pairs⟩ := run.mirrored (fun _ _ => True) _ (fun _ c a => a = c) mirror
    ⟨keeps,fun _ _ => rfl⟩ fun _ _ => trivial
  refine ⟨g,images,went,after,elsewhere,pairs.imp fun _ _ pair => ⟨pair.1.1,pair.2⟩,fun call => ?_⟩
  have returns : Returns (call.run fun _ => 0) t _ := call.runs after
  obtain ⟨shown,u,ended,_⟩ := returns_iff.mp returns
  exact ⟨shown,u,.ran rfl ended⟩

-- A dialog that makes two volumes, saves, lists them, and deletes the first without
-- saving.
def firstDialog : List VmLine := [
  ⟨"new",fun i => if i = 0 then 1 else if i = 2 then 64 else 0⟩,
  ⟨"new",fun i => if i = 0 then 3 else if i = 2 then 32 else 1⟩,
  ⟨"save",fun _ => 0⟩,
  ⟨"list",fun _ => 0⟩,
  ⟨"del",fun _ => 0⟩,
  ⟨"quit",fun _ => 2⟩]

-- On a blank disk, and mkvol without a type behind it.
theorem tools_keep_list_saved : ∃ t u, ToolStep blankDisk (.vm true firstDialog,
      ([blankText,prompt] ++ newQuestions ++ [prompt] ++ newQuestions ++ [prompt,prompt,volumeHeader,volumeRow 0 ⟨1,0,64,0,0⟩,
        volumeRow 1 ⟨3,1,32,1,0⟩,prompt,numberQuestion,prompt,quitQuestion],0)) t ∧
    ToolStep t (.mkvol true "mkvol" [.cylinder true 5,.sector true 0,.size true 16] ⟨0,0,0,2⟩,
      ([typeQuestion,volumeHeader,volumeRow 0 ⟨1,0,64,0,0⟩,volumeRow 1 ⟨3,1,32,1,0⟩,volumeRow 2 ⟨5,0,16,2,0⟩],0)) u ∧
    Keeps u ⟨[⟨1,0,64,0,0⟩,⟨3,1,32,1,0⟩,⟨5,0,16,2,0⟩],true⟩ := by
  have blank : (Mbr.decode (blankDisk.hda.sectors 0)).magicNumber = 0 := wordAt_zeros 41
  have keeps : Keeps blankDisk ⟨[],false⟩ := by
    refine ⟨?_,iff_of_false (by decide) (by rw [blank]; decide)⟩
    rw [blankDisk_recorded]
    exact ⟨rfl,by decide,fun i inside => absurd inside (Nat.not_lt_zero i)⟩
  generalize blankDisk = s at keeps ⊢
  have shows : ∀ {s : Machine} {h : Saved}, Keeps s h → ∀ call : ToolCall, ∃ t, ToolStep s (call,(call.apply h).1) t ∧ Keeps t (call.apply h).2 := by
    intro s h keeps call
    obtain ⟨_,_,_,_,_,_,progress⟩ := tools_keep_list keeps (.start s)
    obtain ⟨shown,t,taken⟩ := progress call
    obtain ⟨g,images,went,after,_,pairs,_⟩ := tools_keep_list keeps (.single taken)
    refine ⟨t,?_⟩
    cases pairs with
    | cons pair rest =>
        cases rest
        obtain ⟨_,moved⟩ := run_one went
        have asked := pair.2
        unfold SavedStep at moved
        rw [asked] at moved
        rw [moved]
        exact ⟨taken,after⟩
  obtain ⟨t,first,middle⟩ := shows keeps (.vm true firstDialog)
  obtain ⟨u,second,after⟩ := shows middle (.mkvol true "mkvol" [.cylinder true 5,.sector true 0,.size true 16] ⟨0,0,0,2⟩)
  exact ⟨t,u,first,second,after⟩

end AsePlusPlus
