import AsePlusPlus.Lib.Trace
import AsePlusPlus.Canonical
import AsePlusPlus.File

namespace AsePlusPlus
open Words Program Trace

-- The variables that hold a descriptor: the fd (or dfd) and sfd of the builtin
-- that a process runs, and those of a program that uses the file library itself.
inductive Var where
  | fd (p : Nat)
  | sfd (p : Nat)
  | own (d : Nat)
  deriving DecidableEq

-- What the commands call. `eof` is the test at the head of read_ifile, `chdir`
-- the strcpy of do_cd.
inductive FileCall where
  | createFile (path : List Byte) (type : FileType)
  | deleteFile (path : List Byte)
  | inumberOfPath (path : List Byte)
  | openFile (v : Var) (path : List Byte)
  | openIfile (v : Var) (inumber : Word)
  | eof (v : Var)
  | readc (v : Var)
  | writec (v : Var) (c : Byte)
  | close (v : Var)
  | readInode (inumber : Word)
  | chdir (target : List Byte)

def newline : Byte := 10

-- Where the code of a command stands, by the call that it makes next.
inductive Work where
  | idle
  | stuck
  | once (call : FileCall)
  | readFile (v : Var) (nbyte : Nat)
  | reads (v : Var) (left : Nat)
  | writes (v : Var) (c : Byte) (rest : List Byte)
  | cd (target : List Byte)
  | cat (target : List Byte)
  | catRead
  | ls (target : List Byte) (entry : Vector Byte 20)
  | lsEntry (left : Nat) (entry : Vector Byte 20)
  | lsByte (left : Nat) (entry : Vector Byte 20) (i : Nat)
  | lsInode (left : Nat) (entry : Vector Byte 20)
  | ed (target text : List Byte)
  | edOpen (inumber : Word) (text : List Byte)
  | edWrite (text : List Byte)
  | compute (target : List Byte) (max : Int)
  | computeOpen (inumber : Word) (max : Int)
  | computeWrite (max : Int) (i j : Nat)
  | cp (source dest : List Byte)
  | cpOpen (source : List Byte) (inumber : Word)
  | cpSource (source : List Byte)
  | cpRead
  | cpWrite (c : Byte)
  | cpClose

-- A volume, the descriptors by variable (none where nothing has been stored yet),
-- and what each process runs.
structure Desk where
  machine : Machine
  descs : Var → Option FileDesc
  work : Nat → Work

def Work.call (p : Nat) : Work → Option FileCall
  | .idle | .stuck => none
  | .once c => some c
  | .readFile v _ => some (.eof v)
  | .reads v _ => some (.readc v)
  | .writes v c _ => some (.writec v c)
  | .cd target => some (.inumberOfPath target)
  | .cat target => some (.openFile (.fd p) target)
  | .catRead => some (.readc (.fd p))
  | .ls target _ => some (.openFile (.fd p) target)
  | .lsEntry left _ => some (if left = 0 then .close (.fd p) else .eof (.fd p))
  | .lsByte _ _ _ => some (.readc (.fd p))
  | .lsInode _ entry => some (.readInode (Entry.decode entry).entInumber)
  | .ed target _ => some (.createFile target .file)
  | .edOpen inumber _ => some (.openIfile (.fd p) inumber)
  | .edWrite (c :: _) => some (.writec (.fd p) c)
  | .edWrite [] => some (.close (.fd p))
  | .compute target _ => some (.createFile target .file)
  | .computeOpen inumber _ => some (.openIfile (.fd p) inumber)
  | .computeWrite max i j => some (if max < i then .close (.fd p) else .writec (.fd p) (if j < i then dot else newline))
  | .cp _ dest => some (.createFile dest .file)
  | .cpOpen _ inumber => some (.openIfile (.fd p) inumber)
  | .cpSource source => some (.openFile (.sfd p) source)
  | .cpRead => some (.readc (.sfd p))
  | .cpWrite c => some (.writec (.fd p) c)
  | .cpClose => some (.close (.fd p))

def readsOf (v : Var) (left : Nat) : Work := if left = 0 then .idle else .reads v left

-- Where the code goes on with what the call has returned. list_directory and
-- do_compute do not look whether they have a file, and do_ed and do_compute not
-- whether the byte was written.
def Work.after (p : Nat) (r : Word) : Work → Work
  | .idle => .idle
  | .stuck => .stuck
  | .once _ => .idle
  | .readFile v nbyte => if r = readEof then .idle else readsOf v nbyte
  | .reads v left => if r = readEof then .idle else readsOf v (left-1)
  | .writes _ _ [] => .idle
  | .writes v _ (c :: rest) => if r = returnFailure then .idle else .writes v c rest
  | .cd target => if r = 0 then .idle else .once (.chdir target)
  | .cat _ => if r = returnFailure then .idle else .catRead
  | .catRead => if r = readEof then .once (.close (.fd p)) else .catRead
  | .ls _ entry => .lsEntry 16 entry
  | .lsEntry left entry =>
    if left = 0 then .idle
    else if r = readEof then .once (.close (.fd p))
    else .lsByte left entry 0
  | .lsByte left entry i =>
    if r = readEof then .lsInode left entry
    else if i = 19 then .lsInode left (put entry i (r.setWidth 8))
    else .lsByte left (put entry i (r.setWidth 8)) (i+1)
  | .lsInode left entry => .lsEntry (left-1) entry
  | .ed _ text => if r = returnFailure then .idle else .edOpen r text
  | .edOpen _ text => if r ≠ returnSuccess then .idle else .edWrite text
  | .edWrite (_ :: rest) => .edWrite rest
  | .edWrite [] => .idle
  | .compute _ max => .computeOpen r max
  | .computeOpen _ max => if r ≠ returnSuccess then .idle else .computeWrite max 0 0
  | .computeWrite max i j =>
    if max < i then .idle
    else if j < i then .computeWrite max i (j+1)
    else .computeWrite max (i+1) 0
  | .cp source _ => if r = returnFailure then .idle else .cpOpen source r
  | .cpOpen source _ => if r ≠ returnSuccess then .idle else .cpSource source
  | .cpSource _ => if r ≠ returnSuccess then .idle else .cpRead
  | .cpRead => if r = readEof then .cpClose else .cpWrite (r.setWidth 8)
  | .cpWrite _ => .cpRead
  | .cpClose => .once (.close (.sfd p))

-- What a variable holds: where nothing has been stored yet, what the stack does.
def Desk.var (h : Desk) (v : Var) : FileDesc := (h.descs v).getD h.machine.frame.desc

def FileCall.run (h : Desk) : FileCall → M (Word × (Var → Option FileDesc))
  | .createFile path type => do
    let r ← AsePlusPlus.createFile path type
    return (r,h.descs)
  | .deleteFile path => do
    let r ← AsePlusPlus.deleteFile path
    return (r,h.descs)
  | .inumberOfPath path => do
    let r ← AsePlusPlus.inumberOfPath path
    return (r,h.descs)
  | .openFile v path => do
    let (r,fd) ← AsePlusPlus.openFile (h.var v) path
    return (r,if r = returnSuccess then Function.update h.descs v (some fd) else h.descs)
  | .openIfile v inumber => do
    let (r,fd) ← AsePlusPlus.openIfile inumber
    return (r,Function.update h.descs v (some fd))
  | .eof v => return (if (h.var v).fdsSize ≤ (h.var v).fdsPos then readEof else 0,h.descs)
  | .readc v => do
    let (c,fd) ← readcFile (h.var v)
    return (c,Function.update h.descs v (some fd))
  | .writec v c => do
    let (r,fd) ← writecFile (h.var v) c
    return (r,Function.update h.descs v (some fd))
  | .close v => do
    let fd ← closeFile (h.var v)
    return (0,Function.update h.descs v (some fd))
  | .readInode inumber => do
    let inode ← AsePlusPlus.readInode inumber
    return (inode.type,h.descs)
  | .chdir target => do
    modify fun m => {m with cwd := target}
    return (0,h.descs)

-- What is asked for: a call of the file library, or a line for one of the
-- builtins, with the words that sscanf finds in it and the text that ed is given.
inductive Order where
  | createFile (path : List Byte) (type : FileType)
  | deleteFile (path : List Byte)
  | openFile (d : Nat) (path : List Byte)
  | readcFile (d : Nat)
  | readFile (d nbyte : Nat)
  | writecFile (d : Nat) (c : Byte)
  | writeFile (d : Nat) (text : List Byte)
  | closeFile (d : Nat)
  | cat (arguments : List Byte)
  | cd (arguments : List Byte)
  | compute (max : Int) (path : Option (List Byte))
  | cp (words : List (List Byte))
  | ed (arguments text : List Byte)
  | ls (arguments : List Byte)
  | mkdir (arguments : List Byte)
  | rm (arguments : List Byte)

-- do_cp, which does not see that a word is missing.
def cpWork (m : Machine) (source dest : List Byte) : Option Work := do
  let canonicalSource ← canonicalPath m.cwd source
  let canonicalDest ← canonicalPath m.cwd dest
  return .cp canonicalSource canonicalDest

-- Up to the first call; none where a text does not fit its buffer.
def Order.start (m : Machine) : Order → Option Work
  | .createFile path type => some (.once (.createFile path type))
  | .deleteFile path => some (.once (.deleteFile path))
  | .openFile d path => some (.once (.openFile (.own d) path))
  | .readcFile d => some (.once (.readc (.own d)))
  | .readFile d nbyte => some (.readFile (.own d) nbyte)
  | .writecFile d c => some (.once (.writec (.own d) c))
  | .writeFile _ [] => some .idle
  | .writeFile d (c :: rest) => some (.writes (.own d) c rest)
  | .closeFile d => some (.once (.close (.own d)))
  | .cat arguments => (canonicalPath m.cwd arguments).map .cat
  | .cd arguments => do
    let target ← canonicalPath m.cwd arguments
    (closed target).map .cd
  | .compute _ none => some .idle
  | .compute max (some path) => (canonicalPath m.cwd path).map (.compute · max)
  | .cp [] => some .idle
  | .cp [source] => cpWork m source m.frame.text
  | .cp (source :: dest :: _) => cpWork m source dest
  | .ed arguments text => (canonicalPath m.cwd arguments).map (.ed · text)
  | .ls arguments => (canonicalPath m.cwd arguments).map (.ls · m.frame.entry)
  | .mkdir arguments => (canonicalPath m.cwd arguments).map fun target => .once (.createFile target .directory)
  | .rm arguments => (canonicalPath m.cwd arguments).map fun target => .once (.deleteFile target)

-- A command that is about to run has written none of its own variables.
def Desk.cleared (h : Desk) (p : Nat) : Var → Option FileDesc :=
  fun v => if v = .fd p ∨ v = .sfd p then none else h.descs v

inductive DeskAct where
  | order (p : Nat) (o : Order)
  | call (p : Nat)

-- A process takes an order, or makes its next call: that returns, or stops the
-- program. do_compute sleeps between its calls, and others go on meanwhile. A text
-- that does not fit its buffer has no limit to its effect.
inductive DeskStep : Desk → DeskAct → Desk → Prop
  | order {h : Desk} {p : Nat} {o : Order} {work : Work} (idle : h.work p = .idle) (begun : o.start h.machine = some work) :
      DeskStep h (.order p o) ⟨h.machine,h.cleared p,Function.update h.work p work⟩
  | overruns {h k : Desk} {p : Nat} {o : Order} (idle : h.work p = .idle) (long : o.start h.machine = none) :
      DeskStep h (.order p o) k
  | returns {h : Desk} {p : Nat} {c : FileCall} {r : Word} {descs : Var → Option FileDesc} {t : Machine}
      (next : (h.work p).call p = some c) (ran : c.run h h.machine = (.ok (r,descs),t)) :
      DeskStep h (.call p) ⟨t,descs,Function.update h.work p ((h.work p).after p r)⟩
  | stops {h : Desk} {p : Nat} {c : FileCall} {e : Stop} {t : Machine} (next : (h.work p).call p = some c)
      (ran : c.run h h.machine = (.error e,t)) : DeskStep h (.call p) ⟨t,h.descs,fun _ => .stuck⟩

end AsePlusPlus
