import AsePlusPlus.Lib.Trace
import AsePlusPlus.Canonical
import AsePlusPlus.Kernel

namespace AsePlusPlus
open Words Trace

variable {mem before text rest word line name : List Byte} {commands : List (List Byte)} {i n p q : Nat}

def ampersand : Byte := 38

-- readline's macro
def whitespace (c : Byte) : Bool := c = 32 || c = 9

-- The C string at an offset, and the two loops over a line.
def textAt (mem : List Byte) (i : Nat) : List Byte := (mem.drop i).takeWhile (· ≠ 0)
def skipSpaces (mem : List Byte) (i : Nat) : Nat := i+((mem.drop i).takeWhile whitespace).length
def skipWord (mem : List Byte) (i : Nat) : Nat := i+((mem.drop i).takeWhile fun c => c ≠ 0 && !whitespace c).length

-- strcpy(cmdline_cpy, cmdline) into an array that has just been zeroed; a longer
-- line goes on behind its end.
def strcpy (line : List Byte) : List Byte := line ++ 0 :: List.replicate (maxprompt-1-line.length) 0

-- strchr(command_line, '&')
def isBackground (mem : List Byte) : Prop := ampersand ∈ textAt mem 0

instance (mem : List Byte) : Decidable (isBackground mem) := inferInstanceAs (Decidable (_ ∈ _))

-- eval up to the call of the command: the word that find_command is given, the
-- line as it is left, and the pointer that the command gets.
def isolate (mem : List Byte) (line : Nat) : List Byte × List Byte × Nat :=
  let word := skipSpaces mem line
  let i := skipWord mem word
  if mem[i]?.getD 0 ≠ 0 then
    let mem := mem.set i 0
    (textAt mem word,mem,skipSpaces mem (i+1))
  else
    (textAt mem word,mem,skipSpaces mem i)

def findCommand (commands : List (List Byte)) (name : List Byte) : Option Nat := commands.findIdx? (· = name)

-- What a line asks for: its first word, and what stands behind the blanks after it.
def firstWord (text : List Byte) : List Byte := (text.dropWhile whitespace).takeWhile (!whitespace ·)
def argumentsOf (text : List Byte) : List Byte :=
  ((text.dropWhile whitespace).dropWhile (!whitespace ·)).tail.dropWhile whitespace

theorem textAt_here (before rest : List Byte) (plain : 0 ∉ text) : textAt (before ++ text ++ 0 :: rest) before.length = text := by
  unfold textAt
  rw [List.append_assoc,List.drop_left,List.takeWhile_append_of_pos]
  · rw [List.takeWhile_cons_of_neg (by simp),List.append_nil]
  · intro c member
    have live : c ≠ 0 := by
      intro null
      subst null
      exact plain member
    simpa using live

theorem textAt_strcpy (plain : 0 ∉ line) : textAt (strcpy line) 0 = line := by
  have here := textAt_here [] (List.replicate (maxprompt-1-line.length) 0) plain
  rw [List.nil_append,List.length_nil] at here
  exact here

theorem textAt_tail (plain : 0 ∉ line) (some : line ≠ []) : textAt (strcpy line) 1 = line.tail := by
  cases line with
  | nil => exact absurd rfl some
  | cons c more =>
      have away : 0 ∉ more := fun member => plain (List.mem_cons_of_mem c member)
      exact textAt_here [c] (List.replicate (maxprompt-1-(c :: more).length) 0) away

theorem skipSpaces_here (before rest : List Byte) (other : ∀ c, text.head? = some c → whitespace c = false) (blank : ∀ c ∈ word, whitespace c = true) :
    skipSpaces (before ++ word ++ (text ++ 0 :: rest)) before.length = before.length+word.length := by
  unfold skipSpaces
  rw [List.append_assoc,List.drop_left,List.takeWhile_append_of_pos blank]
  cases text with
  | nil => rw [List.nil_append,List.takeWhile_cons_of_neg (by decide),List.append_nil]
  | cons c more => rw [List.cons_append,List.takeWhile_cons_of_neg (by simp [other c rfl]),List.append_nil]

theorem skipWord_here (before rest : List Byte) (other : ∀ c, text.head? = some c → whitespace c = true)
    (letters : ∀ c ∈ word, c ≠ 0 ∧ whitespace c = false) :
    skipWord (before ++ word ++ (text ++ 0 :: rest)) before.length = before.length+word.length := by
  unfold skipWord
  rw [List.append_assoc,List.drop_left,List.takeWhile_append_of_pos]
  · cases text with
    | nil => rw [List.nil_append,List.takeWhile_cons_of_neg (by decide),List.append_nil]
    | cons c more => rw [List.cons_append,List.takeWhile_cons_of_neg (by simp [other c rfl]),List.append_nil]
  · intro c member
    obtain ⟨live,letter⟩ := letters c member
    rw [letter,Bool.not_false,Bool.and_true]
    exact decide_eq_true live

-- A line read and cut in place is read as it stands: the command finds its own
-- word and its own arguments.
theorem isolate_word {blanks more : List Byte} (blank : ∀ c ∈ blanks, whitespace c = true)
    (letter : ∀ c ∈ word, c ≠ 0 ∧ whitespace c = false) (start : ∀ c, (word ++ more).head? = some c → whitespace c = false)
    (stop : ∀ c, more.head? = some c → whitespace c = true) (plain : 0 ∉ more) :
    ∃ mem a, isolate (before ++ (blanks ++ (word ++ more)) ++ 0 :: rest) before.length = (word,mem,a) ∧
      textAt mem a = more.tail.dropWhile whitespace := by
  have live : 0 ∉ word := fun member => (letter 0 member).1 rfl
  have first : skipSpaces (before ++ (blanks ++ (word ++ more)) ++ 0 :: rest) before.length = (before ++ blanks).length := by
    have here := skipSpaces_here before rest start blank
    rw [List.length_append,← here]
    simp only [List.append_assoc]
  have second : skipWord (before ++ (blanks ++ (word ++ more)) ++ 0 :: rest) (before ++ blanks).length =
      (before ++ blanks ++ word).length := by
    have here := skipWord_here (before ++ blanks) rest stop letter
    have length : (before ++ blanks ++ word).length = (before ++ blanks).length+word.length := List.length_append
    rw [length,← here]
    simp only [List.append_assoc]
  unfold isolate
  dsimp only
  rw [first,second]
  cases more with
  | nil =>
      have whole : before ++ (blanks ++ (word ++ [])) ++ 0 :: rest = before ++ blanks ++ word ++ 0 :: rest := by
        simp only [List.append_nil,List.append_assoc]
      rw [whole]
      have null : (before ++ blanks ++ word ++ 0 :: rest)[(before ++ blanks ++ word).length]?.getD 0 = 0 := by
        rw [List.getElem?_append_right (Nat.le_refl _),Nat.sub_self]
        rfl
      have still : skipSpaces (before ++ blanks ++ word ++ 0 :: rest) (before ++ blanks ++ word).length =
          (before ++ blanks ++ word).length := by
        have here := skipSpaces_here (before ++ blanks ++ word) rest (fun c none => by cases (none : List.head? [] = some c))
          fun c none => absurd none (List.not_mem_nil : c ∉ ([] : List Byte))
        rw [List.append_nil] at here
        exact here
      rw [if_neg (not_not_intro null),textAt_here _ _ live,still]
      refine ⟨_,_,rfl,?_⟩
      have here := textAt_here (before ++ blanks ++ word) rest (List.not_mem_nil : 0 ∉ ([] : List Byte))
      rw [List.append_nil] at here
      exact here
  | cons c tail =>
      have whole : before ++ (blanks ++ (word ++ c :: tail)) ++ 0 :: rest = before ++ blanks ++ word ++ c :: (tail ++ 0 :: rest) := by
        simp only [List.append_assoc,List.cons_append]
      have char : (before ++ blanks ++ word ++ c :: (tail ++ 0 :: rest))[(before ++ blanks ++ word).length]?.getD 0 = c := by
        rw [List.getElem?_append_right (Nat.le_refl _),Nat.sub_self]
        rfl
      have real : c ≠ 0 := by
        intro null
        subst null
        exact plain (List.mem_cons_self ..)
      have cut : (before ++ blanks ++ word ++ c :: (tail ++ 0 :: rest)).set (before ++ blanks ++ word).length 0 =
          before ++ blanks ++ word ++ 0 :: (tail ++ 0 :: rest) := by
        rw [List.set_append_right _ _ (Nat.le_refl _),Nat.sub_self]
        rfl
      rw [whole,char,if_pos real,cut,textAt_here _ _ live]
      refine ⟨_,_,rfl,?_⟩
      have split : tail.takeWhile whitespace ++ tail.dropWhile whitespace = tail := List.takeWhile_append_dropWhile
      have spaces : ∀ d ∈ tail.takeWhile whitespace, whitespace d = true := fun d member => List.mem_takeWhile_imp member
      have next := List.head?_dropWhile_not whitespace tail
      rw [List.tail_cons]
      have away : 0 ∉ tail.dropWhile whitespace := fun member =>
        plain (List.mem_cons_of_mem c ((List.dropWhile_sublist _).subset member))
      generalize tail.takeWhile whitespace = gap at split spaces
      generalize tail.dropWhile whitespace = last at split next away ⊢
      subst split
      have other : ∀ d, last.head? = some d → whitespace d = false := by
        intro d found
        rw [found] at next
        exact next
      have here := skipSpaces_here (before ++ blanks ++ word ++ [0]) rest other spaces
      have reads := textAt_here (before ++ blanks ++ word ++ [0] ++ gap) rest away
      have same : before ++ blanks ++ word ++ 0 :: (gap ++ last ++ 0 :: rest) =
          before ++ blanks ++ word ++ [0] ++ gap ++ (last ++ 0 :: rest) := by
        simp only [List.append_assoc,List.cons_append,List.nil_append]
      have behind : (before ++ blanks ++ word).length+1 = (before ++ blanks ++ word ++ [0]).length := by
        simp only [List.length_append,List.length_singleton]
      rw [same,behind,here,← List.length_append,← List.append_assoc]
      exact reads

theorem isolate_here (before rest : List Byte) (plain : 0 ∉ text) : ∃ mem a,
    isolate (before ++ text ++ 0 :: rest) before.length = (firstWord text,mem,a) ∧ textAt mem a = argumentsOf text := by
  have split : text.takeWhile whitespace ++ text.dropWhile whitespace = text := List.takeWhile_append_dropWhile
  have blank : ∀ c ∈ text.takeWhile whitespace, whitespace c = true := fun c member => List.mem_takeWhile_imp member
  have start := List.head?_dropWhile_not whitespace text
  unfold firstWord argumentsOf
  generalize text.takeWhile whitespace = blanks at split blank
  generalize text.dropWhile whitespace = body at split start ⊢
  subst split
  have cut : body.takeWhile (!whitespace ·) ++ body.dropWhile (!whitespace ·) = body := List.takeWhile_append_dropWhile
  have letter : ∀ c ∈ body.takeWhile (!whitespace ·), whitespace c = false := fun c member => by
    simpa using List.mem_takeWhile_imp member
  have stop := List.head?_dropWhile_not (!whitespace ·) body
  generalize body.takeWhile (!whitespace ·) = word at cut letter ⊢
  generalize body.dropWhile (!whitespace ·) = more at cut stop ⊢
  subst cut
  have live : ∀ c, c ∈ word ++ more → c ≠ 0 := by
    intro c member null
    subst null
    exact plain (List.mem_append_right _ member)
  refine isolate_word blank (fun c member => ⟨live c (List.mem_append_left _ member),letter c member⟩) ?_ ?_ ?_
  · intro c found
    rw [found] at start
    exact start
  · intro c found
    rw [found] at stop
    simpa using stop
  · exact fun member => live 0 (List.mem_append_right _ member) rfl

-- The functions that shell.c starts in contexts, and the argument.
inductive Routine where
  | shellLoop
  | eval (line : Nat)

-- Where the code of a context stands: not called yet, in readline, behind
-- strcpy, in eval, in the command, returned.
inductive Spot where
  | outside
  | prompt
  | copied
  | evaluates (line : Nat)
  | command (arguments : Nat)
  | over

-- A context, with the number of the line that it is for.
structure Runner where
  state : CtxState
  function : Routine
  spot : Spot
  line : Nat

-- A log of what eval and the commands saw: the number of the line and of the
-- context, the text at the pointer, the word that was looked up.
inductive Seen where
  | text (line ctx : Nat) (text word : List Byte)
  | arguments (line ctx : Nat) (text : List Byte)

-- One array holds the line of every round: the pointers into it are offsets.
-- Context 0 runs shell_loop; `lines` and `seen` are read by nothing.
structure Console where
  cmdlineCpy : List Byte
  ctx : Nat → Runner
  count : Nat
  lines : List (List Byte)
  seen : List Seen

-- switch_to_ctx calls the function of a context, readline delivers a line,
-- shell_loop goes on with it, eval does up to the call of the command, the
-- command reads its arguments or returns; sem_down and sem_up.
inductive ShellEvent where
  | begins (p : Nat)
  | reads (line : List Byte)
  | dispatches
  | evaluates (p : Nat)
  | looks (p : Nat)
  | returns (p : Nat)
  | blocks (p : Nat)
  | wakes (p : Nat)

def Console.put (c : Console) (p : Nat) (r : Runner) : Console := {c with ctx := Function.update c.ctx p r}

def Routine.start : Routine → Spot
  | .shellLoop => .prompt
  | .eval line => .evaluates line

-- Behind the call of eval: the next round, or the end of the context.
def Runner.left (r : Runner) : Runner := match r.function with
  | .shellLoop => {r with spot := .prompt}
  | .eval _ => {r with state := .terminated,spot := .over}

def ShellEvent.act (commands : List (List Byte)) (c : Console) : ShellEvent → Console
  | .begins p => c.put p {c.ctx p with state := .ready,spot := (c.ctx p).function.start}
  | .reads line => {c.put 0 {c.ctx 0 with spot := .copied,line := c.lines.length} with
      cmdlineCpy := strcpy line
      lines := c.lines ++ [line]}
  | .dispatches =>
    if isBackground c.cmdlineCpy then
      {(c.put 0 {c.ctx 0 with spot := .prompt}).put c.count ⟨.activable,.eval 1,.outside,(c.ctx 0).line⟩ with
        count := c.count+1}
    else
      c.put 0 {c.ctx 0 with spot := .evaluates 0}
  | .evaluates p => match (c.ctx p).spot with
    | .evaluates line =>
      let (word,mem,arguments) := isolate c.cmdlineCpy line
      {c.put p (if findCommand commands word = none then (c.ctx p).left else {c.ctx p with spot := .command arguments}) with
        cmdlineCpy := mem
        seen := c.seen ++ [.text (c.ctx p).line p (textAt c.cmdlineCpy line) word]}
    | _ => c
  | .looks p => match (c.ctx p).spot with
    | .command arguments => {c with seen := c.seen ++ [.arguments (c.ctx p).line p (textAt c.cmdlineCpy arguments)]}
    | _ => c
  | .returns p => c.put p (c.ctx p).left
  | .blocks p => c.put p {c.ctx p with state := .blocked}
  | .wakes p => c.put p {c.ctx p with state := .activable}

-- Any context that may have the processor goes on. readline delivers C strings,
-- and shell_loop skips the empty one; only commands use semaphores.
def ShellEvent.Enabled (c : Console) : ShellEvent → Prop
  | .begins p => p < c.count ∧ (c.ctx p).state = .activable
  | .reads line => (c.ctx 0).state = .ready ∧ (c.ctx 0).spot = .prompt ∧ line ≠ [] ∧ 0 ∉ line
  | .dispatches => (c.ctx 0).state = .ready ∧ (c.ctx 0).spot = .copied
  | .evaluates p => p < c.count ∧ (c.ctx p).state = .ready ∧ ∃ line, (c.ctx p).spot = .evaluates line
  | .looks p | .returns p | .blocks p => p < c.count ∧ (c.ctx p).state = .ready ∧ ∃ arguments, (c.ctx p).spot = .command arguments
  | .wakes p => p < c.count ∧ (c.ctx p).state = .blocked

def ShellStep (commands : List (List Byte)) (c : Console) (e : ShellEvent) (d : Console) : Prop :=
  e.Enabled c ∧ d = e.act commands c

-- The shell's context has been created and given the processor.
def bootConsole : Console where
  cmdlineCpy := []
  ctx := fun _ => ⟨.ready,.shellLoop,.prompt,0⟩
  count := 1
  lines := []
  seen := []

-- What a line is to be evaluated as.
def ownText (line : List Byte) : List Byte := if line.head? = some ampersand then line.tail else line

-- `text` is line `n` as it was typed, and context `p` the one it is for: the
-- shell's for a line in the foreground, one of its own for the others.
def Console.Mine (c : Console) (n p : Nat) (text : List Byte) : Prop :=
  ∃ line, c.lines[n]? = some line ∧ text = ownText line ∧ (line.head? = some ampersand ↔ p ≠ 0) ∧
    (p ≠ 0 → p < c.count ∧ (c.ctx p).line = n)

def Seen.Own (c : Console) : Seen → Prop
  | .text n p text word => c.Mine n p text ∧ word = firstWord text
  | .arguments n p seen => ∃ text, c.Mine n p text ∧ seen = argumentsOf text

def Seen.isText (n : Nat) : Seen → Bool
  | .text line _ _ _ => line = n
  | .arguments _ _ _ => false

def Console.evaluations (c : Console) (n : Nat) : Nat := c.seen.countP (Seen.isText n)

def Spot.Waits : Spot → Prop
  | .outside | .copied | .evaluates _ => True
  | _ => False

-- Context `p` is still to evaluate line `n`.
def Console.Waiting (c : Console) (n p : Nat) : Prop := p < c.count ∧ (c.ctx p).line = n ∧ (c.ctx p).spot.Waits

-- Every evaluation was of a line as it was typed, and each line has been
-- evaluated once, but for those whose context is still to come to it.
structure AsTyped (c : Console) : Prop where
  own : ∀ e ∈ c.seen, e.Own c
  once : ∀ n, n < c.lines.length →
    (c.evaluations n = 0 ∧ ∃ p, c.Waiting n p) ∨ (c.evaluations n = 1 ∧ ∀ p, ¬ c.Waiting n p)

-- A line fits into the array and has no & but in front, a context is entered
-- once, and eval and the command look at their line before the next one is read.
def ShellEvent.Fits (c : Console) : ShellEvent → Prop
  | .begins p => (c.ctx p).spot = .outside
  | .reads line => line.length < maxprompt ∧ ampersand ∉ line.tail
  | .evaluates p | .looks p => (c.ctx p).line+1 = c.lines.length
  | _ => True

-- A context that is at a line: the shell only between two prompts.
def Console.Serves (c : Console) (p : Nat) : Prop := p < c.count ∧ (p ≠ 0 ∨ (c.ctx p).spot ≠ .prompt)

-- Which spots a context can be at, and with which pointer.
def Spot.At (p : Nat) : Spot → Prop
  | .outside | .over => p ≠ 0
  | .prompt | .copied => p = 0
  | .evaluates line => line = if p = 0 then 0 else 1
  | .command _ => True

-- Who is at which line: every context in the background at one of its own, the
-- shell at the last.
structure Seated (c : Console) : Prop where
  booted : 0 < c.count
  functions : ∀ p, p < c.count → (c.ctx p).function = if p = 0 then .shellLoop else .eval 1
  spots : ∀ p, p < c.count → (c.ctx p).spot.At p
  last : c.Serves 0 → (c.ctx 0).line+1 = c.lines.length
  known : ∀ p, c.Serves p → ∃ line, c.lines[(c.ctx p).line]? = some line ∧
    ((c.ctx p).spot ≠ .copied → (line.head? = some ampersand ↔ p ≠ 0))
  single : ∀ p q, c.Serves p → c.Serves q → (c.ctx p).line = (c.ctx q).line → p = q
  lines : ∀ line ∈ c.lines, line ≠ [] ∧ 0 ∉ line ∧ ampersand ∉ line.tail

-- The array holds the last line read until the context that it is for comes to
-- it, and from then on the arguments.
structure Attended (c : Console) : Prop extends Seated c, AsTyped c where
  whole : ∀ n p line, c.Waiting n p → n+1 = c.lines.length → c.lines[n]? = some line → c.cmdlineCpy = strcpy line
  arguments : ∀ p a line, c.Serves p → (c.ctx p).spot = .command a → (c.ctx p).line+1 = c.lines.length →
    c.lines[(c.ctx p).line]? = some line → textAt c.cmdlineCpy a = argumentsOf (ownText line)

variable {c d : Console} {e : ShellEvent} {a : Nat} {r : Runner}

theorem Console.Waiting.serves (waiting : c.Waiting n p) : c.Serves p := by
  obtain ⟨inside,_,waits⟩ := waiting
  refine ⟨inside,.inr fun wrong => ?_⟩
  rw [wrong] at waits
  exact waits

-- Lines are only added, and a context keeps its own.
theorem Console.Mine.later (mine : c.Mine n p text) (lines : ∀ (n : Nat) line, c.lines[n]? = some line → d.lines[n]? = some line)
    (kept : ∀ p, p ≠ 0 → p < c.count → p < d.count ∧ (d.ctx p).line = (c.ctx p).line) : d.Mine n p text := by
  obtain ⟨line,typed,own,place,other⟩ := mine
  refine ⟨line,lines n line typed,own,place,fun apart => ?_⟩
  obtain ⟨inside,mine⟩ := other apart
  obtain ⟨inside',same⟩ := kept p apart inside
  exact ⟨inside',same.trans mine⟩

theorem Seen.Own.later {seen : Seen} (own : seen.Own c) (lines : ∀ (n : Nat) line, c.lines[n]? = some line → d.lines[n]? = some line)
    (kept : ∀ p, p ≠ 0 → p < c.count → p < d.count ∧ (d.ctx p).line = (c.ctx p).line) : seen.Own d := by
  cases seen with
  | text n p text word => exact ⟨own.1.later lines kept,own.2⟩
  | arguments n p seen =>
      obtain ⟨text,mine,same⟩ := own
      exact ⟨text,mine.later lines kept,same⟩

@[simp] theorem put_self (c : Console) (p : Nat) (r : Runner) : (c.put p r).ctx p = r := Function.update_self ..
theorem put_other (c : Console) (p : Nat) (r : Runner) (other : q ≠ p) : (c.put p r).ctx q = c.ctx q := Function.update_of_ne other _ _
@[simp] theorem put_count (c : Console) (p : Nat) (r : Runner) : (c.put p r).count = c.count := rfl

theorem put_line (line : r.line = (c.ctx p).line) (q : Nat) : ((c.put p r).ctx q).line = (c.ctx q).line := by
  by_cases same : q = p
  · subst same
    rw [put_self]
    exact line
  · rw [put_other _ _ _ same]

theorem put_serves (serves : r.spot ≠ .prompt → (c.ctx p).spot ≠ .prompt) (here : (c.put p r).Serves q) : c.Serves q := by
  obtain ⟨bound,busy⟩ := here
  refine ⟨bound,busy.imp id fun away => ?_⟩
  by_cases same : q = p
  · subst same
    rw [put_self] at away
    exact serves away
  · rw [put_other _ _ _ same] at away
    exact away

-- One context goes on at its line.
theorem Seated.moved (seated : Seated c) (function : r.function = (c.ctx p).function) (line : r.line = (c.ctx p).line)
    (spot : r.spot.At p) (serves : r.spot ≠ .prompt → (c.ctx p).spot ≠ .prompt)
    (place : r.spot ≠ .prompt → r.spot ≠ .copied → ∀ l, c.lines[(c.ctx p).line]? = some l → (l.head? = some ampersand ↔ p ≠ 0)) :
    Seated (c.put p r) := by
  refine ⟨seated.booted,?_,?_,?_,?_,?_,seated.lines⟩
  · intro q bound
    by_cases same : q = p
    · subst same
      rw [put_self,function]
      exact seated.functions q bound
    · rw [put_other _ _ _ same]
      exact seated.functions q bound
  · intro q bound
    by_cases same : q = p
    · subst same
      rw [put_self]
      exact spot
    · rw [put_other _ _ _ same]
      exact seated.spots q bound
  · intro here
    rw [put_line line]
    exact seated.last (put_serves serves here)
  · intro q here
    obtain ⟨l,typed,known⟩ := seated.known q (put_serves serves here)
    refine ⟨l,by rw [put_line line]; exact typed,fun away => ?_⟩
    by_cases same : q = p
    · subst same
      obtain ⟨_,busy⟩ := here
      rw [put_self] at away busy
      refine place (fun stays => ?_) away l typed
      rw [stays] at spot
      exact busy.elim (fun apart => apart spot) fun wrong => wrong stays
    · rw [put_other _ _ _ same] at away
      exact known away
  · intro q q' one two same
    rw [put_line line,put_line line] at same
    exact seated.single q q' (put_serves serves one) (put_serves serves two) same

-- It does so without coming to the line or leaving it unevaluated.
theorem Attended.moved (attended : Attended c) (function : r.function = (c.ctx p).function) (line : r.line = (c.ctx p).line)
    (spot : r.spot.At p) (waits : r.spot.Waits ↔ (c.ctx p).spot.Waits) (serves : r.spot ≠ .prompt → (c.ctx p).spot ≠ .prompt)
    (place : r.spot ≠ .prompt → r.spot ≠ .copied → ∀ l, c.lines[(c.ctx p).line]? = some l → (l.head? = some ampersand ↔ p ≠ 0))
    (command : ∀ a, r.spot = .command a → (c.ctx p).spot = .command a) : Attended (c.put p r) := by
  have waiting : ∀ n q, (c.put p r).Waiting n q ↔ c.Waiting n q := by
    intro n q
    unfold Console.Waiting
    rw [put_line line,put_count]
    by_cases same : q = p
    · subst same
      rw [put_self,waits]
    · rw [put_other _ _ _ same]
  refine ⟨attended.toSeated.moved function line spot serves place,⟨?_,?_⟩,?_,?_⟩
  · intro e member
    exact (attended.own e member).later (fun _ _ => id) fun q _ bound => ⟨bound,put_line line q⟩
  · intro n bound
    simp only [waiting]
    exact attended.once n bound
  · intro n q l here
    exact attended.whole n q l ((waiting n q).mp here)
  · intro q a l here command' final typed
    rw [put_line line] at final typed
    refine attended.arguments q a l (put_serves serves here) ?_ final typed
    by_cases same : q = p
    · subst same
      rw [put_self] at command'
      exact command a command'
    · rw [put_other _ _ _ same] at command'
      exact command'

-- Where the line stands in relation to its context, once it has been dispatched.
theorem Attended.place (attended : Attended c) (serves : c.Serves p) (away : (c.ctx p).spot ≠ .copied)
    (typed : c.lines[(c.ctx p).line]? = some line) : line.head? = some ampersand ↔ p ≠ 0 := by
  obtain ⟨l,same,known⟩ := attended.known p serves
  rw [typed] at same
  cases same
  exact known away

theorem Attended.begins (attended : Attended c) (enabled : (ShellEvent.begins p).Enabled c) (fits : (ShellEvent.begins p).Fits c) :
    Attended ((ShellEvent.begins p).act commands c) := by
  obtain ⟨inside,_⟩ := enabled
  have outside : (c.ctx p).spot = .outside := fits
  have apart := attended.spots p inside
  rw [outside] at apart
  have function := attended.functions p inside
  rw [if_neg apart] at function
  have serves : c.Serves p := ⟨inside,.inl apart⟩
  have start : (c.ctx p).function.start = .evaluates 1 := by
    rw [function]
    rfl
  refine attended.moved rfl rfl ?_ ?_ ?_ ?_ ?_
  · show Spot.At p (c.ctx p).function.start
    rw [start]
    exact (if_neg apart).symm
  · show (c.ctx p).function.start.Waits ↔ _
    rw [start,outside]
    exact Iff.rfl
  · intro _ wrong
    rw [outside] at wrong
    cases wrong
  · intro _ _ l typed
    refine attended.place serves (fun wrong => ?_) typed
    rw [outside] at wrong
    cases wrong
  · intro a wrong
    have wrong : (c.ctx p).function.start = .command a := wrong
    rw [start] at wrong
    cases wrong

theorem left_same (r : Runner) : r.left.function = r.function ∧ r.left.line = r.line := by
  unfold Runner.left
  split <;> exact ⟨rfl,rfl⟩

theorem Attended.left (attended : Attended c) (inside : p < c.count) :
    (c.ctx p).left.spot = if p = 0 then .prompt else .over := by
  have function := attended.functions p inside
  unfold Runner.left
  by_cases zero : p = 0
  · rw [if_pos zero] at function ⊢
    rw [function]
  · rw [if_neg zero] at function ⊢
    rw [function]

theorem Attended.returns (attended : Attended c) (enabled : (ShellEvent.returns p).Enabled c) :
    Attended ((ShellEvent.returns p).act commands c) := by
  obtain ⟨inside,_,a,command⟩ := enabled
  have left := attended.left inside
  have same := left_same (c.ctx p)
  refine attended.moved same.1 same.2 ?_ ?_ ?_ ?_ ?_
  · rw [left]
    by_cases zero : p = 0
    · rw [if_pos zero]
      exact zero
    · rw [if_neg zero]
      exact zero
  · rw [left,command]
    by_cases zero : p = 0
    · rw [if_pos zero]
      exact Iff.rfl
    · rw [if_neg zero]
      exact Iff.rfl
  · intro _ wrong
    rw [command] at wrong
    cases wrong
  · intro away _ l typed
    have apart : p ≠ 0 := by
      intro zero
      rw [left,if_pos zero] at away
      exact away rfl
    refine attended.place ⟨inside,.inl apart⟩ (fun wrong => ?_) typed
    rw [command] at wrong
    cases wrong
  · intro b wrong
    rw [left] at wrong
    split at wrong <;> cases wrong

-- A context that only changes its state.
theorem Attended.stated (attended : Attended c) (inside : p < c.count) (state : CtxState) :
    Attended (c.put p {c.ctx p with state := state}) := by
  refine attended.moved rfl rfl (attended.spots p inside) Iff.rfl id ?_ fun _ => id
  intro away copied l typed
  exact attended.place ⟨inside,.inr away⟩ copied typed

theorem Attended.looks (attended : Attended c) (enabled : (ShellEvent.looks p).Enabled c) (fits : (ShellEvent.looks p).Fits c) :
    Attended ((ShellEvent.looks p).act commands c) := by
  obtain ⟨inside,_,a,command⟩ := enabled
  have serves : c.Serves p := ⟨inside,.inr fun wrong => by rw [command] at wrong; cases wrong⟩
  obtain ⟨line,typed,place⟩ := attended.known p serves
  have front := place fun wrong => by rw [command] at wrong; cases wrong
  have seen := attended.arguments p a line serves command fits typed
  have act : (ShellEvent.looks p).act commands c =
      {c with seen := c.seen ++ [.arguments (c.ctx p).line p (textAt c.cmdlineCpy a)]} := by
    simp only [ShellEvent.act,command]
  rw [act]
  refine ⟨⟨attended.booted,attended.functions,attended.spots,attended.last,attended.known,attended.single,attended.lines⟩,
    ⟨?_,?_⟩,attended.whole,attended.arguments⟩
  · intro e member
    rcases List.mem_append.mp member with old | new
    · exact attended.own e old
    · cases List.mem_singleton.mp new
      exact ⟨ownText line,⟨line,typed,rfl,front,fun _ => ⟨inside,rfl⟩⟩,seen⟩
  · intro n bound
    have count : Console.evaluations {c with seen := c.seen ++ [.arguments (c.ctx p).line p (textAt c.cmdlineCpy a)]} n =
        c.evaluations n := by
      unfold Console.evaluations
      rw [List.countP_append]
      exact Nat.add_zero _
    rw [count]
    exact attended.once n bound

theorem Attended.line_bound (attended : Attended c) (serves : c.Serves p) : (c.ctx p).line < c.lines.length := by
  obtain ⟨line,typed,_⟩ := attended.known p serves
  exact (List.getElem?_eq_some_iff.mp typed).1

-- Nothing has been seen yet of a line to come.
theorem AsTyped.ahead (typed : AsTyped c) : c.evaluations c.lines.length = 0 := by
  unfold Console.evaluations
  rw [List.countP_eq_zero]
  intro e member counted
  cases e with
  | text n p text word =>
      obtain ⟨⟨line,here,_⟩,_⟩ := typed.own _ member
      have same : n = c.lines.length := of_decide_eq_true counted
      rw [same] at here
      exact absurd (List.getElem?_eq_some_iff.mp here).1 (Nat.lt_irrefl _)
  | arguments => cases counted

-- d is c with the line received at the prompt: the shell stands at it, and the rest is as it was.
structure Received (line : List Byte) (c d : Console) : Prop where
  prompt : (c.ctx 0).spot = .prompt
  shell : d.ctx 0 = {c.ctx 0 with spot := .copied,line := c.lines.length}
  others : ∀ q, q ≠ 0 → d.ctx q = c.ctx q
  lines : d.lines = c.lines ++ [line]
  count : d.count = c.count
  seen : d.seen = c.seen
  copied : d.cmdlineCpy = strcpy line

theorem reads_received (prompt : (c.ctx 0).spot = .prompt) : Received line c ((ShellEvent.reads line).act commands c) :=
  ⟨prompt,put_self c 0 {c.ctx 0 with spot := .copied,line := c.lines.length},fun _ apart => put_other _ _ _ apart,rfl,rfl,rfl,rfl⟩

theorem Received.length (received : Received line c d) : d.lines.length = c.lines.length+1 := by
  rw [received.lines]
  exact List.length_append

theorem Received.typed (received : Received line c d) (n : Nat) (l : List Byte) (old : c.lines[n]? = some l) : d.lines[n]? = some l := by
  rw [received.lines,List.getElem?_append_left (List.getElem?_eq_some_iff.mp old).1]
  exact old

theorem Received.newest (received : Received line c d) : d.lines[c.lines.length]? = some line := by
  rw [received.lines,List.getElem?_concat_length]

theorem Received.serves (received : Received line c d) (apart : q ≠ 0) (busy : d.Serves q) : c.Serves q :=
  ⟨received.count ▸ busy.1,.inl apart⟩

-- The other contexts stand at earlier lines.
theorem Received.earlier (received : Received line c d) (attended : Attended c) (apart : q ≠ 0) (busy : d.Serves q) :
    (d.ctx q).line < c.lines.length := by
  rw [received.others q apart]
  exact attended.line_bound (received.serves apart busy)

theorem Received.single (received : Received line c d) (attended : Attended c) (one : d.Serves p) (two : d.Serves q)
    (same : (d.ctx p).line = (d.ctx q).line) : p = q := by
  by_cases zero : p = 0
  · subst zero
    by_cases zero' : q = 0
    · exact zero'.symm
    · have low := received.earlier attended zero' two
      rw [← same,received.shell] at low
      exact absurd low (Nat.lt_irrefl _)
  · by_cases zero' : q = 0
    · subst zero'
      have low := received.earlier attended zero one
      rw [same,received.shell] at low
      exact absurd low (Nat.lt_irrefl _)
    · rw [received.others p zero,received.others q zero'] at same
      exact attended.single p q (received.serves zero one) (received.serves zero' two) same

theorem Received.seated (received : Received line c d) (attended : Attended c)
    (fits : line ≠ [] ∧ 0 ∉ line ∧ ampersand ∉ line.tail) : Seated d := by
  refine ⟨by rw [received.count]; exact attended.booted,?_,?_,?_,?_,fun p q => received.single attended,?_⟩
  · intro q bound
    rw [received.count] at bound
    by_cases zero : q = 0
    · subst zero
      rw [received.shell]
      exact attended.functions 0 bound
    · rw [received.others q zero]
      exact attended.functions q bound
  · intro q bound
    rw [received.count] at bound
    by_cases zero : q = 0
    · subst zero
      rw [received.shell]
      exact rfl
    · rw [received.others q zero]
      exact attended.spots q bound
  · intro _
    rw [received.shell,received.length]
  · intro q busy
    by_cases zero : q = 0
    · subst zero
      rw [received.shell]
      exact ⟨line,received.newest,fun wrong => absurd rfl wrong⟩
    · rw [received.others q zero]
      obtain ⟨l,old,place⟩ := attended.known q (received.serves zero busy)
      exact ⟨l,received.typed _ l old,place⟩
  · intro l member
    rw [received.lines] at member
    rcases List.mem_append.mp member with old | new
    · exact attended.lines l old
    · cases List.mem_singleton.mp new
      exact fits

-- The new line waits for the shell, and each other one for whom it waited for before.
theorem Received.waiting (received : Received line c d) (apart : n ≠ c.lines.length) (q : Nat) : d.Waiting n q ↔ c.Waiting n q := by
  unfold Console.Waiting
  by_cases zero : q = 0
  · subst zero
    rw [received.shell,received.prompt]
    exact ⟨fun wrong => absurd wrong.2.1.symm apart,fun wrong => wrong.2.2.elim⟩
  · rw [received.others q zero,received.count]

theorem Received.asTyped (received : Received line c d) (attended : Attended c) : AsTyped d := by
  have evaluations : ∀ n, d.evaluations n = c.evaluations n := fun n => by
    unfold Console.evaluations
    rw [received.seen]
  refine ⟨?_,?_⟩
  · intro e member
    rw [received.seen] at member
    refine (attended.own e member).later received.typed fun q apart bound => ?_
    rw [received.count,received.others q apart]
    exact ⟨bound,rfl⟩
  · intro n bound
    rw [evaluations]
    by_cases latest : n = c.lines.length
    · refine .inl ⟨by rw [latest]; exact attended.toAsTyped.ahead,0,by rw [received.count]; exact attended.booted,?_,?_⟩
      · rw [received.shell,latest]
      · rw [received.shell]
        trivial
    · have old : n < c.lines.length := by
        rw [received.length] at bound
        omega
      simp only [received.waiting latest]
      exact attended.once n old

theorem Attended.reads (attended : Attended c) (enabled : (ShellEvent.reads line).Enabled c) (fits : (ShellEvent.reads line).Fits c) :
    Attended ((ShellEvent.reads line).act commands c) := by
  obtain ⟨_,prompt,real,plain⟩ := enabled
  obtain ⟨_,front⟩ := fits
  have received : Received line c ((ShellEvent.reads line).act commands c) := reads_received prompt
  generalize (ShellEvent.reads line).act commands c = d at received
  have length := received.length
  refine ⟨received.seated attended ⟨real,plain,front⟩,received.asTyped attended,?_,?_⟩
  · intro n q l waiting final typed
    have latest : n = c.lines.length := by omega
    rw [latest,received.newest] at typed
    cases typed
    exact received.copied
  · intro q a l busy command final
    by_cases zero : q = 0
    · subst zero
      rw [received.shell] at command
      cases command
    · have low := received.earlier attended zero busy
      omega

theorem Attended.current (attended : Attended c) (waiting : c.Waiting n p) (final : n+1 = c.lines.length) :
    ∃ line, c.lines[n]? = some line ∧ line ≠ [] ∧ 0 ∉ line ∧ ampersand ∉ line.tail ∧ c.cmdlineCpy = strcpy line := by
  obtain ⟨line,typed⟩ : ∃ line, c.lines[n]? = some line := ⟨_,List.getElem?_eq_getElem (by omega)⟩
  obtain ⟨real,plain,front⟩ := attended.lines line (List.mem_of_getElem? typed)
  exact ⟨line,typed,real,plain,front,attended.whole n p line waiting final typed⟩

theorem isBackground_front (plain : 0 ∉ line) (front : ampersand ∉ line.tail) :
    isBackground (strcpy line) ↔ line.head? = some ampersand := by
  unfold isBackground
  rw [textAt_strcpy plain]
  cases line with
  | nil => exact ⟨fun member => absurd member List.not_mem_nil,fun wrong => (nomatch wrong)⟩
  | cons c more =>
      rw [List.mem_cons,List.head?_cons]
      constructor
      · intro member
        rcases member with first | later
        · rw [first]
        · exact absurd later front
      · intro same
        exact .inl (Option.some.inj same).symm

theorem Attended.foreground (attended : Attended c) (enabled : ShellEvent.dispatches.Enabled c) (front : ¬ isBackground c.cmdlineCpy) :
    Attended (c.put 0 {c.ctx 0 with spot := .evaluates 0}) := by
  obtain ⟨_,copied⟩ := enabled
  have serves : c.Serves 0 := ⟨attended.booted,.inr fun wrong => by rw [copied] at wrong; cases wrong⟩
  have waiting : c.Waiting (c.ctx 0).line 0 := ⟨attended.booted,rfl,by rw [copied]; trivial⟩
  obtain ⟨line,typed,_,plain,only,same⟩ := attended.current waiting (attended.last serves)
  refine attended.moved rfl rfl rfl ?_ ?_ ?_ ?_
  · rw [copied]
    exact Iff.rfl
  · intro _ wrong
    rw [copied] at wrong
    cases wrong
  · intro _ _ l typed'
    rw [typed] at typed'
    cases typed'
    rw [same,isBackground_front plain only] at front
    exact ⟨fun wrong => absurd wrong front,fun wrong => absurd rfl wrong⟩
  · intro a wrong
    cases wrong

-- The console with one more context, and the shell back in readline.
def Console.spawned (c : Console) : Console :=
  {(c.put 0 {c.ctx 0 with spot := .prompt}).put c.count ⟨.activable,.eval 1,.outside,(c.ctx 0).line⟩ with count := c.count+1}

theorem spawned_new (c : Console) : c.spawned.ctx c.count = ⟨.activable,.eval 1,.outside,(c.ctx 0).line⟩ :=
  put_self (c.put 0 {c.ctx 0 with spot := .prompt}) c.count ⟨.activable,.eval 1,.outside,(c.ctx 0).line⟩

theorem spawned_shell (booted : 0 < c.count) : c.spawned.ctx 0 = {c.ctx 0 with spot := .prompt} :=
  (put_other (c.put 0 {c.ctx 0 with spot := .prompt}) c.count ⟨.activable,.eval 1,.outside,(c.ctx 0).line⟩
    (Nat.ne_of_lt booted)).trans (put_self c 0 {c.ctx 0 with spot := .prompt})

theorem spawned_other (apart : q ≠ 0) (away : q ≠ c.count) : c.spawned.ctx q = c.ctx q :=
  (put_other (c.put 0 {c.ctx 0 with spot := .prompt}) c.count ⟨.activable,.eval 1,.outside,(c.ctx 0).line⟩ away).trans
    (put_other c 0 {c.ctx 0 with spot := .prompt} apart)

theorem spawned_serves (booted : 0 < c.count) (busy : c.spawned.Serves q) : q = c.count ∨ (q ≠ 0 ∧ q ≠ c.count ∧ c.Serves q) := by
  obtain ⟨bound,busy⟩ := busy
  have bound : q < c.count+1 := bound
  by_cases newest : q = c.count
  · exact .inl newest
  by_cases zero : q = 0
  · subst zero
    rw [spawned_shell booted] at busy
    exact busy.elim (fun wrong => absurd rfl wrong) fun wrong => absurd rfl wrong
  · exact .inr ⟨zero,newest,by omega,.inl zero⟩

theorem spawned_waiting (booted : 0 < c.count) : c.spawned.Waiting n q ↔
    (q = c.count ∧ (c.ctx 0).line = n) ∨ (q ≠ 0 ∧ c.Waiting n q) := by
  constructor
  · intro waiting
    obtain ⟨inside,line,waits⟩ := waiting
    have waiting : c.spawned.Waiting n q := ⟨inside,line,waits⟩
    rcases spawned_serves booted waiting.serves with newest | ⟨apart,away,inside',_⟩
    · subst newest
      rw [spawned_new] at line
      exact .inl ⟨rfl,line⟩
    · rw [spawned_other apart away] at line waits
      exact .inr ⟨apart,inside',line,waits⟩
  · intro either
    rcases either with ⟨newest,line⟩ | ⟨apart,inside,line,waits⟩
    · subst newest
      refine ⟨Nat.lt_succ_self _,?_,?_⟩
      · rw [spawned_new]
        exact line
      · rw [spawned_new]
        trivial
    · refine ⟨Nat.lt_succ_of_lt inside,?_,?_⟩
      · rw [spawned_other apart (Nat.ne_of_lt inside)]
        exact line
      · rw [spawned_other apart (Nat.ne_of_lt inside)]
        exact waits

-- A line in the background goes to a context of its own.
theorem Attended.spawned_seated (attended : Attended c) (shell : c.Serves 0) (typed : c.lines[(c.ctx 0).line]? = some line)
    (back : line.head? = some ampersand) : Seated c.spawned := by
  have booted := attended.booted
  have apart0 : c.count ≠ 0 := Nat.ne_of_gt booted
  refine ⟨Nat.succ_pos _,?_,?_,?_,?_,?_,attended.lines⟩
  · intro q bound
    have bound : q < c.count+1 := bound
    by_cases newest : q = c.count
    · subst newest
      rw [spawned_new,if_neg apart0]
    by_cases zero : q = 0
    · subst zero
      rw [spawned_shell booted]
      exact attended.functions 0 booted
    · rw [spawned_other zero newest]
      exact attended.functions q (by omega)
  · intro q bound
    have bound : q < c.count+1 := bound
    by_cases newest : q = c.count
    · subst newest
      rw [spawned_new]
      exact apart0
    by_cases zero : q = 0
    · subst zero
      rw [spawned_shell booted]
      exact rfl
    · rw [spawned_other zero newest]
      exact attended.spots q (by omega)
  · intro busy
    rcases spawned_serves booted busy with wrong | ⟨wrong,_⟩
    · exact absurd wrong.symm apart0
    · exact absurd rfl wrong
  · intro q busy
    rcases spawned_serves booted busy with newest | ⟨apart,away,old⟩
    · subst newest
      rw [spawned_new]
      exact ⟨line,typed,fun _ => ⟨fun _ => apart0,fun _ => back⟩⟩
    · rw [spawned_other apart away]
      exact attended.known q old
  · intro q q' one two equal
    rcases spawned_serves booted one with newest | ⟨apart,away,old⟩
    · rcases spawned_serves booted two with newest' | ⟨apart',away',old'⟩
      · exact newest.trans newest'.symm
      · subst newest
        rw [spawned_new,spawned_other apart' away'] at equal
        exact absurd (attended.single 0 q' shell old' equal).symm apart'
    · rcases spawned_serves booted two with newest' | ⟨apart',away',old'⟩
      · subst newest'
        rw [spawned_new,spawned_other apart away] at equal
        exact absurd (attended.single q 0 old shell equal) apart
      · rw [spawned_other apart away,spawned_other apart' away'] at equal
        exact attended.single q q' old old' equal

-- The line waits for the new context, and no more for the shell.
theorem Attended.spawned_asTyped (attended : Attended c) (waiting : c.Waiting (c.ctx 0).line 0) : AsTyped c.spawned := by
  have booted := attended.booted
  refine ⟨?_,?_⟩
  · intro e member
    refine (attended.own e member).later (fun _ _ => id) fun q apart bound => ⟨Nat.lt_succ_of_lt bound,?_⟩
    rw [spawned_other apart (Nat.ne_of_lt bound)]
  · intro n bound
    have counted := attended.once n bound
    have evaluations : c.spawned.evaluations n = c.evaluations n := rfl
    rw [evaluations]
    by_cases mine : (c.ctx 0).line = n
    · rcases counted with ⟨none,_⟩ | ⟨_,done⟩
      · exact .inl ⟨none,c.count,(spawned_waiting booted).mpr (.inl ⟨rfl,mine⟩)⟩
      · rw [mine] at waiting
        exact absurd waiting (done 0)
    · rcases counted with ⟨none,q,waits⟩ | ⟨one,done⟩
      · refine .inl ⟨none,q,(spawned_waiting booted).mpr (.inr ⟨fun zero => ?_,waits⟩)⟩
        subst zero
        exact mine waits.2.1
      · refine .inr ⟨one,fun q waits => ?_⟩
        rcases (spawned_waiting booted).mp waits with ⟨_,wrong⟩ | ⟨_,old⟩
        · exact mine wrong
        · exact done q old

theorem Attended.background (attended : Attended c) (enabled : ShellEvent.dispatches.Enabled c) (back : isBackground c.cmdlineCpy) :
    Attended c.spawned := by
  obtain ⟨_,copied⟩ := enabled
  have booted := attended.booted
  have shell : c.Serves 0 := ⟨booted,.inr fun wrong => by rw [copied] at wrong; cases wrong⟩
  have waiting : c.Waiting (c.ctx 0).line 0 := ⟨booted,rfl,by rw [copied]; trivial⟩
  obtain ⟨line,typed,_,plain,only,same⟩ := attended.current waiting (attended.last shell)
  rw [same,isBackground_front plain only] at back
  refine ⟨attended.spawned_seated shell typed back,attended.spawned_asTyped waiting,?_,?_⟩
  · intro n q l waits final typed'
    rcases (spawned_waiting booted).mp waits with ⟨_,mine⟩ | ⟨_,old⟩
    · rw [mine] at waiting
      exact attended.whole n 0 l waiting final typed'
    · exact attended.whole n q l old final typed'
  · intro q a l busy command final typed'
    rcases spawned_serves booted busy with newest | ⟨apart,away,old⟩
    · subst newest
      rw [spawned_new] at command
      cases command
    · rw [spawned_other apart away] at command final typed'
      exact attended.arguments q a l old command final typed'

theorem Attended.dispatches (attended : Attended c) (enabled : ShellEvent.dispatches.Enabled c) :
    Attended (ShellEvent.dispatches.act commands c) := by
  unfold ShellEvent.act
  dsimp only
  split
  · rename_i back
    exact attended.background enabled back
  · rename_i front
    exact attended.foreground enabled front

-- eval on a line that the array still holds as it was copied.
theorem isolate_own (real : line ≠ []) (plain : 0 ∉ line) (place : line.head? = some ampersand ↔ p ≠ 0) :
    textAt (strcpy line) (if p = 0 then 0 else 1) = ownText line ∧
    ∃ mem a, isolate (strcpy line) (if p = 0 then 0 else 1) = (firstWord (ownText line),mem,a) ∧
      textAt mem a = argumentsOf (ownText line) := by
  unfold ownText
  by_cases zero : p = 0
  · rw [if_pos zero,if_neg fun wrong => place.mp wrong zero]
    have here := isolate_here [] (List.replicate (maxprompt-1-line.length) 0) plain
    rw [List.nil_append,List.length_nil] at here
    exact ⟨textAt_strcpy plain,here⟩
  · have front := place.mpr zero
    rw [if_neg zero,if_pos front]
    refine ⟨textAt_tail plain real,?_⟩
    cases line with
    | nil => exact absurd rfl real
    | cons c more =>
        have away : 0 ∉ more := fun member => plain (List.mem_cons_of_mem c member)
        exact isolate_here [c] (List.replicate (maxprompt-1-(c :: more).length) 0) away

theorem Console.Waiting.line_one (attended : Attended c) (waiting : c.Waiting n p) (waiting' : c.Waiting n q) : p = q :=
  attended.single p q waiting.serves waiting'.serves (waiting.2.1.trans waiting'.2.1.symm)

-- r is the context p after eval: at the command of the line, or through with it.
structure Evaluated (c : Console) (p a : Nat) (r : Runner) : Prop where
  inside : p < c.count
  spot : ∃ i, (c.ctx p).spot = .evaluates i
  final : (c.ctx p).line+1 = c.lines.length
  went : r = (c.ctx p).left ∨ r = {c.ctx p with spot := .command a}

theorem Evaluated.away (evaluated : Evaluated c p a r) : (c.ctx p).spot ≠ .prompt ∧ (c.ctx p).spot ≠ .copied := by
  obtain ⟨i,spot⟩ := evaluated.spot
  rw [spot]
  exact ⟨fun wrong => (nomatch wrong),fun wrong => (nomatch wrong)⟩

theorem Evaluated.serves (evaluated : Evaluated c p a r) : c.Serves p := ⟨evaluated.inside,.inr evaluated.away.1⟩

theorem Evaluated.waits (evaluated : Evaluated c p a r) : c.Waiting (c.ctx p).line p := by
  obtain ⟨i,spot⟩ := evaluated.spot
  exact ⟨evaluated.inside,rfl,by rw [spot]; trivial⟩

theorem Evaluated.same (evaluated : Evaluated c p a r) : r.function = (c.ctx p).function ∧ r.line = (c.ctx p).line := by
  rcases evaluated.went with same | same
  · rw [same]
    exact left_same _
  · rw [same]
    exact ⟨rfl,rfl⟩

-- A context that leaves is at its prompt or over.
theorem Attended.through (attended : Attended c) (inside : p < c.count) :
    (c.ctx p).left.spot.At p ∧ ¬ (c.ctx p).left.spot.Waits ∧ ∀ b, (c.ctx p).left.spot ≠ .command b := by
  rw [attended.left inside]
  by_cases zero : p = 0
  · rw [if_pos zero]
    exact ⟨zero,id,fun _ wrong => (nomatch wrong)⟩
  · rw [if_neg zero]
    exact ⟨zero,id,fun _ wrong => (nomatch wrong)⟩

theorem Evaluated.done (evaluated : Evaluated c p a r) (attended : Attended c) : r.spot.At p ∧ ¬ r.spot.Waits := by
  rcases evaluated.went with same | same
  · rw [same]
    exact ⟨(attended.through evaluated.inside).1,(attended.through evaluated.inside).2.1⟩
  · rw [same]
    exact ⟨trivial,id⟩

theorem Evaluated.seated (evaluated : Evaluated c p a r) (attended : Attended c) : Seated (c.put p r) := by
  refine attended.toSeated.moved evaluated.same.1 evaluated.same.2 (evaluated.done attended).1 (fun _ => evaluated.away.1) ?_
  intro _ _ l typed
  exact attended.place evaluated.serves evaluated.away.2 typed

theorem Evaluated.waiting (evaluated : Evaluated c p a r) (attended : Attended c) (n q : Nat) :
    (c.put p r).Waiting n q ↔ q ≠ p ∧ c.Waiting n q := by
  unfold Console.Waiting
  rw [put_line evaluated.same.2,put_count]
  by_cases same : q = p
  · subst same
    rw [put_self]
    exact ⟨fun wrong => absurd wrong.2.2 (evaluated.done attended).2,fun wrong => absurd rfl wrong.1⟩
  · rw [put_other _ _ _ same]
    exact ⟨fun here => ⟨same,here⟩,fun here => here.2⟩

-- No other context is at the last line.
theorem Evaluated.alone (evaluated : Evaluated c p a r) (attended : Attended c) (apart : q ≠ p) (busy : c.Serves q) :
    (c.ctx q).line+1 ≠ c.lines.length := by
  intro same
  have final := evaluated.final
  exact apart (attended.single q p busy evaluated.serves (by omega))

theorem evaluations_seen {mem : List Byte} {seen : Seen} :
    Console.evaluations {c.put p r with cmdlineCpy := mem,seen := c.seen ++ [seen]} n =
      c.evaluations n+if seen.isText n then 1 else 0 := by
  unfold Console.evaluations
  rw [List.countP_append,List.countP_singleton]

-- The line has been evaluated, and waits for nobody any more.
theorem Evaluated.asTyped {mem : List Byte} {word text : List Byte} (evaluated : Evaluated c p a r) (attended : Attended c)
    (mine : c.Mine (c.ctx p).line p text) (look : word = firstWord text) :
    AsTyped {c.put p r with cmdlineCpy := mem,seen := c.seen ++ [.text (c.ctx p).line p text word]} := by
  have waiting := evaluated.waiting attended
  refine ⟨?_,?_⟩
  · intro e member
    have kept : ∀ q, q ≠ 0 → q < c.count → q < (c.put p r).count ∧ ((c.put p r).ctx q).line = (c.ctx q).line :=
      fun q _ bound => ⟨bound,put_line evaluated.same.2 q⟩
    rcases List.mem_append.mp member with old | new
    · exact (attended.own e old).later (fun _ _ => id) kept
    · cases List.mem_singleton.mp new
      exact ⟨mine.later (fun _ _ => id) kept,look⟩
  · intro n bound
    rw [evaluations_seen]
    simp only [Seen.isText,decide_eq_true_eq]
    by_cases here : (c.ctx p).line = n
    · subst here
      rw [if_pos rfl]
      rcases attended.once _ bound with ⟨none,_⟩ | ⟨_,no⟩
      · refine .inr ⟨by omega,fun q wrong => ?_⟩
        obtain ⟨apart,old⟩ := (waiting _ q).mp wrong
        exact apart (old.line_one attended evaluated.waits)
      · exact absurd evaluated.waits (no p)
    · rw [if_neg here,Nat.add_zero]
      rcases attended.once n bound with ⟨none,q,old⟩ | ⟨one,no⟩
      · refine .inl ⟨none,q,(waiting n q).mpr ⟨fun same => ?_,old⟩⟩
        subst same
        exact here old.2.1
      · exact .inr ⟨one,fun q wrong => no q ((waiting n q).mp wrong).2⟩

-- A context at a command, with the last line, is the one that came from eval.
theorem Evaluated.arguments {mem : List Byte} {text : List Byte} (evaluated : Evaluated c p a r) (attended : Attended c)
    (mine : c.Mine (c.ctx p).line p text) (rest : textAt mem a = argumentsOf text) {b : Nat} {l : List Byte}
    (busy : (c.put p r).Serves q) (command : ((c.put p r).ctx q).spot = .command b)
    (last : (c.ctx q).line+1 = c.lines.length) (typed : c.lines[(c.ctx q).line]? = some l) : textAt mem b = argumentsOf (ownText l) := by
  by_cases same : q = p
  · subst same
    rw [put_self] at command
    obtain ⟨l',typed',own,_⟩ := mine
    rw [typed] at typed'
    cases typed'
    rw [← own]
    rcases evaluated.went with leaves | goes
    · rw [leaves] at command
      exact absurd command ((attended.through evaluated.inside).2.2 b)
    · rw [goes] at command
      cases command
      exact rest
  · exact absurd last (evaluated.alone attended same (put_serves (fun _ => evaluated.away.1) busy))

-- eval isolates the word, and the context is at the command or through with it.
theorem Attended.evaluated {mem : List Byte} {word text : List Byte} (attended : Attended c) (evaluated : Evaluated c p a r)
    (mine : c.Mine (c.ctx p).line p text) (look : word = firstWord text) (rest : textAt mem a = argumentsOf text) :
    Attended {c.put p r with cmdlineCpy := mem,seen := c.seen ++ [.text (c.ctx p).line p text word]} := by
  have seated := evaluated.seated attended
  refine ⟨⟨seated.booted,seated.functions,seated.spots,seated.last,seated.known,seated.single,seated.lines⟩,
    evaluated.asTyped attended mine look,?_,?_⟩
  · intro n q l here last typed
    obtain ⟨apart,old⟩ := (evaluated.waiting attended n q).mp here
    refine absurd ?_ (evaluated.alone attended apart old.serves)
    rw [old.2.1]
    exact last
  · intro q b l busy command last typed
    have line : ((c.put p r).ctx q).line = (c.ctx q).line := put_line evaluated.same.2 q
    have last : ((c.put p r).ctx q).line+1 = c.lines.length := last
    have typed : c.lines[((c.put p r).ctx q).line]? = some l := typed
    rw [line] at last typed
    exact evaluated.arguments attended mine rest busy command last typed

theorem Attended.evaluates (attended : Attended c) (enabled : (ShellEvent.evaluates p).Enabled c)
    (fits : (ShellEvent.evaluates p).Fits c) : Attended ((ShellEvent.evaluates p).act commands c) := by
  obtain ⟨inside,_,i,spot⟩ := enabled
  have final : (c.ctx p).line+1 = c.lines.length := fits
  have waits : c.Waiting (c.ctx p).line p := ⟨inside,rfl,by rw [spot]; trivial⟩
  obtain ⟨line,typed,real,plain,_,same⟩ := attended.current waits final
  have place := attended.place waits.serves (fun wrong => by rw [spot] at wrong; cases wrong) typed
  have pointer := attended.spots p inside
  rw [spot] at pointer
  have pointer : i = if p = 0 then 0 else 1 := pointer
  obtain ⟨text,mem,a,isolated,rest⟩ := isolate_own real plain place
  rw [← pointer,← same] at text isolated
  have act : (ShellEvent.evaluates p).act commands c =
      {c.put p (if findCommand commands (firstWord (ownText line)) = none then (c.ctx p).left else {c.ctx p with spot := .command a}) with
        cmdlineCpy := mem
        seen := c.seen ++ [.text (c.ctx p).line p (ownText line) (firstWord (ownText line))]} := by
    simp only [ShellEvent.act,spot,isolated,text]
  rw [act]
  refine attended.evaluated ⟨inside,⟨i,spot⟩,final,?_⟩ ⟨line,typed,rfl,place,fun _ => ⟨inside,rfl⟩⟩ rfl rest
  split
  · exact .inl rfl
  · exact .inr rfl

theorem Attended.step (attended : Attended c) (fits : e.Fits c) (taken : ShellStep commands c e d) : Attended d := by
  obtain ⟨enabled,went⟩ := taken
  subst went
  cases e with
  | begins p => exact attended.begins enabled fits
  | reads line => exact attended.reads enabled fits
  | dispatches => exact attended.dispatches enabled
  | evaluates p => exact attended.evaluates enabled fits
  | looks p => exact attended.looks enabled fits
  | returns p => exact attended.returns enabled
  | blocks p => exact attended.stated enabled.1 .blocked
  | wakes p => exact attended.stated enabled.1 .activable

theorem attended_boot : Attended bootConsole := by
  have idle : ∀ p, p < 1 → p = 0 := fun p bound => by omega
  have away : ∀ p, ¬ bootConsole.Serves p := by
    intro p busy
    obtain ⟨bound,busy⟩ := busy
    exact busy.elim (fun apart => apart (idle p bound)) fun wrong => wrong rfl
  refine ⟨⟨Nat.one_pos,?_,?_,?_,?_,?_,?_⟩,⟨?_,?_⟩,?_,?_⟩
  · intro p bound
    rw [idle p bound]
    rfl
  · intro p bound
    exact idle p bound
  · exact fun busy => absurd busy (away 0)
  · exact fun p busy => absurd busy (away p)
  · exact fun p _ busy => absurd busy (away p)
  · exact fun line none => absurd none List.not_mem_nil
  · exact fun e none => absurd none List.not_mem_nil
  · exact fun n bound => absurd bound (Nat.not_lt_zero n)
  · exact fun n p _ waiting => absurd waiting.serves (away p)
  · exact fun p _ _ busy => absurd busy (away p)

-- As long as every line is looked at before the next one is typed, each is
-- evaluated once and as it was typed, whichever context comes next.
theorem lines_as_typed {past : List (Console × ShellEvent)} (run : Run (ShellStep commands) bootConsole past c)
    (met : Met (fun c e => ShellEvent.Fits c e) past) : AsTyped c ∧ ∀ entry ∈ past, AsTyped entry.1 := by
  obtain ⟨here,passed⟩ := run.keeps (fun c e => ShellEvent.Fits c e)
    (fun _ _ _ attended fits taken => attended.step fits taken) attended_boot met
  exact ⟨here.toAsTyped,fun entry member => (passed entry member).toAsTyped⟩

-- A line for the background, looked at there, and one in the foreground.
theorem lines_as_typed_both : ∃ past c, Run (ShellStep []) bootConsole past c ∧
    c.seen = [.text 0 1 [99,100] [99,100],.text 1 0 [108,115] [108,115]] ∧ AsTyped c := by
  let c1 := (ShellEvent.reads [38,99,100]).act [] bootConsole
  let c2 := ShellEvent.dispatches.act [] c1
  let c3 := (ShellEvent.begins 1).act [] c2
  let c4 := (ShellEvent.evaluates 1).act [] c3
  let c5 := (ShellEvent.reads [108,115]).act [] c4
  let c6 := ShellEvent.dispatches.act [] c5
  let c7 := (ShellEvent.evaluates 0).act [] c6
  have behind : ShellStep [] bootConsole (.reads [38,99,100]) c1 := ⟨⟨rfl,rfl,by decide,by decide⟩,rfl⟩
  have given : ShellStep [] c1 .dispatches c2 := ⟨⟨rfl,rfl⟩,rfl⟩
  have begun : ShellStep [] c2 (.begins 1) c3 := ⟨⟨Nat.lt_succ_self 1,rfl⟩,rfl⟩
  have looked : ShellStep [] c3 (.evaluates 1) c4 := ⟨⟨Nat.lt_succ_self 1,rfl,1,rfl⟩,rfl⟩
  have read : ShellStep [] c4 (.reads [108,115]) c5 := ⟨⟨rfl,rfl,by decide,by decide⟩,rfl⟩
  have dispatched : ShellStep [] c5 .dispatches c6 := ⟨⟨rfl,rfl⟩,rfl⟩
  have evaluated : ShellStep [] c6 (.evaluates 0) c7 := ⟨⟨Nat.zero_lt_succ 1,rfl,0,rfl⟩,rfl⟩
  have first := (((Run.start bootConsole).next behind).next given).next begun |>.next looked
  have run := ((first.next read).next dispatched).next evaluated
  have short : List.length [38,99,100] < maxprompt ∧ ampersand ∉ List.tail [38,99,100] := by decide
  have short' : List.length [108,115] < maxprompt ∧ ampersand ∉ List.tail [108,115] := by decide
  refine ⟨_,_,run,rfl,(lines_as_typed run ?_).1⟩
  refine met_snoc.mpr ⟨met_snoc.mpr ⟨met_snoc.mpr ⟨?_,short'⟩,trivial⟩,rfl⟩
  exact met_snoc.mpr ⟨met_snoc.mpr ⟨met_snoc.mpr ⟨met_snoc.mpr ⟨met_nil,short⟩,trivial⟩,rfl⟩,rfl⟩

-- Another line is typed before the context in the background gets to its own.
theorem lines_not_as_typed : ¬ ∀ commands past c, Run (ShellStep commands) bootConsole past c → AsTyped c := by
  intro all
  let c1 := (ShellEvent.reads [38,99,100]).act [] bootConsole
  let c2 := ShellEvent.dispatches.act [] c1
  let c3 := (ShellEvent.reads [108,115]).act [] c2
  let c4 := (ShellEvent.begins 1).act [] c3
  let c5 := (ShellEvent.evaluates 1).act [] c4
  have first : ShellStep [] bootConsole (.reads [38,99,100]) c1 := ⟨⟨rfl,rfl,by decide,by decide⟩,rfl⟩
  have dispatched : ShellStep [] c1 .dispatches c2 := ⟨⟨rfl,rfl⟩,rfl⟩
  have second : ShellStep [] c2 (.reads [108,115]) c3 := ⟨⟨rfl,rfl,by decide,by decide⟩,rfl⟩
  have begun : ShellStep [] c3 (.begins 1) c4 := ⟨⟨Nat.lt_succ_self 1,rfl⟩,rfl⟩
  have evaluated : ShellStep [] c4 (.evaluates 1) c5 := ⟨⟨Nat.lt_succ_self 1,rfl,1,rfl⟩,rfl⟩
  have run := (((Run.start bootConsole).next first).next dispatched).next second |>.next begun |>.next evaluated
  have seen : c5.seen = [.text 0 1 [115] [115]] := rfl
  obtain ⟨⟨line,typed,own,_⟩,_⟩ := (all _ _ _ run).own (.text 0 1 [115] [115]) (by rw [seen]; exact List.mem_singleton_self _)
  have same : c5.lines[0]? = some [38,99,100] := rfl
  rw [same] at typed
  cases typed
  exact absurd own (by decide)
end AsePlusPlus
