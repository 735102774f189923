import Mathlib.Data.Nat.Digits.Defs
import Mathlib.Data.Nat.Digits.Lemmas
import Mathlib.Data.List.Induction
import AsePlusPlus.Lib.Trace

namespace AsePlusPlus
open Trace

-- tracktime.c, the kernel module.
def maxPid : Nat := 1024

-- The PIDs of the kernel.
def pidLimit : Nat := 4194304

-- The globals of the module with the entries of /proc/ase, next to what the
-- kernel has: the processes with their utime and the open files with the name
-- they were opened under. A struct pid stands for its numbers[0].nr, which stays.
structure Ase where
  currentPid : Int
  pidCount : Nat
  pidArray : Nat → Int
  names : List (List Nat)
  process : Nat → Option Nat
  files : Nat → Option (List Nat)
  outside : Bool

-- The digits of a number, as they are printed.
def decimal (n : Nat) : List Nat := if n = 0 then [0] else (Nat.digits 10 n).reverse

-- snprintf(buffer, size, "%lu", n)
def snprintf (size : Nat) (n : Int) : List Nat := (decimal (BitVec.ofInt 64 n).toNat).take (size-1)

-- kstrtol(name, 10, ..) of such a name.
def kstrtol (name : List Nat) : Int := Nat.ofDigits 10 name.reverse

def toInt32 (n : Int) : Int := (BitVec.ofInt 32 n).toInt

-- The utime of the task that find_get_pid and pid_task find, none for NULL.
def Ase.findGetPid (a : Ase) (nr : Int) : Option Nat :=
  if 0 < nr ∧ nr < pidLimit then a.process nr.toNat else none

-- for(i = 0 ; i < pid_count ; i++), over pid_array: none where it leaves the array.
def Ase.search (a : Ase) (pid : Int) : Nat → Nat → Option Bool
  | 0,_ => some false
  | left+1,i =>
    if i < maxPid then
      if a.pidArray i = pid then some true else a.search pid left (i+1)
    else
      none

def Ase.fault (a : Ase) : Ase := {a with outside := true}

def asepidAction (a : Ase) (pid : Int) : Ase :=
  match a.findGetPid (toInt32 pid) with
  | none => a
  | some _ =>
    match a.search pid a.pidCount 0 with
    | none => a.fault
    | some true => a
    | some false =>
      let a := {a with names := snprintf 10 pid :: a.names}
      if a.pidCount < maxPid then
        {a with pidArray := fun i => if i = a.pidCount then toInt32 pid else a.pidArray i, pidCount := a.pidCount+1}
      else
        a.fault

-- remove_proc_entry, after which the files opened before are of no more use.
def Ase.removeProcEntry (a : Ase) (name : List Nat) : Ase :=
  {a with names := a.names.erase name, files := fun f => if a.files f = some name then none else a.files f}

def asepidTerminatePid (a : Ase) (pid : Nat) : Ase :=
  match a.search pid a.pidCount 0 with
  | none => a.fault
  | some true => a.removeProcEntry (snprintf 20 pid)
  | some false => a

def asepidProcOpen (a : Ase) (file : Nat) (name : List Nat) : Ase :=
  {a with currentPid := kstrtol name, files := fun f => if f = file then some name else a.files f}

-- What is printed, none where the task is NULL.
def asepidProcShow (a : Ase) : Option (Int × Nat) :=
  (a.findGetPid (toInt32 a.currentPid)).map fun utime => (a.currentPid,utime)

inductive AseCall where
  | fork (pid : Nat)
  | tick (pid utime : Nat)
  | exit (pid : Nat)
  | write (pid : Int)
  | opened (file : Nat) (name : List Nat)
  | read (file : Nat) (shown : Option (Int × Nat))
  | close (file : Nat)

def AseCall.Enabled (a : Ase) : AseCall → Prop
  | .fork pid => a.process pid = none ∧ 0 < pid ∧ pid < pidLimit
  | .tick pid _ => a.findGetPid pid ≠ none
  | .exit pid => a.findGetPid pid ≠ none
  | .write _ => True
  | .opened _ name => name ∈ a.names
  | .read file shown => a.files file ≠ none ∧ shown = asepidProcShow a
  | .close file => a.files file ≠ none

def AseCall.act (a : Ase) : AseCall → Ase
  | .fork pid => {a with process := fun p => if p = pid then some 0 else a.process p}
  | .tick pid utime => {a with process := fun p => if p = pid then some utime else a.process p}
  | .exit pid =>
    let a := asepidTerminatePid a pid
    {a with process := fun p => if p = pid then none else a.process p}
  | .write pid => asepidAction a pid
  | .opened file name => asepidProcOpen a file name
  | .read _ _ => a
  | .close file => {a with files := fun f => if f = file then none else a.files f}

def AseStep (a : Ase) (c : AseCall) (b : Ase) : Prop := c.Enabled a ∧ b = c.act a

-- The module has just been loaded.
def Ase.loaded (process : Nat → Option Nat) : Ase := ⟨0,0,fun _ => 0,[],process,fun _ => none,false⟩

variable {a b : Ase} {c : AseCall} {past : List (Ase × AseCall)} {p : Nat} {pid : Int} {process : Nat → Option Nat}

-- A slot of the table holds the PID.
def Ase.Listed (a : Ase) (pid : Int) : Prop := ∃ i, i < a.pidCount ∧ a.pidArray i = pid

theorem search_found (a : Ase) (pid : Int) : ∀ left i, i+left ≤ maxPid → (∃ j, i ≤ j ∧ j < i+left ∧ a.pidArray j = pid) →
    a.search pid left i = some true := by
  intro left
  induction left with
  | zero =>
      intro i _ found
      obtain ⟨j,low,high,_⟩ := found
      omega
  | succ left ih =>
      intro i fits found
      rw [Ase.search,if_pos (by omega)]
      by_cases here : a.pidArray i = pid
      · rw [if_pos here]
      · rw [if_neg here]
        obtain ⟨j,low,high,equal⟩ := found
        have other : i ≠ j := fun same => here (same ▸ equal)
        exact ih (i+1) (by omega) ⟨j,by omega,by omega,equal⟩

theorem search_missed (a : Ase) (pid : Int) : ∀ left i, i+left ≤ maxPid → (∀ j, i ≤ j → j < i+left → a.pidArray j ≠ pid) →
    a.search pid left i = some false := by
  intro left
  induction left with
  | zero =>
      intro i _ _
      rfl
  | succ left ih =>
      intro i fits missed
      rw [Ase.search,if_pos (by omega),if_neg (missed i (Nat.le_refl i) (by omega))]
      exact ih (i+1) (by omega) fun j low high => missed j (by omega) (by omega)

theorem search_listed (fits : a.pidCount ≤ maxPid) (listed : a.Listed pid) : a.search pid a.pidCount 0 = some true := by
  obtain ⟨i,high,equal⟩ := listed
  exact search_found a pid a.pidCount 0 (by omega) ⟨i,Nat.zero_le i,by omega,equal⟩

theorem search_unlisted (fits : a.pidCount ≤ maxPid) (unlisted : ¬ a.Listed pid) : a.search pid a.pidCount 0 = some false :=
  search_missed a pid a.pidCount 0 (by omega) fun j _ high equal => unlisted ⟨j,by omega,equal⟩

theorem kstrtol_decimal (n : Nat) : kstrtol (decimal n) = n := by
  unfold kstrtol decimal
  split
  · rename_i zero
    rw [zero]
    rfl
  · have cast := Nat.coe_ofDigits Int 10 (Nat.digits 10 n)
    rw [Nat.ofDigits_digits] at cast
    rw [List.reverse_reverse]
    exact cast.symm

theorem decimal_inj {m n : Nat} (same : decimal m = decimal n) : m = n := by
  have values := kstrtol_decimal m
  rw [same,kstrtol_decimal] at values
  exact (Int.ofNat_inj.mp values).symm

theorem decimal_length (small : p < pidLimit) : (decimal p).length ≤ 7 := by
  unfold decimal
  split
  · decide
  · rw [List.length_reverse,Nat.digits_length_le_iff (by decide)]
    unfold pidLimit at small
    omega

theorem printed_pid (small : p < pidLimit) (room : 8 ≤ size) : snprintf size p = decimal p := by
  have short := decimal_length small
  unfold snprintf
  have value : (BitVec.ofInt 64 (p : Int)).toNat = p := by
    unfold pidLimit at small
    rw [BitVec.ofInt_natCast,BitVec.toNat_ofNat,Nat.mod_eq_of_lt (by omega)]
  rw [value,List.take_of_length_le (by omega)]

theorem toInt32_pid (small : p < pidLimit) : toInt32 p = p := by
  unfold pidLimit at small
  unfold toInt32
  rw [BitVec.ofInt_natCast,BitVec.toInt_ofNat']
  exact Int.bmod_eq_of_le (by omega) (by omega)

theorem findGetPid_some (found : a.findGetPid pid ≠ none) : ∃ p : Nat, pid = p ∧ 0 < p ∧ p < pidLimit ∧ a.process p ≠ none := by
  unfold Ase.findGetPid at found
  split at found
  · rename_i inside
    refine ⟨pid.toNat,by omega,by omega,by omega,found⟩
  · exact absurd rfl found

-- The PID was written while it had a process, which has not exited since.
def Followed (past : List (Ase × AseCall)) (p : Nat) : Prop := ∃ before a after,
  past = before ++ (a,.write p) :: after ∧ a.findGetPid p ≠ none ∧ ∀ entry ∈ after, entry.2 ≠ .exit p

theorem followed_nil : ¬ Followed [] p := by
  intro tracked
  obtain ⟨before,_,_,equal,_⟩ := tracked
  exact List.append_ne_nil_of_right_ne_nil before (List.cons_ne_nil _ _) equal.symm

theorem followed_snoc (past : List (Ase × AseCall)) (a : Ase) (c : AseCall) (p : Nat) : Followed (past ++ [(a,c)]) p ↔
    c = .write p ∧ a.findGetPid p ≠ none ∨ Followed past p ∧ c ≠ .exit p := by
  constructor
  · intro tracked
    obtain ⟨before,t,after,equal,alive,stays⟩ := tracked
    cases after using List.reverseRecOn with
    | nil =>
        obtain ⟨_,last⟩ := List.append_inj' equal rfl
        cases last
        exact .inl ⟨rfl,alive⟩
    | append_singleton after last =>
        rw [← List.cons_append,← List.append_assoc] at equal
        obtain ⟨front,same⟩ := List.append_inj' equal rfl
        cases same
        refine .inr ⟨⟨before,t,after,front,alive,fun entry member => stays entry (List.mem_append_left _ member)⟩,?_⟩
        exact stays (a,c) (List.mem_append_right _ (List.mem_singleton_self _))
  · intro either
    rcases either with ⟨here,alive⟩ | ⟨⟨before,t,after,equal,alive,stays⟩,other⟩
    · rw [here]
      exact ⟨past,a,[],rfl,alive,fun entry member => absurd member List.not_mem_nil⟩
    · refine ⟨before,t,after ++ [(a,c)],by rw [equal,List.append_assoc,List.cons_append],alive,?_⟩
      intro entry member
      rcases List.mem_append.mp member with old | new
      · exact stays entry old
      · rw [List.mem_singleton.mp new]
        exact other

-- The table is in step with the processes that are tracked.
structure Tracks (past : List (Ase × AseCall)) (a : Ase) : Prop where
  count : a.pidCount ≤ maxPid
  inside : a.outside = false
  once : a.names.Nodup
  entries : ∀ p, decimal p ∈ a.names ↔ Followed past p

-- What makes asepid_action work on the table: the number of a process is its
-- PID, has an entry where it has a slot, and finds room where it has none.
def AseCall.Fits (a : Ase) : AseCall → Prop
  | .write pid => a.findGetPid (toInt32 pid) ≠ none →
      toInt32 pid = pid ∧ (a.Listed pid → decimal pid.toNat ∈ a.names) ∧ (¬ a.Listed pid → a.pidCount < maxPid)
  | _ => True

structure Surveyed (past : List (Ase × AseCall)) (a : Ase) : Prop extends Tracks past a where
  slots : ∀ p, decimal p ∈ a.names → a.Listed p ∧ 0 < p ∧ p < pidLimit ∧ a.process p ≠ none

theorem surveyed_loaded (process : Nat → Option Nat) : Surveyed [] (Ase.loaded process) := by
  have none : ∀ p, decimal p ∉ (Ase.loaded process).names := fun p member => absurd member List.not_mem_nil
  exact ⟨⟨Nat.zero_le _,rfl,List.nodup_nil,fun p => ⟨fun member => absurd member (none p),fun tracked => absurd tracked followed_nil⟩⟩,
    fun p member => absurd member (none p)⟩

-- A call that leaves the module alone.
theorem Surveyed.aside (surveyed : Surveyed past a) (same : b.pidCount = a.pidCount ∧ b.pidArray = a.pidArray ∧ b.names = a.names ∧
    b.outside = a.outside) (alive : ∀ p, a.process p ≠ none → b.process p ≠ none)
    (quiet : ∀ p, ¬ (c = .write p ∧ a.findGetPid p ≠ none)) (lives : ∀ p, c ≠ .exit p) :
    Surveyed (past ++ [(a,c)]) b := by
  obtain ⟨count,array,names,outside⟩ := same
  refine ⟨⟨by rw [count]; exact surveyed.count,by rw [outside]; exact surveyed.inside,by rw [names]; exact surveyed.once,?_⟩,?_⟩
  · intro p
    rw [names,followed_snoc,surveyed.entries p]
    constructor
    · intro tracked
      exact .inr ⟨tracked,lives p⟩
    · intro either
      rcases either with wrote | kept
      · exact absurd wrote (quiet p)
      · exact kept.1
  · intro p member
    rw [names] at member
    obtain ⟨listed,some,small,live⟩ := surveyed.slots p member
    refine ⟨?_,some,small,alive p live⟩
    unfold Ase.Listed at listed ⊢
    rw [count,array]
    exact listed

theorem Surveyed.unlisted (surveyed : Surveyed past a) (missing : ¬ a.Listed p) : decimal p ∉ a.names :=
  fun member => missing (surveyed.slots p member).1

theorem Surveyed.write (surveyed : Surveyed past a) (fits : AseCall.Fits a (.write pid)) :
    Surveyed (past ++ [(a,.write pid)]) (asepidAction a pid) := by
  unfold asepidAction
  cases found : a.findGetPid (toInt32 pid) with
  | none =>
      refine surveyed.aside ⟨rfl,rfl,rfl,rfl⟩ (fun _ alive => alive) ?_ (fun _ => AseCall.noConfusion)
      intro p wrote
      obtain ⟨equal,alive⟩ := wrote
      cases equal
      obtain ⟨q,same,_,small,_⟩ := findGetPid_some alive
      rw [same,toInt32_pid small,← same] at found
      exact alive found
  | some utime =>
      have alive : a.findGetPid (toInt32 pid) ≠ none := by rw [found]; exact Option.some_ne_none utime
      obtain ⟨int,entered,room⟩ := fits alive
      rw [int] at alive
      obtain ⟨p,rfl,some,small,live⟩ := findGetPid_some alive
      rw [Int.toNat_natCast] at entered
      by_cases listed : a.Listed p
      · -- the entry is there and stays the only one
        have entry := entered listed
        dsimp only
        rw [search_listed surveyed.count listed]
        refine ⟨⟨surveyed.count,surveyed.inside,surveyed.once,?_⟩,surveyed.slots⟩
        intro q
        rw [followed_snoc,surveyed.entries q]
        constructor
        · intro tracked
          exact .inr ⟨tracked,AseCall.noConfusion⟩
        · intro either
          rcases either with ⟨wrote,_⟩ | kept
          · obtain rfl : p = q := by injection wrote with same; omega
            exact (surveyed.entries p).mp entry
          · exact kept.1
      · have below := room listed
        have fresh := surveyed.unlisted listed
        dsimp only
        rw [search_unlisted surveyed.count listed,printed_pid small (by omega)]
        dsimp only
        rw [if_pos below,int]
        refine ⟨⟨by change a.pidCount+1 ≤ maxPid; omega,surveyed.inside,List.nodup_cons.mpr ⟨fresh,surveyed.once⟩,?_⟩,?_⟩
        · intro q
          rw [followed_snoc,List.mem_cons,surveyed.entries q]
          constructor
          · intro either
            rcases either with same | tracked
            · rw [decimal_inj same]
              exact .inl ⟨rfl,alive⟩
            · exact .inr ⟨tracked,AseCall.noConfusion⟩
          · intro either
            rcases either with ⟨wrote,_⟩ | kept
            · obtain rfl : p = q := by injection wrote with same; omega
              exact .inl rfl
            · exact .inr kept.1
        · intro q member
          rcases List.mem_cons.mp member with same | old
          · rw [decimal_inj same]
            refine ⟨⟨a.pidCount,by change a.pidCount < a.pidCount+1; omega,if_pos rfl⟩,some,small,live⟩
          · obtain ⟨⟨i,high,equal⟩,rest⟩ := surveyed.slots q old
            refine ⟨⟨i,by change i < a.pidCount+1; omega,?_⟩,rest⟩
            exact (if_neg (by omega)).trans equal

theorem Surveyed.exit (surveyed : Surveyed past a) (small : p < pidLimit) :
    Surveyed (past ++ [(a,.exit p)]) (AseCall.act a (.exit p)) := by
  have entries : ∀ q, q ≠ p → (decimal q ∈ a.names ↔ Followed (past ++ [(a,.exit p)]) q) := by
    intro q other
    rw [followed_snoc,surveyed.entries q]
    constructor
    · intro tracked
      exact .inr ⟨tracked,fun same => other (by injection same with equal; exact equal.symm)⟩
    · intro either
      rcases either with ⟨wrote,_⟩ | kept
      · cases wrote
      · exact kept.1
  have gone : ¬ Followed (past ++ [(a,.exit p)]) p := by
    rw [followed_snoc]
    intro either
    rcases either with ⟨wrote,_⟩ | kept
    · cases wrote
    · exact kept.2 rfl
  change Surveyed _ {asepidTerminatePid a p with process := fun q => if q = p then none else (asepidTerminatePid a p).process q}
  unfold asepidTerminatePid
  by_cases listed : a.Listed p
  · rw [search_listed surveyed.count listed]
    dsimp only
    rw [printed_pid small (by omega)]
    refine ⟨⟨surveyed.count,surveyed.inside,surveyed.once.erase _,?_⟩,?_⟩
    · intro q
      change decimal q ∈ a.names.erase (decimal p) ↔ _
      rw [surveyed.once.mem_erase_iff]
      by_cases same : q = p
      · rw [same]
        exact ⟨fun kept => absurd rfl kept.1,fun tracked => absurd tracked gone⟩
      · rw [entries q same]
        exact ⟨fun kept => kept.2,fun tracked => ⟨fun equal => same (decimal_inj equal),tracked⟩⟩
    · intro q member
      obtain ⟨other,old⟩ := (surveyed.once.mem_erase_iff).mp member
      obtain ⟨slot,positive,low,live⟩ := surveyed.slots q old
      refine ⟨slot,positive,low,?_⟩
      have distinct : q ≠ p := fun same => other (by rw [same])
      change (if q = p then none else a.process q) ≠ none
      rw [if_neg distinct]
      exact live
  · have missing := surveyed.unlisted listed
    rw [search_unlisted surveyed.count listed]
    refine ⟨⟨surveyed.count,surveyed.inside,surveyed.once,?_⟩,?_⟩
    · intro q
      by_cases same : q = p
      · rw [same]
        exact ⟨fun member => absurd member missing,fun tracked => absurd tracked gone⟩
      · exact entries q same
    · intro q member
      obtain ⟨slot,positive,low,live⟩ := surveyed.slots q member
      refine ⟨slot,positive,low,?_⟩
      have distinct : q ≠ p := fun same => missing (same ▸ member)
      change (if q = p then none else a.process q) ≠ none
      rw [if_neg distinct]
      exact live

theorem Surveyed.step (surveyed : Surveyed past a) (fits : c.Fits a) (taken : AseStep a c b) : Surveyed (past ++ [(a,c)]) b := by
  obtain ⟨enabled,equal⟩ := taken
  cases equal
  cases c with
  | fork pid =>
      refine surveyed.aside ⟨rfl,rfl,rfl,rfl⟩ ?_ (fun _ wrote => AseCall.noConfusion wrote.1) (fun _ => AseCall.noConfusion)
      intro q alive
      change (if q = pid then some 0 else a.process q) ≠ none
      split
      · exact Option.some_ne_none 0
      · exact alive
  | tick pid utime =>
      refine surveyed.aside ⟨rfl,rfl,rfl,rfl⟩ ?_ (fun _ wrote => AseCall.noConfusion wrote.1) (fun _ => AseCall.noConfusion)
      intro q alive
      change (if q = pid then some utime else a.process q) ≠ none
      split
      · exact Option.some_ne_none utime
      · exact alive
  | exit pid =>
      obtain ⟨q,same,_,small,_⟩ := findGetPid_some enabled
      exact surveyed.exit (by omega)
  | write pid => exact surveyed.write fits
  | opened file name =>
      exact surveyed.aside ⟨rfl,rfl,rfl,rfl⟩ (fun _ alive => alive) (fun _ wrote => AseCall.noConfusion wrote.1) (fun _ => AseCall.noConfusion)
  | read file shown =>
      exact surveyed.aside ⟨rfl,rfl,rfl,rfl⟩ (fun _ alive => alive) (fun _ wrote => AseCall.noConfusion wrote.1) (fun _ => AseCall.noConfusion)
  | close file =>
      exact surveyed.aside ⟨rfl,rfl,rfl,rfl⟩ (fun _ alive => alive) (fun _ wrote => AseCall.noConfusion wrote.1) (fun _ => AseCall.noConfusion)

theorem tracks_while_fitting (run : Run AseStep (Ase.loaded process) past a) (fits : Met (fun t c => AseCall.Fits t c) past) :
    Tracks past a := by
  have surveyed : Surveyed past a := by
    induction run with
    | start => exact surveyed_loaded process
    | next _ taken ih =>
        obtain ⟨before,last⟩ := met_snoc.mp fits
        exact (ih before).step last taken
  exact surveyed.toTracks

-- One PID, tracked.
theorem tracks_one : Tracks
    [(Ase.loaded fun _ => none,.fork 300),(AseCall.act (Ase.loaded fun _ => none) (.fork 300),.write 300)]
    (AseCall.act (AseCall.act (Ase.loaded fun _ => none) (.fork 300)) (.write 300)) := by
  have forked : AseStep (Ase.loaded fun _ => none) (.fork 300) (AseCall.act (Ase.loaded fun _ => none) (.fork 300)) :=
    ⟨⟨rfl,by decide,by decide⟩,rfl⟩
  have added : AseStep (AseCall.act (Ase.loaded fun _ => none) (.fork 300)) (.write 300) _ := ⟨trivial,rfl⟩
  apply tracks_while_fitting (((Run.start (Ase.loaded fun _ => none)).next forked).next added)
  refine met_snoc.mpr ⟨met_snoc.mpr ⟨met_nil,trivial⟩,?_⟩
  intro _
  refine ⟨by decide,?_,fun _ => by decide⟩
  intro listed
  obtain ⟨i,low,_⟩ := listed
  exact absurd low (Nat.not_lt_zero i)

-- A PID that comes back after its process has exited.
theorem tracks_not_again : ¬ ∀ process past a, Run AseStep (Ase.loaded process) past a → Tracks past a := by
  intro all
  let a1 := AseCall.act (Ase.loaded fun _ => none) (.fork 300)
  let a2 := AseCall.act a1 (.write 300)
  let a3 := AseCall.act a2 (.exit 300)
  let a4 := AseCall.act a3 (.fork 300)
  let a5 := AseCall.act a4 (.write 300)
  have forked : AseStep (Ase.loaded fun _ => none) (.fork 300) a1 := ⟨⟨rfl,by decide,by decide⟩,rfl⟩
  have added : AseStep a1 (.write 300) a2 := ⟨trivial,rfl⟩
  have exited : AseStep a2 (.exit 300) a3 := ⟨Option.some_ne_none 0,rfl⟩
  have again : AseStep a3 (.fork 300) a4 := ⟨⟨rfl,by decide,by decide⟩,rfl⟩
  have readded : AseStep a4 (.write 300) a5 := ⟨trivial,rfl⟩
  have run := ((((Run.start (Ase.loaded fun _ => none)).next forked).next added).next exited).next again |>.next readded
  have names : a5.names = [] := by decide
  have tracks := all _ _ _ run
  have entry := (tracks.entries 300).mpr ((followed_snoc _ _ _ _).mpr (.inl ⟨rfl,Option.some_ne_none 0⟩))
  rw [names] at entry
  exact absurd entry List.not_mem_nil

-- The last file that was opened is one of this PID.
def LastOpened (past : List (Ase × AseCall)) (pid : Int) : Prop := ∃ before a file name after,
  past = before ++ (a,.opened file name) :: after ∧ kstrtol name = pid ∧ ∀ entry ∈ after, ∀ file name, entry.2 ≠ .opened file name

theorem lastOpened_snoc (past : List (Ase × AseCall)) (a : Ase) (c : AseCall) (pid : Int) : LastOpened (past ++ [(a,c)]) pid ↔
    (∃ file name, c = .opened file name ∧ kstrtol name = pid) ∨ LastOpened past pid ∧ ∀ file name, c ≠ .opened file name := by
  constructor
  · intro last
    obtain ⟨before,t,file,name,after,equal,value,later⟩ := last
    cases after using List.reverseRecOn with
    | nil =>
        obtain ⟨_,same⟩ := List.append_inj' equal rfl
        cases same
        exact .inl ⟨file,name,rfl,value⟩
    | append_singleton after latest =>
        rw [← List.cons_append,← List.append_assoc] at equal
        obtain ⟨front,same⟩ := List.append_inj' equal rfl
        cases same
        refine .inr ⟨⟨before,t,file,name,after,front,value,fun entry member => later entry (List.mem_append_left _ member)⟩,?_⟩
        exact later (a,c) (List.mem_append_right _ (List.mem_singleton_self _))
  · intro either
    rcases either with ⟨file,name,here,value⟩ | ⟨⟨before,t,file,name,after,equal,value,later⟩,other⟩
    · rw [here]
      exact ⟨past,a,file,name,[],rfl,value,fun entry member => absurd member List.not_mem_nil⟩
    · refine ⟨before,t,file,name,after ++ [(a,c)],by rw [equal,List.append_assoc,List.cons_append],value,?_⟩
      intro entry member
      rcases List.mem_append.mp member with old | new
      · exact later entry old
      · rw [List.mem_singleton.mp new]
        exact other

theorem asepidAction_aside (a : Ase) (pid : Int) : (asepidAction a pid).currentPid = a.currentPid ∧
    (asepidAction a pid).files = a.files := by
  unfold asepidAction
  split
  · exact ⟨rfl,rfl⟩
  · split
    · exact ⟨rfl,rfl⟩
    · exact ⟨rfl,rfl⟩
    · dsimp only
      split
      · exact ⟨rfl,rfl⟩
      · exact ⟨rfl,rfl⟩

theorem asepidTerminatePid_aside (a : Ase) (pid : Nat) : (asepidTerminatePid a pid).currentPid = a.currentPid ∧
    ∀ file, (asepidTerminatePid a pid).files file ≠ none → a.files file ≠ none := by
  unfold asepidTerminatePid
  split
  · exact ⟨rfl,fun _ some => some⟩
  · refine ⟨rfl,fun file some => ?_⟩
    change (if a.files file = Option.some (snprintf 20 pid) then none else a.files file) ≠ none at some
    split at some
    · exact absurd rfl some
    · exact some
  · exact ⟨rfl,fun _ some => some⟩

-- Only an open sets current_pid or makes a file.
theorem act_aside (a : Ase) (other : ∀ file name, c ≠ .opened file name) : (c.act a).currentPid = a.currentPid ∧
    ∀ file, (c.act a).files file ≠ none → a.files file ≠ none := by
  cases c with
  | fork pid => exact ⟨rfl,fun _ some => some⟩
  | tick pid utime => exact ⟨rfl,fun _ some => some⟩
  | exit pid => exact asepidTerminatePid_aside a pid
  | write pid =>
      obtain ⟨current,files⟩ := asepidAction_aside a pid
      refine ⟨current,fun file some => ?_⟩
      rw [AseCall.act,files] at some
      exact some
  | opened file name => exact absurd rfl (other file name)
  | read file shown => exact ⟨rfl,fun _ some => some⟩
  | close closed =>
      refine ⟨rfl,fun file some => ?_⟩
      change (if file = closed then none else a.files file) ≠ none at some
      split at some
      · exact absurd rfl some
      · exact some

-- While a file is open, current_pid is the PID of the last one that was opened.
theorem current_last (run : Run AseStep (Ase.loaded process) past a) :
    (∀ pid, LastOpened past pid → a.currentPid = pid) ∧ ∀ file, a.files file ≠ none → LastOpened past a.currentPid := by
  induction run with
  | start =>
      refine ⟨?_,fun file some => absurd rfl some⟩
      intro pid last
      obtain ⟨before,_,_,_,_,equal,_⟩ := last
      exact absurd equal.symm (List.append_ne_nil_of_right_ne_nil before (List.cons_ne_nil _ _))
  | @next t u past c front taken ih =>
      obtain ⟨seen,opened⟩ := ih
      obtain ⟨_,equal⟩ := taken
      cases equal
      by_cases opens : ∃ file name, c = .opened file name
      · obtain ⟨file,name,rfl⟩ := opens
        refine ⟨?_,fun _ _ => (lastOpened_snoc _ _ _ _).mpr (.inl ⟨file,name,rfl,rfl⟩)⟩
        intro pid last
        rcases (lastOpened_snoc _ _ _ _).mp last with ⟨_,_,same,value⟩ | ⟨_,other⟩
        · cases same
          exact value
        · exact absurd rfl (other file name)
      · have other : ∀ file name, c ≠ .opened file name := fun file name same => opens ⟨file,name,same⟩
        obtain ⟨current,files⟩ := act_aside t other
        refine ⟨?_,?_⟩
        · intro pid last
          rw [current]
          rcases (lastOpened_snoc _ _ _ _).mp last with ⟨file,name,same,_⟩ | ⟨old,_⟩
          · exact absurd same (other file name)
          · exact seen pid old
        · intro file some
          rw [current]
          exact (lastOpened_snoc _ _ _ _).mpr (.inr ⟨opened file (files file some),other⟩)

-- A read through a file of a PID that has a process shows that process.
def ReadsRight (past : List (Ase × AseCall)) : Prop := ∀ before a file shown after name utime,
  past = before ++ (a,.read file shown) :: after → a.files file = some name → a.findGetPid (kstrtol name) = some utime →
  shown = some (kstrtol name,utime)

-- No file of another PID is opened between such a read and the open before it.
def ReadsLast (past : List (Ase × AseCall)) : Prop := ∀ before a file shown after name utime,
  past = before ++ (a,.read file shown) :: after → a.files file = some name → a.findGetPid (kstrtol name) = some utime →
  LastOpened before (kstrtol name)

theorem reads_share_current (run : Run AseStep (Ase.loaded process) past a) : ReadsRight past ↔ ReadsLast past := by
  have each : ∀ before t file shown after name utime, past = before ++ (t,.read file shown) :: after → t.files file = some name →
      t.findGetPid (kstrtol name) = some utime → (shown = some (kstrtol name,utime) ↔ LastOpened before (kstrtol name)) := by
    intro before t file shown after name utime equal named alive
    subst equal
    obtain ⟨front,_,⟨_,shows⟩,_⟩ := run.split
    obtain ⟨seen,opened⟩ := current_last front
    have some : t.findGetPid (kstrtol name) ≠ none := by rw [alive]; exact Option.some_ne_none utime
    obtain ⟨p,same,_,small,_⟩ := findGetPid_some some
    have last := opened file (by rw [named]; exact Option.some_ne_none name)
    rw [shows]
    unfold asepidProcShow
    constructor
    · intro right
      obtain ⟨_,_,both⟩ := Option.map_eq_some_iff.mp right
      rw [← (Prod.mk.inj both).1]
      exact last
    · intro latest
      rw [seen _ latest,same,toInt32_pid small,← same,alive]
      rfl
  constructor
  · intro right before t file shown after name utime equal named alive
    exact (each before t file shown after name utime equal named alive).mp (right before t file shown after name utime equal named alive)
  · intro last before t file shown after name utime equal named alive
    exact (each before t file shown after name utime equal named alive).mpr (last before t file shown after name utime equal named alive)

-- One reader of one PID.
theorem reads_alone : ∃ past a file shown before, Run AseStep (Ase.loaded fun _ => some 0) past a ∧
    past = before ++ [(a,.read file shown)] ∧ (ReadsRight past ↔ ReadsLast past) := by
  let a1 := AseCall.act (Ase.loaded fun _ => some 0) (.write 1)
  let a2 := AseCall.act a1 (.opened 0 (decimal 1))
  have first : AseStep (Ase.loaded fun _ => some 0) (.write 1) a1 := ⟨trivial,rfl⟩
  have opens : AseStep a1 (.opened 0 (decimal 1)) a2 := ⟨(by decide : decimal 1 ∈ a1.names),rfl⟩
  have read : AseStep a2 (.read 0 (asepidProcShow a2)) a2 := ⟨⟨Option.some_ne_none (decimal 1),rfl⟩,rfl⟩
  have run := (((Run.start (Ase.loaded fun _ => some 0)).next first).next opens).next read
  exact ⟨_,_,_,_,_,run,rfl,reads_share_current run⟩

-- Two readers of two PIDs.
theorem reads_not_own : ¬ ∀ process past a, Run AseStep (Ase.loaded process) past a → ReadsRight past := by
  intro all
  let a1 := AseCall.act (Ase.loaded fun _ => some 0) (.write 1)
  let a2 := AseCall.act a1 (.write 2)
  let a3 := AseCall.act a2 (.opened 0 (decimal 1))
  let a4 := AseCall.act a3 (.opened 1 (decimal 2))
  have first : AseStep (Ase.loaded fun _ => some 0) (.write 1) a1 := ⟨trivial,rfl⟩
  have second : AseStep a1 (.write 2) a2 := ⟨trivial,rfl⟩
  have one : AseStep a2 (.opened 0 (decimal 1)) a3 := ⟨(by decide : decimal 1 ∈ a2.names),rfl⟩
  have two : AseStep a3 (.opened 1 (decimal 2)) a4 := ⟨(by decide : decimal 2 ∈ a3.names),rfl⟩
  have read : AseStep a4 (.read 0 (asepidProcShow a4)) a4 := ⟨⟨Option.some_ne_none (decimal 1),rfl⟩,rfl⟩
  have run := ((((Run.start (Ase.loaded fun _ => some 0)).next first).next second).next one).next two |>.next read
  have right := all _ _ _ run _ a4 0 (asepidProcShow a4) [] (decimal 1) 0 rfl rfl (by decide)
  exact absurd right (by decide)

end AsePlusPlus
