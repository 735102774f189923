import AsePlusPlus.Paths

namespace AsePlusPlus
open Words Program

-- The globals with what inumber_of_path does to the memory of its caller and of
-- its own: the indices of pathname that it reads, those of basename[16] that it
-- stores to (newest first), and the bytes from basename on.
structure Tape where
  machine : Machine
  reads : List Nat
  stores : List Nat
  basename : Nat → Byte

abbrev Pointed (α : Type) := Prog Tape Stop α

def onMachine (p : M α) : Pointed α := fun w => ((p w.machine).1,{w with machine := (p w.machine).2})

def peek (pathname : Nat → Byte) (i : Nat) : Pointed Byte := do
  modify fun w => {w with reads := i :: w.reads}
  return pathname i

def poke (i : Nat) (c : Byte) : Pointed Unit :=
  modify fun w => {w with stores := i :: w.stores,basename := Function.update w.basename i c}

-- strchr, strlen and strncpy run from index `i` of the string; a memory without a
-- NUL uses up the fuel.
def strchr (pathname : Nat → Byte) (c : Byte) : Nat → Nat → Pointed (Option Nat)
  | 0,_ => stop .loop
  | fuel+1,i => do
    let x ← peek pathname i
    if x = c then
      return some i
    else if x = 0 then
      return none
    else
      strchr pathname c fuel (i+1)

def strlen (pathname : Nat → Byte) : Nat → Nat → Pointed Nat
  | 0,_ => stop .loop
  | fuel+1,i => do
    let x ← peek pathname i
    if x = 0 then
      return 0
    else
      let rest ← strlen pathname fuel (i+1)
      return rest+1

def pad : Nat → Nat → Pointed Unit
  | 0,_ => return ()
  | count+1,k => do
    poke k 0
    pad count (k+1)

def copyChars (pathname : Nat → Byte) (i : Nat) : Nat → Nat → Pointed Unit
  | 0,_ => return ()
  | count+1,k => do
    let x ← peek pathname (i+k)
    poke k x
    if x = 0 then
      pad count (k+1)
    else
      copyChars pathname i count (k+1)

-- What a callee finds at basename, up to the NUL behind min(ENTRYMAXLENGTH, lg).
def Tape.name (w : Tape) : List Byte := ((List.range 17).map w.basename).takeWhile (· ≠ 0)

-- `lg` is an int: a component of 2^31 characters makes it negative and strncpy
-- run over the whole memory; here such a component is just a long one.
def lengthAt (pathname : Nat → Byte) (fuel i : Nat) : Pointed Nat := do
  let pos ← strchr pathname slash fuel i
  match pos with
  | some p => return p-i
  | none => strlen pathname fuel i

def componentAt (pathname : Nat → Byte) (fuel i : Nat) (icurrent : Word) : Pointed (Word × Nat) := do
  let lg ← lengthAt pathname fuel i
  copyChars pathname i (min 16 lg) 0
  poke (min 16 lg) 0
  let w ← get
  let icurrent ← onMachine (inumberOfBasename icurrent w.name)
  return (icurrent,lg)

def walkLoop (pathname : Nat → Byte) : Nat → Nat → Word → Pointed Word
  | 0,_,_ => stop .loop
  | fuel+1,i,icurrent => do
    let c ← peek pathname i
    if c = 0 then
      return icurrent
    else if c ≠ slash then
      let (icurrent,lg) ← componentAt pathname (fuel+1) i icurrent
      if icurrent = 0 then
        return 0
      else
        let c ← peek pathname (i+lg)
        if c = 0 then
          return icurrent
        else
          walkLoop pathname fuel (i+lg+1) icurrent
    else
      walkLoop pathname fuel (i+1) icurrent

def inumberOfPointer (pathname : Nat → Byte) (fuel : Nat) : Pointed Word := do
  let c ← peek pathname 0
  if c ≠ slash then
    return 0
  else
    let w ← get
    walkLoop pathname fuel 0 w.machine.super.rootInumber

-- The lookup of one component after the other.
def foldPath : Word → List (List Byte) → M Word
  | icurrent,[] => return icurrent
  | icurrent,c :: rest => do
    let icurrent ← inumberOfBasename icurrent c
    if icurrent = 0 then
      return 0
    else
      foldPath icurrent rest

-- A string in memory; what lies behind its NUL is anything.
structure StringAt (pathname : Nat → Byte) (text : List Byte) : Prop where
  chars : ∀ i c, text[i]? = some c → pathname i = c
  ends : pathname text.length = 0
  plain : (0 : Byte) ∉ text

-- Whatever the fuel, as soon as it exceeds the length of the string: the outcome
-- is that of the fold, nothing behind the NUL is read and no store leaves basename.
def WalksRight (pathname : Nat → Byte) (text : List Byte) (s : Machine) : Prop :=
  ∀ fuel basename, text.length < fuel → ∃ r w, inumberOfPointer pathname fuel ⟨s,[],[],basename⟩ = (r,w) ∧
    foldPath s.super.rootInumber (components text) s = (r,w.machine) ∧
    (∀ i ∈ w.reads, i ≤ text.length) ∧ ∀ i ∈ w.stores, i < 16

-- Each component that the walk comes to is shorter than ENTRYMAXLENGTH.
def Short : Word → List (List Byte) → Machine → Prop
  | _,[],_ => True
  | icurrent,c :: rest,s => c.length < 16 ∧
      ∀ next t, inumberOfBasename icurrent c s = (.ok next,t) → next ≠ 0 → Short next rest t

-- A component of the given length, cut to the buffer, and its NUL.
def Copied (w w' : Tape) (n : Nat) : Prop := ∃ new, w'.stores = n :: new ++ w.stores ∧ ∀ j ∈ new, j < n

theorem runs_onMachine {p : M α} {w : Tape} {Q : α → Tape → Prop} {E : Stop → Tape → Prop} :
    Runs (onMachine p) w Q E ↔
      Runs p w.machine (fun a m => Q a {w with machine := m}) (fun e m => E e {w with machine := m}) := by
  unfold onMachine Runs
  dsimp only
  cases p w.machine with
  | mk result m => cases result <;> rfl

section pointers
variable {pathname : Nat → Byte} {text : List Byte} {w w' : Tape} {i k : Nat}

def Tape.Inside (w : Tape) (n : Nat) : Prop := ∀ i ∈ w.reads, i ≤ n

theorem Tape.Inside.read (inside : w.Inside n) (low : i ≤ n) : ({w with reads := i :: w.reads} : Tape).Inside n := by
  intro j member
  rcases List.mem_cons.mp member with rfl | old
  · exact low
  · exact inside j old

variable (string : StringAt pathname text)
include string

theorem StringAt.char (low : i < text.length) : pathname i = text[i] := string.chars i _ (List.getElem?_eq_getElem low)

theorem StringAt.live (low : i < text.length) : pathname i ≠ 0 := by
  intro zero
  rw [string.char low] at zero
  exact string.plain (zero ▸ List.getElem_mem low)

-- The string from `i` on starts with the character there, or ends.
theorem StringAt.drop (low : i ≤ text.length) : (i < text.length ∧ text.drop i = pathname i :: text.drop (i+1)) ∨
    (i = text.length ∧ text.drop i = []) := by
  rcases Nat.lt_or_eq_of_le low with less | last
  · refine .inl ⟨less,?_⟩
    rw [string.char less]
    exact List.drop_eq_getElem_cons less
  · exact .inr ⟨last,List.drop_of_length_le (by omega)⟩

theorem runs_strchr (fuel : Nat) : ∀ i w, i ≤ text.length → text.length - i < fuel → w.Inside text.length →
    Returns (strchr pathname slash fuel i) w fun r w' => w'.Inside text.length ∧ w' = {w with reads := w'.reads} ∧
      r = if slash ∈ text.drop i then some (i + ((text.drop i).takeWhile (· ≠ slash)).length) else none := by
  induction fuel with
  | zero => exact fun i w _ few _ => absurd few (Nat.not_lt_zero _)
  | succ fuel ih =>
      intro i w low few inside
      have seen := inside.read low
      simp only [strchr,peek,Returns,runs_bind,runs_modify,runs_pure]
      rcases string.drop low with ⟨less,drop⟩ | ⟨last,drop⟩
      · by_cases here : pathname i = slash
        · rw [if_pos here,drop,here]
          refine ⟨seen,rfl,?_⟩
          rw [if_pos List.mem_cons_self,List.takeWhile_cons_of_neg (by simp)]
          rfl
        · rw [if_neg here,if_neg (string.live less)]
          apply (ih (i+1) _ less (by omega) seen).mono _ fun _ _ => id
          intro r w' post
          obtain ⟨inside',frame,result⟩ := post
          refine ⟨inside',by rw [frame],?_⟩
          rw [result,drop]
          have other : slash ≠ pathname i := fun same => here same.symm
          simp only [List.mem_cons,other,false_or]
          rw [List.takeWhile_cons_of_pos (by simpa using here),List.length_cons,Nat.add_assoc,Nat.add_comm 1]
      · have ends : pathname i = 0 := by rw [last]; exact string.ends
        have other : pathname i ≠ slash := by rw [ends]; decide
        rw [if_neg other,if_pos ends,drop]
        exact ⟨seen,rfl,(if_neg List.not_mem_nil).symm⟩

theorem runs_strlen (fuel : Nat) : ∀ i w, i ≤ text.length → text.length - i < fuel → w.Inside text.length →
    Returns (strlen pathname fuel i) w fun r w' => w'.Inside text.length ∧ w' = {w with reads := w'.reads} ∧
      r = text.length - i := by
  induction fuel with
  | zero => exact fun i w _ few _ => absurd few (Nat.not_lt_zero _)
  | succ fuel ih =>
      intro i w low few inside
      have seen := inside.read low
      simp only [strlen,peek,Returns,runs_bind,runs_modify,runs_pure]
      rcases Nat.lt_or_eq_of_le low with less | last
      · rw [if_neg (string.live less),runs_bind]
        apply (ih (i+1) _ less (by omega) seen).mono _ fun _ _ => id
        intro r w' post
        obtain ⟨inside',frame,result⟩ := post
        refine ⟨inside',by rw [frame],?_⟩
        rw [result]
        omega
      · have ends : pathname i = 0 := by rw [last]; exact string.ends
        rw [if_pos ends]
        exact ⟨seen,rfl,by omega⟩

theorem runs_lengthAt (low : i ≤ text.length) (few : text.length - i < fuel) (inside : w.Inside text.length) :
    Returns (lengthAt pathname fuel i) w fun r w' => w'.Inside text.length ∧ w' = {w with reads := w'.reads} ∧
      r = ((text.drop i).takeWhile (· ≠ slash)).length := by
  rw [lengthAt,Returns,runs_bind]
  apply (runs_strchr string fuel i w low few inside).mono _ fun _ _ => id
  intro pos w' post
  obtain ⟨inside',frame,found⟩ := post
  subst found
  by_cases separated : slash ∈ text.drop i
  · rw [if_pos separated]
    exact ⟨inside',frame,Nat.add_sub_cancel_left _ _⟩
  · rw [if_neg separated]
    apply (runs_strlen string fuel i w' low few inside').mono _ fun _ _ => id
    intro r w2 post
    obtain ⟨inside2,frame2,length⟩ := post
    refine ⟨inside2,by rw [frame2,frame],?_⟩
    have all : (text.drop i).takeWhile (· ≠ slash) = text.drop i := by
      refine List.takeWhile_eq_self_iff.mpr fun c member => ?_
      simp only [ne_eq,decide_eq_true_eq]
      intro same
      obtain rfl := same
      exact separated member
    rw [length,all,List.length_drop]

-- `count` characters go to their own indices.
theorem runs_copyChars (count : Nat) : ∀ k w, i + k + count ≤ text.length → w.Inside text.length →
    Returns (copyChars pathname i count k) w fun _ w' => w'.Inside text.length ∧ w'.machine = w.machine ∧
      (∀ j, w'.basename j = if k ≤ j ∧ j < k + count then pathname (i+j) else w.basename j) ∧
      ∃ new, w'.stores = new ++ w.stores ∧ ∀ j ∈ new, j < k + count := by
  induction count with
  | zero =>
      intro k w _ inside
      exact ⟨inside,rfl,fun j => (if_neg (by omega)).symm,[],rfl,fun j none => absurd none List.not_mem_nil⟩
  | succ count ih =>
      intro k w low inside
      simp only [copyChars,peek,poke,Returns,runs_bind,runs_modify,runs_pure]
      rw [if_neg (string.live (show i+k < text.length by omega))]
      refine Runs.mono (ih (k+1) _ (by omega) ?_) ?_ fun _ _ => id
      · exact inside.read (show i+k ≤ text.length by omega)
      intro _ w' post
      obtain ⟨inside',machine,bytes,new,stores,below⟩ := post
      dsimp only at machine bytes stores
      refine ⟨inside',machine,fun j => ?_,new ++ [k],by rw [stores,List.append_assoc]; rfl,fun j member => ?_⟩
      · rw [bytes j]
        by_cases here : j = k
        · subst here
          rw [if_neg (by omega),if_pos (by omega),Function.update_self]
        · rw [Function.update_of_ne here]
          exact if_congr (by omega) rfl rfl
      · rcases List.mem_append.mp member with later | here
        · have bound := below j later
          omega
        · rw [List.mem_singleton.mp here]
          omega

-- The name that the callee finds.
theorem name_copied {v : Tape} (low : i + n ≤ text.length) (few : n ≤ 16)
    (bytes : ∀ j, w.basename j = if j = n then 0 else if j < n then pathname (i+j) else v.basename j) :
    w.name = (text.drop i).take n := by
  have long : ((text.drop i).take n).length = n := by
    rw [List.length_take,List.length_drop]
    omega
  have split : (List.range 17).map w.basename = (text.drop i).take n ++ 0 :: (List.range' (n+1) (16-n)).map w.basename := by
    have range : List.range 17 = List.range' 0 n ++ n :: List.range' (n+1) (16-n) := by
      rw [List.range_eq_range',show 17 = n + (16-n+1) by omega,← List.range'_append_1,Nat.zero_add,List.range'_succ]
    rw [range,List.map_append,List.map_cons,bytes n,if_pos rfl]
    congr 1
    refine List.ext_getElem (by rw [long]; simp) fun j left right => ?_
    have small : j < n := by simpa using left
    rw [List.getElem_map,List.getElem_range',Nat.one_mul,Nat.zero_add,bytes j,if_neg (Nat.ne_of_lt small),if_pos small,
      List.getElem_take,List.getElem_drop]
    exact string.char (by omega)
  unfold Tape.name
  rw [split,List.takeWhile_append_of_pos]
  · rw [List.takeWhile_cons_of_neg (by simp),List.append_nil]
  · intro c member
    have within := List.mem_of_mem_drop (List.mem_of_mem_take member)
    simp only [ne_eq,decide_eq_true_eq]
    intro same
    obtain rfl := same
    exact string.plain within

-- One component: where it ends, and what is stored and looked up for it.
theorem runs_componentAt (icurrent : Word) (less : i < text.length) (few : text.length - i < fuel) (inside : w.Inside text.length) :
    Runs (componentAt pathname fuel i icurrent) w
      (fun r w' => r.2 = ((text.drop i).takeWhile (· ≠ slash)).length ∧
        inumberOfBasename icurrent (((text.drop i).takeWhile (· ≠ slash)).take 16) w.machine = (.ok r.1,w'.machine) ∧
        w'.Inside text.length ∧ Copied w w' (min 16 ((text.drop i).takeWhile (· ≠ slash)).length))
      (fun e w' => inumberOfBasename icurrent (((text.drop i).takeWhile (· ≠ slash)).take 16) w.machine = (.error e,w'.machine) ∧
        w'.Inside text.length ∧ Copied w w' (min 16 ((text.drop i).takeWhile (· ≠ slash)).length)) := by
  generalize first : (text.drop i).takeWhile (· ≠ slash) = comp
  have within : comp.length ≤ (text.drop i).length := by
    rw [← first]
    exact (List.takeWhile_sublist _).length_le
  rw [List.length_drop] at within
  have cut : (text.drop i).take (min 16 comp.length) = comp.take 16 := by
    have whole : comp = (text.drop i).take comp.length := by
      rw [← first]
      exact List.prefix_iff_eq_take.mp (List.takeWhile_prefix _)
    conv => rhs; rw [whole]
    rw [List.take_take]
  unfold componentAt
  rw [runs_bind]
  refine Runs.of_returns (runs_lengthAt string (Nat.le_of_lt less) few inside) ?_
  intro lg w1 post
  obtain ⟨inside1,frame1,length⟩ := post
  rw [first] at length
  subst length
  rw [runs_bind]
  refine Runs.of_returns (runs_copyChars string (min 16 comp.length) 0 w1 (by omega) inside1) ?_
  intro _ w2 post
  obtain ⟨inside2,machine2,bytes,new,stores,below⟩ := post
  simp only [poke,runs_bind,runs_modify,runs_get]
  have named := name_copied (w := {w2 with
    stores := min 16 comp.length :: w2.stores
    basename := Function.update w2.basename (min 16 comp.length) 0}) (v := w1) (i := i) (n := min 16 comp.length) string
    (by omega) (by omega) (by
      intro j
      dsimp only
      by_cases last : j = min 16 comp.length
      · rw [if_pos last,last,Function.update_self]
      · rw [if_neg last,Function.update_of_ne last,bytes j]
        exact if_congr (by omega) rfl rfl)
  rw [named,cut]
  have kept : w2.machine = w.machine := by rw [machine2,frame1]
  have stored : ∃ new, w2.stores = new ++ w.stores ∧ ∀ j ∈ new, j < min 16 comp.length := by
    refine ⟨new,by rw [stores,frame1],fun j member => ?_⟩
    have bound := below j member
    omega
  obtain ⟨new,stores,below⟩ := stored
  rw [runs_onMachine,← kept]
  cases looked : inumberOfBasename icurrent (comp.take 16) w2.machine with
  | mk result m =>
      cases result with
      | ok next =>
          refine (runs_eq looked).mpr ⟨rfl,rfl,inside2,new,?_,below⟩
          rw [List.cons_append,← stores]
      | error e =>
          refine (runs_error looked).mpr ⟨rfl,inside2,new,?_,below⟩
          rw [List.cons_append,← stores]

-- What the walk over the rest of the string comes to.
structure Walked (text path : List Byte) (icurrent : Word) (s : Machine) (stores : List Nat) (w' : Tape)
    (o : Except Stop Word) : Prop where
  result : pathLoop icurrent path s = (o,w'.machine)
  inside : w'.Inside text.length
  grown : ∀ j ∈ stores, j ∈ w'.stores
  short : Short icurrent (components path) s → (∀ j ∈ stores, j < 16) → ∀ j ∈ w'.stores, j < 16
  long : ¬ Short icurrent (components path) s → 16 ∈ w'.stores

omit string in
theorem Copied.grown (stored : Copied w w' n) : ∀ j ∈ w.stores, j ∈ w'.stores := by
  obtain ⟨new,stores,_⟩ := stored
  intro j member
  rw [stores]
  exact List.mem_append_right _ member

omit string in
theorem Copied.short (stored : Copied w w' (min 16 n)) (small : n < 16) (before : ∀ j ∈ w.stores, j < 16) :
    ∀ j ∈ w'.stores, j < 16 := by
  obtain ⟨new,stores,below⟩ := stored
  intro j member
  rw [stores] at member
  rcases List.mem_append.mp member with late | early
  · rcases List.mem_cons.mp late with last | copied
    · omega
    · have bound := below j copied
      omega
  · exact before j early

omit string in
theorem Copied.long (stored : Copied w w' (min 16 n)) (long : ¬ n < 16) : 16 ∈ w'.stores := by
  obtain ⟨new,stores,_⟩ := stored
  rw [stores,Nat.min_eq_left (Nat.le_of_not_lt long)]
  exact List.mem_append_left _ List.mem_cons_self

-- The string behind a component.
omit string in
theorem drop_takeWhile (p : Byte → Bool) (l : List Byte) : l.drop (l.takeWhile p).length = l.dropWhile p := by
  have behind : (l.takeWhile p ++ l.dropWhile p).drop (l.takeWhile p).length = l.dropWhile p := List.drop_left
  rwa [List.takeWhile_append_dropWhile] at behind

omit string in
theorem short_cons {c : List Byte} {names : List (List Byte)} {s t : Machine} {icurrent next : Word}
    (looked : inumberOfBasename icurrent (c.take 16) s = (.ok next,t)) :
    Short icurrent (c :: names) s ↔ c.length < 16 ∧ (next ≠ 0 → Short next names t) := by
  refine and_congr_right fun small => ?_
  rw [List.take_of_length_le (Nat.le_of_lt small)] at looked
  constructor
  · exact fun later => later next t looked
  · intro later next' t' looked'
    rw [looked] at looked'
    cases looked'
    exact later

section walked
omit string
variable {c : Byte} {rest : List Byte} {icurrent next : Word} {s : Machine} {o : Except Stop Word}

theorem Walked.nil (inside : w.Inside text.length) (icurrent : Word) : Walked text [] icurrent w.machine w.stores w (.ok icurrent) :=
  ⟨by rw [pathLoop]; rfl,inside,fun _ => id,fun _ => id,fun never => absurd trivial never⟩

theorem Walked.slashed (walked : Walked text rest icurrent s stores w' o) :
    Walked text (slash :: rest) icurrent s stores w' o := by
  obtain ⟨result,inside,grown,short,long⟩ := walked
  refine ⟨by rw [pathLoop,if_pos rfl]; exact result,inside,grown,?_,?_⟩
  · rw [components_slash]; exact short
  · rw [components_slash]; exact long

variable (other : c ≠ slash) (inside : w'.Inside text.length)
  (stored : Copied w w' (min 16 ((c :: rest).takeWhile (· ≠ slash)).length))
include other inside stored

theorem Walked.failed (looked : inumberOfBasename icurrent (((c :: rest).takeWhile (· ≠ slash)).take 16) w.machine =
    (.error e,w'.machine)) : Walked text (c :: rest) icurrent w.machine w.stores w' (.error e) := by
  refine ⟨?_,inside,stored.grown,?_,?_⟩
  · rw [pathLoop,if_neg other]
    simp only [bind,looked]
  · rw [components_cons c rest other]
    exact fun all => stored.short all.1
  · rw [components_cons c rest other]
    intro not
    refine stored.long fun small => not ⟨small,fun next t found => ?_⟩
    rw [List.take_of_length_le (Nat.le_of_lt small),found] at looked
    cases looked

theorem Walked.missing (looked : inumberOfBasename icurrent (((c :: rest).takeWhile (· ≠ slash)).take 16) w.machine =
    (.ok 0,w'.machine)) : Walked text (c :: rest) icurrent w.machine w.stores w' (.ok 0) := by
  refine ⟨?_,inside,stored.grown,?_,?_⟩
  · rw [pathLoop,if_neg other]
    simp only [bind,looked]
    rfl
  · rw [components_cons c rest other]
    exact fun all => stored.short all.1
  · rw [components_cons c rest other,short_cons looked]
    exact fun not => stored.long fun small => not ⟨small,fun live => absurd rfl live⟩

omit inside in
theorem Walked.found (looked : inumberOfBasename icurrent (((c :: rest).takeWhile (· ≠ slash)).take 16) w.machine =
    (.ok next,w'.machine)) (live : next ≠ 0)
    (walked : Walked text ((c :: rest).dropWhile (· ≠ slash)).tail next w'.machine w'.stores w'' o) :
    Walked text (c :: rest) icurrent w.machine w.stores w'' o := by
  obtain ⟨result,inside,grown,short,long⟩ := walked
  refine ⟨?_,inside,fun j member => grown j (stored.grown j member),?_,?_⟩
  · rw [pathLoop,if_neg other]
    simp only [bind,looked,if_neg live]
    exact result
  · rw [components_cons c rest other,short_cons looked]
    exact fun all before => short (all.2 live) (stored.short all.1 before)
  · rw [components_cons c rest other,short_cons looked]
    intro not
    by_cases small : ((c :: rest).takeWhile (· ≠ slash)).length < 16
    · exact long fun later => not ⟨small,fun _ => later⟩
    · exact grown 16 (stored.long small)

end walked

theorem runs_walkLoop (fuel : Nat) : ∀ i icurrent w, i ≤ text.length → text.length - i < fuel → w.Inside text.length →
    Runs (walkLoop pathname fuel i icurrent) w
      (fun r w' => Walked text (text.drop i) icurrent w.machine w.stores w' (.ok r))
      (fun e w' => Walked text (text.drop i) icurrent w.machine w.stores w' (.error e)) := by
  induction fuel with
  | zero => exact fun i _ w _ few _ => absurd few (Nat.not_lt_zero _)
  | succ fuel ih =>
      intro i icurrent w low few inside
      have seen := inside.read low
      simp only [walkLoop,peek,runs_bind,runs_modify,runs_pure]
      rcases string.drop low with ⟨less,drop⟩ | ⟨last,drop⟩
      swap
      · have ends : pathname i = 0 := by rw [last]; exact string.ends
        rw [if_pos ends,drop]
        exact .nil seen icurrent
      rw [if_neg (string.live less)]
      by_cases here : pathname i = slash
      · rw [if_neg (not_not.mpr here),drop,here]
        exact (ih (i+1) icurrent _ less (by omega) seen).mono (fun _ _ => Walked.slashed) (fun _ _ => Walked.slashed)
      rw [if_pos here,runs_bind]
      refine (runs_componentAt string icurrent less (by omega) seen).mono ?_ ?_
      · intro r w1 post
        obtain ⟨next,lg⟩ := r
        obtain ⟨length,looked,inside1,stored⟩ := post
        have behind := drop_takeWhile (· ≠ slash) (text.drop i)
        rw [← length,List.drop_drop] at behind
        have reach : i+lg ≤ text.length := by
          have most := (List.takeWhile_sublist (p := (· ≠ slash)) (l := text.drop i)).length_le
          rw [List.length_drop] at most
          omega
        rw [drop] at looked stored behind ⊢
        by_cases missing : next = 0
        · rw [missing] at looked ⊢
          rw [if_pos rfl]
          exact Walked.missing (w := {w with reads := i :: w.reads}) here inside1 stored looked
        rw [if_neg missing]
        have seen' := inside1.read reach
        simp only [runs_bind,runs_modify,runs_pure]
        have onward : ∀ w2 o, Walked text (text.drop (i+lg)).tail next w1.machine w1.stores w2 o →
            Walked text (pathname i :: text.drop (i+1)) icurrent w.machine w.stores w2 o := by
          intro w2 o walked
          refine Walked.found (w := {w with reads := i :: w.reads}) here stored looked missing ?_
          rw [← behind]
          exact walked
        rcases string.drop reach with ⟨less',drop'⟩ | ⟨last',drop'⟩
        · rw [if_neg (string.live less')]
          rw [drop'] at onward
          exact (ih (i+lg+1) next _ less' (by omega) seen').mono (fun _ _ => onward _ _) (fun _ _ => onward _ _)
        · have ends : pathname (i+lg) = 0 := by rw [last']; exact string.ends
          rw [if_pos ends]
          rw [drop'] at onward
          exact onward _ _ (.nil seen' next)
      · intro e w1 post
        obtain ⟨looked,inside1,stored⟩ := post
        rw [drop] at looked stored ⊢
        exact Walked.failed (w := {w with reads := i :: w.reads}) here inside1 stored looked

omit string in
theorem path_absolute (absolute : Absolute text) (s : Machine) : inumberOfPath text s = pathLoop s.super.rootInumber text s :=
  congrFun (if_neg (not_not.mpr absolute)) s

-- The pointers compute what the loop over the text does.
theorem pointer_path (fuel : Nat) (basename : Nat → Byte) (few : text.length < fuel) (s : Machine) :
    ∃ r w, inumberOfPointer pathname fuel ⟨s,[],[],basename⟩ = (r,w) ∧ inumberOfPath text s = (r,w.machine) ∧
      w.Inside text.length ∧ (Absolute text → Short s.super.rootInumber (components text) s → ∀ j ∈ w.stores, j < 16) ∧
      (Absolute text → ¬ Short s.super.rootInumber (components text) s → 16 ∈ w.stores) := by
  have none : (Tape.mk s [] [] basename).Inside text.length := fun i member => absurd member List.not_mem_nil
  have seen := none.read (Nat.zero_le text.length)
  have first : pathname 0 = slash ↔ Absolute text := by
    unfold Absolute
    cases text with
    | nil =>
        have ends : pathname 0 = 0 := string.ends
        rw [ends]
        decide
    | cons c rest =>
        rw [string.chars 0 c rfl,List.head?_cons,Option.some.injEq]
  by_cases absolute : Absolute text
  · have begun : inumberOfPointer pathname fuel ⟨s,[],[],basename⟩ =
        walkLoop pathname fuel 0 s.super.rootInumber ⟨s,[0],[],basename⟩ := by
      simp only [inumberOfPointer,peek,bind,Program.modify,pure]
      exact congrFun (if_neg (not_not.mpr (first.mpr absolute))) _
    rw [begun,path_absolute absolute]
    have walked := runs_walkLoop string fuel 0 s.super.rootInumber ⟨s,[0],[],basename⟩ (Nat.zero_le _) (by omega) seen
    rw [List.drop_zero] at walked
    cases ran : walkLoop pathname fuel 0 s.super.rootInumber ⟨s,[0],[],basename⟩ with
    | mk r w =>
        have post : Walked text text s.super.rootInumber s [] w r := by
          cases r with
          | ok i => exact walked.result ran
          | error e => exact (runs_error ran).mp walked
        exact ⟨r,w,rfl,post.result,post.inside,fun _ all => post.short all fun j none => absurd none List.not_mem_nil,
          fun _ not => post.long not⟩
  · have begun : inumberOfPointer pathname fuel ⟨s,[],[],basename⟩ = (.ok 0,⟨s,[0],[],basename⟩) := by
      simp only [inumberOfPointer,peek,bind,Program.modify,pure]
      exact congrFun (if_pos fun same => absolute (first.mp same)) _
    have begun' : inumberOfPath text s = (.ok 0,s) := by
      unfold inumberOfPath
      exact congrFun (if_pos absolute) s
    exact ⟨_,_,begun,begun',seen,fun there => absurd there absolute,fun there => absurd there absolute⟩

end pointers

-- Short components are looked up in full.
theorem fold_short (icurrent : Word) (path : List Byte) : ∀ s, Short icurrent (components path) s →
    pathLoop icurrent path s = foldPath icurrent (components path) s := by
  induction icurrent, path using pathLoop.induct with
  | case1 icurrent =>
      intro s _
      rw [pathLoop,components_nil]
      rfl
  | case2 icurrent rest ih =>
      rw [pathLoop,if_pos rfl,components_slash]
      exact ih
  | case3 icurrent c rest other ih =>
      intro s short
      rw [components_cons c rest other] at short ⊢
      rw [pathLoop,if_neg other,List.take_of_length_le (Nat.le_of_lt short.1)]
      simp only [foldPath,bind]
      cases looked : inumberOfBasename icurrent ((c :: rest).takeWhile (· ≠ slash)) s with
      | mk result t =>
          cases result with
          | error e => rfl
          | ok next =>
              dsimp only
              by_cases missing : next = 0
              · rw [if_pos missing,if_pos missing]
              · rw [if_neg missing,if_neg missing]
                exact ih next t (short.2 next t looked missing)

theorem fold_path (absolute : Absolute text) (short : Short s.super.rootInumber (components text) s) :
    inumberOfPath text s = foldPath s.super.rootInumber (components text) s := by
  rw [← fold_short _ _ s short]
  exact path_absolute absolute s

theorem walks_short {pathname : Nat → Byte} (string : StringAt pathname text) (absolute : Absolute text)
    (short : Short s.super.rootInumber (components text) s) : WalksRight pathname text s := by
  intro fuel basename few
  obtain ⟨r,w,ran,path,inside,below,_⟩ := pointer_path string fuel basename few s
  rw [fold_path absolute short] at path
  exact ⟨r,w,ran,path,inside,below absolute short⟩

theorem walks_long {pathname : Nat → Byte} (string : StringAt pathname text) (absolute : Absolute text)
    (long : ¬ Short s.super.rootInumber (components text) s) : ¬ WalksRight pathname text s := by
  intro right
  obtain ⟨r,w,ran,_,_,below⟩ := right (text.length+1) (fun _ => 0) (Nat.lt_succ_self _)
  obtain ⟨r',w',ran',_,_,_,beyond⟩ := pointer_path string (text.length+1) (fun _ => 0) (Nat.lt_succ_self _) s
  rw [ran] at ran'
  cases ran'
  exact absurd (below 16 (beyond absolute long)) (Nat.lt_irrefl 16)

theorem path_walk_exact {pathname : Nat → Byte} (string : StringAt pathname text) (absolute : Absolute text) (s : Machine) :
    WalksRight pathname text s ↔ Short s.super.rootInumber (components text) s := by
  constructor
  · intro right
    by_contra long
    exact walks_long string absolute long right
  · exact walks_short string absolute

-- A string and the zeros behind it.
def zeroed (text : List Byte) (i : Nat) : Byte := text[i]?.getD 0

theorem zeroed_string (plain : (0 : Byte) ∉ text) : StringAt (zeroed text) text where
  chars i c found := by unfold zeroed; rw [found]; rfl
  ends := by unfold zeroed; rw [List.getElem?_eq_none (Nat.le_refl _)]; rfl
  plain := plain

theorem path_walk_exact_letter : ∃ s, initSuper 0 0 (zeros 8 32) (recordedDisk (volumeOf 64)) = (.ok (),s) ∧
    WalksRight (zeroed [slash,slash,97,slash]) [slash,slash,97,slash] s := by
  obtain ⟨s,equal,_⟩ := volumeOf_fresh (n := 64) (by decide) (by decide) 0 (zeros 8 32)
  refine ⟨s,equal,(path_walk_exact (zeroed_string (by decide)) (by decide) s).mpr ?_⟩
  have single : components [slash,slash,97,slash] = [[97]] := by decide
  rw [single]
  exact ⟨by decide,fun _ _ _ _ => trivial⟩

-- A name of sixteen letters: its NUL goes to basename[16].
theorem path_walk_overruns : ∃ s, initSuper 0 0 (zeros 8 32) (recordedDisk (volumeOf 64)) = (.ok (),s) ∧
    ¬ WalksRight (zeroed (slash :: List.replicate 16 97)) (slash :: List.replicate 16 97) s := by
  obtain ⟨s,equal,_⟩ := volumeOf_fresh (n := 64) (by decide) (by decide) 0 (zeros 8 32)
  refine ⟨s,equal,walks_long (zeroed_string (by decide)) (by decide) fun short => ?_⟩
  have single : components (slash :: List.replicate 16 97) = [List.replicate 16 97] := by decide
  rw [single] at short
  exact absurd short.1 (by decide)

end AsePlusPlus
