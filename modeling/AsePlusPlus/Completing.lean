import AsePlusPlus.Lib.Drain
import AsePlusPlus.Listing
import AsePlusPlus.Workdir

namespace AsePlusPlus
open Words Program Trace Climb Drain

-- file.h
def maxpath : Nat := 1024

-- The variables that list_generator keeps between its calls.
structure Generator where
  listIndex : Nat
  len : Nat
  lastSlash : Nat
  subentries : List (List Byte)
  entryLenght : Nat

def Generator.first : Generator := ⟨0,0,0,[],0⟩

variable {role : Nat → Role} {free : List Nat} {m t : Machine} {h : Desk} {g g' : Generator} {text cwd name path : List Byte}
variable {rest : List (List Byte)} {n : Nat} {o : Option (List Byte)} {u : Bool × Generator × Machine}

-- The loop over text, from its last character on.
def seekSlash (text : List Byte) : Nat → Option Nat
  | 0 => none
  | i+1 => if text[i]? = some slash then some i else seekSlash text i

-- fullname, a char[MAXPATH]; a longer one runs over its end.
def Generator.fullname (g : Generator) (text name : List Byte) : Option (List Byte) :=
  let full := text.take g.lastSlash ++ slash :: name
  if full.length < maxpath then some full else none

-- The loop over the names that are left.
def nextName (text : List Byte) : Nat → Generator → Option (Option (List Byte) × Generator)
  | 0,g => some (none,g)
  | count+1,g => do
    let full ← g.fullname text (g.subentries[g.listIndex]?.getD [])
    let g := {g with listIndex := g.listIndex+1}
    if full.take g.len = text.take g.len then
      return (some full,g)
    else if g.listIndex = g.entryLenght then
      return (none,g)
    else
      nextName text count g

-- The directory that is looked up for the names.
def wordTarget (cwd text : List Byte) (lastSlash : Nat) : Option (List Byte) :=
  if 0 < lastSlash then do
    let destination ← buffer (cwd ++ text.take lastSlash)
    canonicalPath cwd destination
  else
    canonicalPath cwd cwd

-- What is done when state is 0. last_slash stays as it is where text has no '/'.
def newWord (cwd text : List Byte) (g : Generator) : Option (M Generator) := do
  let lastSlash := (seekSlash text text.length).getD g.lastSlash
  let target ← wordTarget cwd text lastSlash
  return do
    let subentries ← listDirectory 1024 target
    return ⟨0,text.length,lastSlash,subentries,subentries.length⟩

-- list_generator; state tells whether the word has been asked for before.
def listGenerator (cwd text : List Byte) (state : Bool) (g : Generator) :
    Option (M (Option (Option (List Byte) × Generator))) := do
  let begun ← if state then some (return g) else newWord cwd text g
  return do
    let g ← begun
    return nextName text (g.entryLenght-g.listIndex) g

-- One call of it.
inductive Asks (text : List Byte) : Bool × Generator × Machine → Option (List Byte) → Bool × Generator × Machine → Prop
  | call {state : Bool} {g g' : Generator} {m t : Machine} {o : Option (List Byte)}
      {command : M (Option (Option (List Byte) × Generator))} (called : listGenerator m.cwd text state g = some command)
      (ran : command m = (.ok (some (o,g')),t)) : Asks text (state,g,m) o (true,g',t)

-- A completion: state 0 first, and then until NULL.
def Generates (text : List Byte) (g : Generator) (m : Machine) (names : List (List Byte)) (g' : Generator) (t : Machine) : Prop :=
  Drains (Asks text) (false,g,m) names (true,g',t)

-- The directory that the part of text up to its last '/' denotes.
def Machine.denoted (m : Machine) (text : List Byte) : Nat := (m.resolve (normalised m.cwd (dirname text))).toNat

def Machine.offer (m : Machine) (text : List Byte) (e : Entry) : List Byte := dirname text ++ m.spelled e

-- What a completion is to offer.
def Machine.offered (m : Machine) (text : List Byte) : List (List Byte) :=
  ((m.liveEntries (m.denoted text)).map (m.offer text)).filter (text.isPrefixOf ·)

def Completes (m : Machine) (g : Generator) (text : List Byte) : Prop :=
  (∃ g' t, Generates text g m (m.offered text) g' t) ∧ ∀ names g' t, Generates text g m names g' t → names = m.offered text

-- The part of text up to its last '/' leads to a directory, and fits behind the
-- working directory.
structure Machine.Denotes (m : Machine) (text : List Byte) : Prop where
  mounted : Mounted m
  fits : m.cwd.length+(dirname text).length ≤ maxprompt
  climbed : Climbed (components (target m.cwd (dirname text)))
  directory : m.Browses (normalised m.cwd (dirname text))

-- No vacated slot that list_directory comes to looks like a match, and no match
-- lies behind those.
structure Machine.Truthful (m : Machine) (text : List Byte) : Prop where
  vacant : ∀ e ∈ (m.entries (m.denoted text)).take maxpath, e.entInumber = 0 → ¬ text <+: m.offer text e
  behind : ∀ e ∈ (m.entries (m.denoted text)).drop maxpath, e.entInumber ≠ 0 → ¬ text <+: m.offer text e

-- Nothing of the working directory begins with text; for no text at all there is no slot.
def Machine.Silent (m : Machine) (text : List Byte) : Prop :=
  ∀ e ∈ m.entries (m.denoted text), text = [] ∨ e.entInumber ≠ 0 → ¬ text <+: m.offer text e

-- A word with a '/' is relative, or the working directory is the root; one without
-- has nothing to match, and no word before it had a '/' behind its first character.
def Completable (m : Machine) (g : Generator) (text : List Byte) : Prop :=
  m.Denotes text ∧ if slash ∈ text then (Absolute text → m.cwd = [slash]) ∧ m.Truthful text else g.lastSlash = 0 ∧ m.Silent text

inductive SessionAct where
  | command (a : CommandAct)
  | complete (text : List Byte)

-- The commands, and completions between them. One that comes to no end has run over
-- a buffer or stopped the program.
inductive SessionStep : Desk × Generator → SessionAct → Desk × Generator → Prop
  | command {h k : Desk} {g : Generator} {a : CommandAct} (taken : CommandStep h a k) : SessionStep (h,g) (.command a) (k,g)
  | complete {h : Desk} {g g' : Generator} {text : List Byte} {names : List (List Byte)} {t : Machine}
      (made : Generates text g h.machine names g' t) : SessionStep (h,g) (.complete text) (⟨t,h.descs,h.work⟩,g')
  | overruns {h : Desk} {g : Generator} {text : List Byte} {k : Desk × Generator}
      (never : ∀ names g' t, ¬ Generates text g h.machine names g' t) : SessionStep (h,g) (.complete text) k

def SessionAct.Spares (k : Desk × Generator) : SessionAct → Prop
  | .command a => a.Spares k.1
  | .complete text => Completable k.1.machine k.2 text

-- The characters before the last '/'.
theorem seekSlash_finds (front : List Byte) {last : List Byte} (plain : slash ∉ last) (n : Nat) (inside : n ≤ last.length) :
    seekSlash (front ++ slash :: last) (front.length+1+n) = some front.length := by
  induction n with
  | zero =>
      rw [Nat.add_zero,seekSlash,if_pos]
      simp
  | succ n ih =>
      have other : (front ++ slash :: last)[front.length+1+n]? ≠ some slash := by
        rw [List.getElem?_append_right (by omega),show front.length+1+n-front.length = n+1 by omega,List.getElem?_cons_succ]
        intro here
        exact plain (List.mem_of_getElem? here)
      rw [← Nat.add_assoc,seekSlash,if_neg other]
      exact ih (by omega)

theorem seekSlash_none (plain : slash ∉ text) (n : Nat) : seekSlash text n = none := by
  induction n with
  | zero => rfl
  | succ n ih =>
      rw [seekSlash,if_neg fun here => plain (List.mem_of_getElem? here)]
      exact ih

-- A word with a '/', cut at its last one.
theorem word_split (some : slash ∈ text) : ∃ front, dirname text = front ++ [slash] ∧ text.take front.length = front ∧
    seekSlash text text.length = .some front.length := by
  obtain ⟨front,ends⟩ := dirname_ends some
  have whole := dirname_append text
  rw [ends,List.append_assoc,List.singleton_append] at whole
  refine ⟨front,ends,?_,?_⟩
  · rw [← whole,List.take_left]
  · have found := seekSlash_finds front (lastBasename_plain text) (lastBasename text).length (Nat.le_refl _)
    have long := congrArg List.length whole
    rw [List.length_append,List.length_cons] at long
    rw [whole] at found
    rw [← found]
    congr 1
    omega

theorem dirname_plain (plain : slash ∉ text) : dirname text = [] := by
  have same : lastBasename text = text := by
    unfold lastBasename
    rw [List.takeWhile_eq_self_iff.mpr,List.reverse_reverse]
    intro x member
    have other : x ≠ slash := fun same => plain (same ▸ List.mem_reverse.mp member)
    simpa using other
  unfold dirname
  rw [same,Nat.sub_self,List.take_zero]

-- canonical_path, where it reads the text's components as they are meant.
theorem canonicalPath_reads {names : List (List Byte)} (fits : (target cwd path).length < maxprompt) (absolute : Absolute (target cwd path))
    (same : components (target cwd path) = names) (climbed : Climbed names) :
    canonicalPath cwd path = some (rooted (walk componentWay [] names)) := by
  have named := components_named (target cwd path)
  rw [same] at named
  rw [canonicalPath_ends _ _ fits (.inl absolute),same,(rooted_climbed named).mpr climbed]

-- The last_slash that a word goes by.
def Generator.cut (g : Generator) (text : List Byte) : Nat := (seekSlash text text.length).getD g.lastSlash

theorem cut_slash (completable : Completable m g text) :
    (text.take (g.cut text)).length ≤ maxprompt ∧ if slash ∈ text then text.take (g.cut text) ++ [slash] = dirname text else g.cut text = 0 := by
  obtain ⟨denotes,word⟩ := completable
  have fits := denotes.fits
  unfold Generator.cut
  split
  · rename_i some
    obtain ⟨front,ends,taken,found⟩ := word_split some
    rw [ends,List.length_append] at fits
    rw [found,Option.getD_some,taken,ends]
    exact ⟨by omega,rfl⟩
  · rename_i plain
    rw [if_neg plain] at word
    rw [seekSlash_none plain,Option.getD_none,word.1]
    exact ⟨Nat.zero_le _,rfl⟩

-- The directory that the completion lists is the one that the word denotes.
theorem wordTarget_reads (place : Place m.cwd) (completable : Completable m g text) :
    wordTarget m.cwd text (g.cut text) = some (normalised m.cwd (dirname text)) := by
  obtain ⟨⟨_,fits,climbed,_⟩,word⟩ := completable
  have absolute := place.absolute
  have bare (same : components m.cwd = components (target m.cwd (dirname text))) :
      canonicalPath m.cwd m.cwd = some (normalised m.cwd (dirname text)) := by
    have here := target_absolute absolute m.cwd
    exact canonicalPath_reads (by rw [here]; exact place.fits) (by rw [here]; exact absolute) (by rw [here]; exact same) climbed
  unfold wordTarget Generator.cut
  by_cases some : slash ∈ text
  swap
  · rw [if_neg some] at word
    rw [seekSlash_none some,Option.getD_none,word.1,if_neg (Nat.lt_irrefl 0)]
    apply bare
    rw [dirname_plain some,target,if_pos (by decide),List.append_nil]
  rw [if_pos some] at word
  obtain ⟨front,ends,taken,found⟩ := word_split some
  have whole := dirname_append text
  rw [ends] at whole
  rw [found,Option.getD_some,taken]
  cases front with
  | nil =>
      have rooted : Absolute text := by
        rw [← whole]
        rfl
      rw [List.length_nil,if_neg (Nat.lt_irrefl 0)]
      apply bare
      rw [word.1 rooted,ends]
      rfl
  | cons x front =>
      rw [ends,List.length_append,List.length_singleton] at fits
      have short : (m.cwd ++ x :: front).length < maxprompt := by
        rw [List.length_append]
        omega
      have absolute' : Absolute (m.cwd ++ x :: front) := by
        unfold Absolute at absolute ⊢
        rw [List.head?_append,absolute]
        rfl
      have same : components (m.cwd ++ x :: front) = components (target m.cwd (dirname text)) := by
        rw [ends,target]
        split
        · rw [← List.append_assoc,components_append,components_nil,List.append_nil]
        · rename_i rooted
          have first : Absolute text := by
            rw [← whole]
            exact not_not.mp rooted
          rw [word.1 first,components_append,components_nil,List.append_nil]
          exact components_slash _
      have here := target_absolute absolute' m.cwd
      rw [if_pos (by simp),buffer,if_pos short,Option.bind_eq_bind,Option.bind_some]
      exact canonicalPath_reads (by rw [here]; exact short) (by rw [here]; exact absolute') (by rw [here]; exact same) climbed

-- What the loop makes of one name.
def shown (text : List Byte) (n : Nat) (name : List Byte) : Option (List Byte) :=
  if text <+: text.take n ++ slash :: name then some (text.take n ++ slash :: name) else none

-- The generator with these names left.
structure Aimed (text : List Byte) (n : Nat) (g : Generator) (rest : List (List Byte)) : Prop where
  left : ∃ front, g.subentries = front ++ rest ∧ g.listIndex = front.length
  whole : g.entryLenght = g.subentries.length
  len : g.len = text.length
  slashes : g.lastSlash = n
  room : ∀ name ∈ rest, (text.take n ++ slash :: name).length < maxpath

theorem Aimed.count (aimed : Aimed text n g rest) : g.entryLenght-g.listIndex = rest.length := by
  obtain ⟨front,names,index⟩ := aimed.left
  rw [aimed.whole,names,index,List.length_append]
  omega

theorem Aimed.next (aimed : Aimed text n g (name :: rest)) : Aimed text n {g with listIndex := g.listIndex+1} rest := by
  obtain ⟨front,names,index⟩ := aimed.left
  refine ⟨⟨front ++ [name],?_,?_⟩,aimed.whole,aimed.len,aimed.slashes,fun other member => aimed.room other (List.mem_cons_of_mem name member)⟩
  · rw [List.append_assoc]
    exact names
  · rw [List.length_append,← index]
    rfl

theorem Aimed.nextName (aimed : Aimed text n g (name :: rest)) : AsePlusPlus.nextName text (rest.length+1) g =
    match shown text n name with
    | some full => some (some full,{g with listIndex := g.listIndex+1})
    | none => AsePlusPlus.nextName text rest.length {g with listIndex := g.listIndex+1} := by
  obtain ⟨front,names,index⟩ := aimed.left
  have here : g.subentries[g.listIndex]?.getD [] = name := by
    rw [names,index]
    simp
  have fits := aimed.room name (List.mem_cons_self ..)
  have full : g.fullname text name = some (text.take n ++ slash :: name) := by
    unfold Generator.fullname
    rw [aimed.slashes]
    exact if_pos fits
  have count := aimed.next.count
  rw [AsePlusPlus.nextName,here,full,Option.bind_eq_bind,Option.bind_some]
  dsimp only
  rw [aimed.len,List.take_length,shown]
  by_cases match_ : text <+: text.take n ++ slash :: name
  · rw [if_pos (List.prefix_iff_eq_take.mp match_).symm,if_pos match_]
    rfl
  · rw [if_neg fun same => match_ (List.prefix_iff_eq_take.mpr same.symm),if_neg match_]
    split
    · rename_i ended
      dsimp only at count
      have none : rest.length = 0 := by omega
      rw [none]
      rfl
    · rfl

theorem asks_again (aimed : Aimed text n g rest) (named : nextName text rest.length g = some (o,g')) :
    Asks text (true,g,m) o (true,g',m) := by
  have called : listGenerator m.cwd text true g = some (pure (nextName text (g.entryLenght-g.listIndex) g)) := rfl
  refine .call called ?_
  rw [aimed.count,named]
  rfl

theorem asked_again (aimed : Aimed text n g rest) (asked : Asks text (true,g,m) o u) :
    ∃ g', nextName text rest.length g = some (o,g') ∧ u = (true,g',m) := by
  cases asked with
  | call called ran =>
      cases called
      have whole : ((Except.ok (nextName text (g.entryLenght-g.listIndex) g) : Except _ _),m) = _ := ran
      rw [aimed.count] at whole
      obtain ⟨named,same⟩ := Prod.mk.inj whole
      rw [same]
      exact ⟨_,Except.ok.inj named,rfl⟩

-- The names that are left, seen from a call: what the loop goes through.
def Holds (text : List Byte) (n : Nat) (m : Machine) (rest : List (List Byte)) (u : Bool × Generator × Machine) : Prop :=
  ∃ g, Aimed text n g rest ∧ ∀ o g', nextName text rest.length g = some (o,g') → Asks text u o (true,g',m)

theorem picks (text : List Byte) (n : Nat) (m : Machine) :
    Picks (Asks text) (Holds text n m) (shown text n) (fun u => ∃ g, u = (true,g,m) ∧ g.lastSlash = n) := by
  have again : ∀ {g rest}, Aimed text n g rest → Holds text n m rest (true,g,m) := fun aimed =>
    ⟨_,aimed,fun _ _ => asks_again aimed⟩
  refine ⟨?_,?_,?_⟩
  · intro u holds
    obtain ⟨g,aimed,asks⟩ := holds
    exact ⟨(true,g,m),asks _ _ rfl,g,rfl,aimed.slashes⟩
  · intro u name full rest holds picked
    obtain ⟨g,aimed,asks⟩ := holds
    refine ⟨(true,{g with listIndex := g.listIndex+1},m),asks _ _ ?_,again aimed.next⟩
    rw [List.length_cons,aimed.nextName,picked]
  · intro u name rest holds picked
    obtain ⟨g,aimed,asks⟩ := holds
    refine ⟨(true,{g with listIndex := g.listIndex+1},m),again aimed.next,fun o v asked => ?_⟩
    obtain ⟨g',named,same⟩ := asked_again aimed.next asked
    subst same
    apply asks
    rw [List.length_cons,aimed.nextName,picked]
    exact named

theorem asks_determined (text : List Byte) : Determined (Asks text) := by
  intro u a b v w one two
  cases one with
  | call called ran =>
      cases two with
      | call called' ran' =>
          rw [called] at called'
          cases called'
          rw [ran] at ran'
          cases ran'
          exact ⟨rfl,rfl⟩

theorem spelled_short (m : Machine) (e : Entry) : (m.spelled e).length ≤ 17 := by
  have name : e.name.length ≤ 16 := by
    unfold Entry.name cstring
    have kept := (List.takeWhile_sublist (l := e.entBasename.toList) (· ≠ 0)).length_le
    rw [Vector.length_toList] at kept
    exact kept
  unfold Machine.spelled
  split
  · rw [List.length_append,List.length_singleton]
    omega
  · omega

-- What a word with a '/' is shown of the slots, and what is live of them.
theorem shown_slash {n : Nat} (slashed : text.take n ++ [slash] = dirname text) (m : Machine) (l : List Entry) :
    (l.map m.spelled).filterMap (shown text n) = (l.map (m.offer text)).filter (text.isPrefixOf ·) := by
  induction l with
  | nil => rfl
  | cons e l ih =>
      have full : text.take n ++ slash :: m.spelled e = m.offer text e := by
        unfold Machine.offer
        rw [← slashed,List.append_assoc,List.singleton_append]
      rw [List.map_cons,List.map_cons]
      by_cases match_ : text <+: m.offer text e
      · rw [List.filterMap_cons_some (by rw [shown,full,if_pos match_]),List.filter_cons_of_pos (List.isPrefixOf_iff_prefix.mpr match_),ih]
      · rw [List.filterMap_cons_none (by rw [shown,full,if_neg match_]),
          List.filter_cons_of_neg fun same => match_ (List.isPrefixOf_iff_prefix.mp same),ih]

theorem filter_cut {p : α → Bool} {q : α → Bool} {l : List α} {n : Nat} (first : ∀ a ∈ l.take n, p a = true → q a = true)
    (later : ∀ a ∈ l.drop n, q a = true → p a = false) : (l.take n).filter p = (l.filter q).filter p := by
  have whole := List.take_append_drop n l
  have front : (l.take n).filter p = ((l.take n).filter q).filter p := by
    rw [List.filter_filter]
    apply List.filter_congr
    intro a member
    cases here : p a with
    | false => rfl
    | true => rw [first a member here]; rfl
  have back : ((l.drop n).filter q).filter p = [] := by
    rw [List.filter_filter,List.filter_eq_nil_iff]
    intro a member both
    rw [Bool.and_eq_true] at both
    rw [later a member both.2] at both
    exact absurd both.1 (by simp)
  rw [front,← List.append_nil (((l.take n).filter q).filter p),← back,← List.filter_append,← List.filter_append,whole]

theorem offered_truthful (truthful : m.Truthful text) :
    (((m.entries (m.denoted text)).take maxpath).map (m.offer text)).filter (text.isPrefixOf ·) = m.offered text := by
  unfold Machine.offered Machine.liveEntries
  rw [List.filter_map,List.filter_map]
  congr 1
  refine filter_cut ?_ ?_
  · intro e member match_
    apply decide_eq_true
    intro vacant
    exact truthful.vacant e member vacant (List.isPrefixOf_iff_prefix.mp match_)
  · intro e member live
    apply Bool.eq_false_iff.mpr
    intro match_
    exact truthful.behind e member (of_decide_eq_true live) (List.isPrefixOf_iff_prefix.mp match_)

-- Without a '/' every name is shown with one, and matches nothing but no text at all.
theorem shown_plain (plain : slash ∉ text) (silent : m.Silent text) :
    (((m.entries (m.denoted text)).take maxpath).map m.spelled).filterMap (shown text 0) = m.offered text := by
  have nothing : m.offered text = [] := by
    unfold Machine.offered
    rw [List.filter_eq_nil_iff]
    intro full member match_
    obtain ⟨e,live,rfl⟩ := List.mem_map.mp member
    obtain ⟨among,some⟩ := List.mem_filter.mp live
    exact silent e among (.inr (of_decide_eq_true some)) (List.isPrefixOf_iff_prefix.mp match_)
  rw [nothing,List.filterMap_eq_nil_iff]
  intro name member
  obtain ⟨e,listed,rfl⟩ := List.mem_map.mp member
  rw [shown,if_neg]
  intro match_
  cases text with
  | nil => exact silent e (List.mem_of_mem_take listed) (.inl rfl) (List.nil_prefix)
  | cons x rest =>
      rw [List.take_zero,List.nil_append] at match_
      exact plain ((List.cons_prefix_cons.mp match_).1 ▸ List.mem_cons_self ..)

theorem lists_slots {path : List Byte} (layout : Layout m role free) (browsable : Browsable m role) (directory : m.Browses path) (size : Nat) :
    ∃ t, listDirectory size path m = (.ok (((m.entries (m.resolve path).toNat).take size).map m.spelled),t) ∧ Still m t := by
  obtain ⟨some,dir⟩ := directory
  obtain ⟨seen,t,ran,still,equal⟩ := returns_iff.mp (runs_listDirectorySeen layout browsable some dir size)
  refine ⟨t,?_,still⟩
  rw [listDirectory_seen]
  refine (bind_ok ran).trans ?_
  rw [equal,List.map_map]
  rfl

-- The first call looks the directory up; what it goes on with are the slots.
theorem asks_first {names : List (List Byte)} {g' : Generator} (reads : wordTarget m.cwd text (g.cut text) = some path)
    (listed : listDirectory 1024 path m = (.ok names,t))
    (named : nextName text names.length ⟨0,text.length,g.cut text,names,names.length⟩ = some (o,g')) :
    Asks text (false,g,m) o (true,g',t) := by
  have word : newWord m.cwd text g = some (do
      let subentries ← listDirectory 1024 path
      return ⟨0,text.length,g.cut text,subentries,subentries.length⟩) := by
    show (wordTarget m.cwd text (g.cut text)).bind _ = _
    rw [reads]
    rfl
  have called : listGenerator m.cwd text false g = some (do
      let g ← (do
        let subentries ← listDirectory 1024 path
        return ⟨0,text.length,g.cut text,subentries,subentries.length⟩)
      return nextName text (g.entryLenght-g.listIndex) g) := by
    show (newWord m.cwd text g).bind _ = _
    rw [word]
    rfl
  have filled : (listDirectory 1024 path >>= fun subentries =>
      pure (⟨0,text.length,g.cut text,subentries,subentries.length⟩ : Generator)) m =
      (.ok ⟨0,text.length,g.cut text,names,names.length⟩,t) := bind_ok listed
  refine .call called ((bind_ok filled).trans ?_)
  rw [← named]
  rfl

theorem generates_shown (layout : Layout m role free) (browsable : Browsable m role)
    (reads : wordTarget m.cwd text (g.cut text) = some path) (directory : m.Browses path)
    (short : (text.take (g.cut text)).length ≤ maxprompt) : ∃ g' t, Still m t ∧ g'.lastSlash = g.cut text ∧
      Generates text g m ((((m.entries (m.resolve path).toNat).take maxpath).map m.spelled).filterMap (shown text (g.cut text))) g' t := by
  obtain ⟨t,listed,still⟩ := lists_slots layout browsable directory maxpath
  have holds : Holds text (g.cut text) t (((m.entries (m.resolve path).toNat).take maxpath).map m.spelled) (false,g,m) := by
    refine ⟨_,⟨⟨[],rfl,rfl⟩,rfl,rfl,rfl,fun name member => ?_⟩,fun o g' => asks_first reads listed⟩
    obtain ⟨e,_,rfl⟩ := List.mem_map.mp member
    have named := spelled_short m e
    have bound : maxprompt+1+17 < maxpath := by decide
    rw [List.length_append,List.length_cons]
    omega
  obtain ⟨u,drained,g',same,last⟩ := (picks text (g.cut text) t).drains holds
  subst same
  exact ⟨g',t,still,last,drained⟩

-- One completion, whatever the generator still holds of the words before it.
theorem generates (layout : Layout m role free) (browsable : Browsable m role) (place : Place m.cwd) (completable : Completable m g text) :
    ∃ g' t, Generates text g m (m.offered text) g' t ∧ Still m t := by
  obtain ⟨short,cut⟩ := cut_slash completable
  obtain ⟨g',t,still,_,made⟩ := generates_shown layout browsable (wordTarget_reads place completable) completable.1.directory short
  have equal : (((m.entries (m.denoted text)).take maxpath).map m.spelled).filterMap (shown text (g.cut text)) = m.offered text := by
    have word := completable.2
    split at word
    · rename_i some
      rw [if_pos some] at cut
      rw [shown_slash cut,offered_truthful word.2]
    · rename_i plain
      rw [if_neg plain] at cut
      rw [cut,shown_plain plain word.2]
  rw [← equal]
  exact ⟨g',t,made,still⟩

theorem Generates.unique {names names' : List (List Byte)} {g'' : Generator} {t' : Machine} (one : Generates text g m names g' t)
    (two : Generates text g m names' g'' t') : names' = names ∧ t' = t := by
  obtain ⟨equal,same⟩ := Drains.unique (asks_determined text) one two
  cases same
  exact ⟨equal.symm,rfl⟩

theorem completable_completes (layout : Layout m role free) (browsable : Browsable m role) (place : Place m.cwd)
    (completable : Completable m g text) : Completes m g text := by
  obtain ⟨g',t,made,_⟩ := generates layout browsable place completable
  exact ⟨⟨g',t,made⟩,fun names g'' t' other => (made.unique other).1⟩

-- Where a volume is mounted the invariant of the commands describes it.
theorem Upright.tended (upright : Upright h) (mounted : Mounted h.machine) : ∃ role free, Tended h role free := by
  rcases upright with waiting | tended
  · exact absurd mounted.magic waiting.unmounted.mbr
  · exact tended

theorem SessionStep.upright {k l : Desk × Generator} {a : SessionAct} (upright : Upright k.1) (spares : a.Spares k)
    (taken : SessionStep k a l) : Upright l.1 := by
  cases taken with
  | command taken => exact taken.upright upright spares
  | complete made =>
      obtain ⟨role,free,tended⟩ := upright.tended spares.1.mounted
      have layout := tended.ordered.layout
      obtain ⟨g',t,made',still⟩ := generates layout tended.ordered.tree.toBrowsable tended.place spares
      obtain ⟨_,same⟩ := made'.unique made
      subst same
      exact .inr ⟨role,free,tended.aside (still.same.keeps tended.ordered tended.backed)⟩
  | overruns never =>
      obtain ⟨role,free,tended⟩ := upright.tended spares.1.mounted
      obtain ⟨g',t,made,_⟩ := generates tended.ordered.layout tended.ordered.tree.toBrowsable tended.place spares
      exact absurd made (never _ _ _)

-- Sessions of commands and completions in any order, from a boot on: what is
-- offered depends on the word, the working directory and the disk alone.
theorem completion_offers {s : Machine} {past : List ((Desk × Generator) × SessionAct)} {k : Desk × Generator} (booted : Booted s)
    (run : Run SessionStep (bootDesk s,Generator.first) past k) (met : Met (fun k a => SessionAct.Spares k a) past) :
    ∀ entry ∈ past, ∀ text, entry.2 = .complete text → Completes entry.1.1.machine entry.1.2 text := by
  obtain ⟨_,passed⟩ := run.keeps (P := fun k => Upright k.1) (fun k a => SessionAct.Spares k a)
    (fun _ _ _ upright spares taken => taken.upright upright spares) booted.upright met
  intro entry member text asked
  have completable := met entry member
  rw [asked] at completable
  obtain ⟨role,free,tended⟩ := (passed entry member).tended completable.1.mounted
  exact completable_completes tended.ordered.layout tended.ordered.tree.toBrowsable tended.place completable

-- A new volume with a file a.
structure OneFile (s : Machine) : Prop where
  booted : Booted s
  ordered : ∃ role free, Ordered s role free
  root : s.resolve [slash] = 1
  directory : s.IsDir 1
  entries : s.entries 1 = [newcomer 2 [97]]
  spelled : s.spelled (newcomer 2 [97]) = [97]

theorem one_file : ∃ s, OneFile s := by
  obtain ⟨s,role,free,booted,ordered,root,dir,slots,slot,typed,_⟩ := booted_file
  refine ⟨s,booted,⟨role,free,ordered⟩,?_,dir,?_,?_⟩
  · unfold Machine.resolve
    rw [if_pos (by decide),show components [slash] = [] by decide,Machine.walk,root]
  · rw [single_entry slots,slot]
  · have file : ¬ s.IsDir (newcomer 2 [97]).entInumber.toNat := by
      intro wrong
      have type : s.entryAt 2 0 = FileType.directory.code := wrong
      rw [typed] at type
      exact absurd type (by decide)
    unfold Machine.spelled
    rw [if_neg file]
    decide

theorem OneFile.still {s : Machine} (lone : OneFile s) (still : Still s t) : t.cwd = [slash] ∧ (∃ role free, Ordered t role free) ∧
    t.Browses [slash] ∧ t.resolve [slash] = 1 ∧ t.entries 1 = [newcomer 2 [97]] ∧ t.spelled (newcomer 2 [97]) = [97] := by
  obtain ⟨role,free,ordered⟩ := lone.ordered
  have root := (still.same.resolve [slash]).trans lone.root
  refine ⟨still.same.cwd.trans lone.booted.cwd,⟨role,free,ordered.still still⟩,?_,root,(still.same.entries 1).trans lone.entries,?_⟩
  · unfold Machine.Browses
    rw [root]
    exact ⟨by decide,(still.same.isDir 1).mpr lone.directory⟩
  · exact (congrArg Prod.snd (still.same.seen _)).trans lone.spelled

-- What is to be offered there for a word, and what is.
theorem OneFile.offered {s : Machine} (lone : OneFile s) (still : Still s t) (here : normalised [slash] (dirname text) = [slash]) :
    t.offered text = [dirname text ++ [97]].filter (text.isPrefixOf ·) := by
  obtain ⟨cwd,_,_,root,entries,spelled⟩ := lone.still still
  have denoted : t.denoted text = 1 := by
    unfold Machine.denoted
    rw [cwd,here,root]
    rfl
  have live : [newcomer 2 [97]].filter (fun e => decide (e.entInumber ≠ 0)) = [newcomer 2 [97]] := by decide
  unfold Machine.offered Machine.liveEntries
  rw [denoted,entries,live,List.map_singleton,Machine.offer,spelled]

theorem OneFile.generates {s : Machine} (lone : OneFile s) (g : Generator) (text : List Byte) (still : Still s t)
    (reads : wordTarget [slash] text (g.cut text) = some [slash]) (short : (text.take (g.cut text)).length ≤ maxprompt) :
    ∃ g' u, Still t u ∧ g'.lastSlash = g.cut text ∧ Generates text g t ([[97]].filterMap (shown text (g.cut text))) g' u := by
  obtain ⟨cwd,⟨role,free,ordered⟩,browses,root,entries,spelled⟩ := lone.still still
  obtain ⟨g',u,rest⟩ := generates_shown ordered.layout ordered.tree.toBrowsable (by rw [cwd]; exact reads) browses short
  rw [root,show (1 : Word).toNat = 1 from rfl,entries,List.take_of_length_le (by decide),List.map_singleton,spelled] at rest
  exact ⟨g',u,rest⟩

-- The root of the volume after a '/'.
theorem completion_offers_root : ∃ s k, Run SessionStep (bootDesk s,Generator.first) [((bootDesk s,.first),.complete [slash])] k ∧
    Completes s .first [slash] ∧ s.offered [slash] = [[slash,97]] := by
  obtain ⟨s,lone⟩ := one_file
  obtain ⟨cwd,⟨role,free,ordered⟩,browses,root,entries,_⟩ := lone.still (.refl s)
  have goal : normalised s.cwd (dirname [slash]) = [slash] := by
    rw [cwd]
    decide
  have denoted : s.denoted [slash] = 1 := by
    unfold Machine.denoted
    rw [goal,root]
    rfl
  have completable : Completable s .first [slash] := by
    refine ⟨⟨ordered.layout.mounted,?_,?_,by rw [goal]; exact browses⟩,?_⟩
    · rw [cwd]
      decide
    · rw [cwd]
      intro front hidden rest equal
      exact absurd equal (by simp [show components (target [slash] (dirname [slash])) = [] by decide])
    · rw [if_pos (by decide)]
      refine ⟨fun _ => cwd,⟨fun e member vacant => ?_,fun e member => ?_⟩⟩
      · rw [denoted,entries] at member
        rw [List.mem_singleton.mp (List.mem_of_mem_take member)] at vacant
        exact absurd vacant (by decide)
      · rw [denoted,entries] at member
        cases member
  obtain ⟨g,t,_,_,made⟩ := lone.generates .first [slash] (.refl s) (by decide) (by decide)
  have run : Run SessionStep (bootDesk s,Generator.first) [((bootDesk s,.first),.complete [slash])] (bootDesk t,g) :=
    .single (.complete made)
  have met : Met (fun k a => SessionAct.Spares k a) ([] ++ [((bootDesk s,Generator.first),SessionAct.complete [slash])]) :=
    met_snoc.mpr ⟨met_nil,completable⟩
  refine ⟨s,_,run,completion_offers lone.booted run met _ (List.mem_singleton_self _) _ rfl,?_⟩
  rw [lone.offered (.refl s) (by decide)]
  decide

-- After a word with two slashes the word "." is looked up and spelled with the
-- last_slash of that one.
theorem completion_stale : ∃ s t u g g', Booted s ∧
    Run SessionStep (bootDesk s,Generator.first) [((bootDesk s,.first),.complete [slash,slash]),((bootDesk t,g),.complete [dot])]
      (bootDesk u,g') ∧
    Still s t ∧ (∃ g'' v, Generates [dot] .first s (s.offered [dot]) g'' v) ∧ ¬ Completes t g [dot] := by
  obtain ⟨s,lone⟩ := one_file
  obtain ⟨g,t,still,last,first⟩ := lone.generates .first [slash,slash] (.refl s) (by decide) (by decide)
  have stale : g.cut [dot] = 1 := last
  obtain ⟨g',u,_,_,second⟩ := lone.generates g [dot] still (by rw [stale]; decide) (by rw [stale]; decide)
  obtain ⟨g'',v,_,_,alone⟩ := lone.generates .first [dot] (.refl s) (by decide) (by decide)
  have nothing : [[97]].filterMap (shown [dot] (Generator.first.cut [dot])) = s.offered [dot] := by
    rw [lone.offered (.refl s) (by decide)]
    decide
  rw [nothing] at alone
  refine ⟨s,t,u,g,g',lone.booted,(Run.single (.complete first)).next (.complete second),still,⟨g'',v,alone⟩,fun completes => ?_⟩
  have wrong := completes.2 _ _ _ second
  rw [stale,lone.offered still (by decide)] at wrong
  revert wrong
  decide

end AsePlusPlus
