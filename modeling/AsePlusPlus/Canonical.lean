import Mathlib.Data.List.Induction
import AsePlusPlus.Lib.Climb
import AsePlusPlus.Fixed
import AsePlusPlus.Paths

namespace AsePlusPlus
open Words Program Climb

variable {m : Machine} {cwd path token text goal : List Byte} {command : M Word}

-- commons.h
def maxprompt : Nat := 256

def dot : Byte := 46

-- A string and its NUL stored into a char[MAXPROMPT]; a longer one runs over its end.
def buffer (text : List Byte) : Option (List Byte) := if text.length < maxprompt then some text else none

-- What the loop makes of one token. In an empty canonical strrchr finds
-- nothing, and there is nothing that strncat could copy.
def canonicalStep (canonical token : List Byte) : Option (List Byte) :=
  if token.take 2 = [dot,dot] then
    let lastIndex := canonical.length-(lastBasename canonical).length-1
    if canonical.length = 1 then some [slash] else some (canonical.take lastIndex)
  else if token.take 1 = [dot] then
    some canonical
  else do
    let canonical ← buffer (canonical ++ [slash])
    buffer (canonical ++ token)

-- canonical_path, with the tokens that strtok hands out in turn.
def canonicalPath (cwd path : List Byte) : Option (List Byte) := do
  let target ← if path.head? ≠ some slash then do
      let target ← buffer cwd
      buffer (target ++ path)
    else
      buffer path
  let canonical ← (components target).foldlM canonicalStep []
  return if canonical.length = 0 then [slash] else canonical

-- Always append a final '/'.
def closed (target : List Byte) : Option (List Byte) :=
  if target.getLast? ≠ some slash then buffer (target ++ [slash]) else some target

-- do_cd, which prints a message where the status is 0: the directory is not found.
def doCd (cwd arguments : List Byte) : Option (M Word) := do
  let target ← canonicalPath cwd arguments
  let target ← closed target
  return do
    let status ← inumberOfPath target
    if status = 0 then
      return status
    else do
      modify fun m => {m with cwd := target}
      return status

-- The text that canonical_path works on.
def target (cwd path : List Byte) : List Byte := if path.head? ≠ some slash then cwd ++ path else path

def slashed (names : List (List Byte)) : List Byte := names.flatMap (slash :: ·)
def rooted (names : List (List Byte)) : List Byte := if names = [] then [slash] else slashed names

-- What a component of a path means, and how canonical_path reads it.
def componentWay (c : List Byte) : Way := if c = [dot,dot] then .up else if c = [dot] then .stay else .down
def tokenWay (token : List Byte) : Way :=
  if token.take 2 = [dot,dot] then .up else if token.take 1 = [dot] then .stay else .down

-- The reference normalisation.
def normalised (cwd path : List Byte) : List Byte := rooted (walk componentWay [] (components (target cwd path)))

theorem overlong_none (long : maxprompt ≤ (target cwd path).length) : canonicalPath cwd path = none := by
  unfold target at long
  unfold canonicalPath
  split at long
  · rename_i relative
    rw [if_pos relative]
    unfold buffer
    split
    · rw [Option.bind_eq_bind,Option.bind_some,if_neg (by omega)]
      rfl
    · rfl
  · rename_i absolute
    rw [if_neg absolute,buffer,if_neg (by omega)]
    rfl

theorem canonicalPath_fits (fits : (target cwd path).length < maxprompt) : canonicalPath cwd path =
    ((components (target cwd path)).foldlM canonicalStep []).bind
      fun canonical => some (if canonical.length = 0 then [slash] else canonical) := by
  unfold target at fits ⊢
  unfold canonicalPath
  split at fits
  · rename_i relative
    have short : cwd.length < maxprompt := by
      rw [List.length_append] at fits
      omega
    rw [if_pos relative,if_pos relative,buffer,if_pos short,Option.bind_eq_bind,Option.bind_some,
      buffer,if_pos fits]
    rfl
  · rename_i absolute
    rw [if_neg absolute,if_neg absolute,buffer,if_pos fits]
    rfl

-- A list of components, as a string can hold them.
def Parts (names : List (List Byte)) : Prop := ∀ c ∈ names, c ≠ [] ∧ slash ∉ c

theorem components_named (text : List Byte) : Parts (components text) := by
  induction long : text.length using Nat.strongRecOn generalizing text with
  | ind n ih =>
      cases text with
      | nil => intro c member; cases member
      | cons x rest =>
          rw [List.length_cons] at long
          by_cases separator : x = slash
          · subst separator
            rw [components_slash]
            exact ih rest.length (by omega) rest rfl
          · rw [components_cons x rest separator]
            have dropped := (List.dropWhile_sublist (p := (· ≠ slash)) (l := rest)).length_le
            refine List.forall_mem_cons.mpr ⟨⟨?_,slash_takeWhile _⟩,ih _ ?_ _ rfl⟩
            · rw [List.takeWhile_cons_of_pos (by simpa using separator)]
              simp
            · rw [List.dropWhile_cons_of_pos (by simpa using separator),List.length_tail]
              omega

theorem slashed_append (a b : List (List Byte)) : slashed (a ++ b) = slashed a ++ slashed b := List.flatMap_append

theorem slashed_cons (c : List Byte) (rest : List (List Byte)) : (slashed (c :: rest)).length = c.length+1+(slashed rest).length := by
  rw [slashed,List.flatMap_cons,List.length_append,List.length_cons]
  rfl

theorem components_slashed {names : List (List Byte)} (named : Parts names) : components (slashed names) = names := by
  induction names using List.reverseRecOn with
  | nil => rfl
  | append_singleton names c ih =>
      have last := named c (List.mem_append_right names (List.mem_singleton_self c))
      have front : Parts names := fun d member => named d (List.mem_append_left [c] member)
      rw [slashed_append,slashed,slashed,List.flatMap_singleton,components_append,components_single last.2 last.1]
      rw [show names.flatMap (slash :: ·) = slashed names from rfl,ih front]

theorem rooted_inj {a b : List (List Byte)} (first : Parts a) (second : Parts b) : rooted a = rooted b ↔ a = b := by
  have back : ∀ {c : List (List Byte)}, Parts c → components (rooted c) = c := by
    intro c named
    unfold rooted
    split
    · rename_i empty
      rw [empty,components_slash,components_nil]
    · exact components_slashed named
  constructor
  · intro same
    rw [← back first,same,back second]
  · intro same
    rw [same]

theorem lastBasename_append (front : List Byte) (plain : slash ∉ token) : lastBasename (front ++ slash :: token) = token := by
  unfold lastBasename
  rw [List.reverse_append,List.reverse_cons,List.append_assoc,List.takeWhile_append_of_pos]
  · simp
  · intro x member
    have other : x ≠ slash := fun same => plain (same ▸ List.mem_reverse.mp member)
    simpa using other

theorem slashed_short {names : List (List Byte)} (named : Parts names) : (slashed names).length ≠ 1 := by
  cases names with
  | nil => decide
  | cons c rest =>
      have some := List.length_pos_of_ne_nil (named c (List.mem_cons_self ..)).1
      rw [slashed_cons]
      omega

-- One round of the loop is one step of the walk.
theorem canonicalStep_eq {kept : List (List Byte)} (named : Parts kept) (token : List Byte) : canonicalStep (slashed kept) token =
    if tokenWay token = .down then buffer (slashed (kept ++ [token])) else some (slashed (step tokenWay kept token)) := by
  have joins : slashed (kept ++ [token]) = slashed kept ++ [slash] ++ token := by
    rw [slashed_append,List.append_assoc]
    simp [slashed]
  unfold canonicalStep
  by_cases up : token.take 2 = [dot,dot]
  · have move : tokenWay token = .up := if_pos up
    have other : tokenWay token ≠ .down := by rw [move]; decide
    rw [if_pos up,if_neg other,step_up move]
    refine (if_neg (slashed_short named)).trans ?_
    cases kept using List.reverseRecOn with
    | nil => rfl
    | append_singleton front c =>
        have last := named c (List.mem_append_right front (List.mem_singleton_self c))
        have equal : slashed (front ++ [c]) = slashed front ++ slash :: c := by
          rw [slashed_append]
          simp [slashed]
        rw [List.dropLast_concat,equal,lastBasename_append _ last.2,List.length_append,List.length_cons,
          show (slashed front).length+(c.length+1)-c.length-1 = (slashed front).length by omega,List.take_left]
  · rw [if_neg up]
    by_cases stay : token.take 1 = [dot]
    · have move : tokenWay token = .stay := by rw [tokenWay,if_neg up,if_pos stay]
      rw [if_pos stay,if_neg (by rw [move]; decide),step_stay move]
    · have move : tokenWay token = .down := by rw [tokenWay,if_neg up,if_neg stay]
      rw [if_neg stay,if_pos move,joins]
      unfold buffer
      by_cases fits : (slashed kept ++ [slash]).length < maxprompt
      · rw [if_pos fits]
        rfl
      · rw [if_neg fits,if_neg (by rw [List.length_append]; omega)]
        rfl

theorem named_step {kept : List (List Byte)} (named : Parts kept) (other : token ≠ [] ∧ slash ∉ token) :
    Parts (step tokenWay kept token) := by
  intro c member
  cases move : tokenWay token with
  | up =>
      rw [step_up move] at member
      exact named c (List.dropLast_subset kept member)
  | stay =>
      rw [step_stay move] at member
      exact named c member
  | down =>
      rw [step_down move,List.mem_append,List.mem_singleton] at member
      rcases member with old | rfl
      · exact named c old
      · exact other

-- Where the loop comes to its end, it has walked.
theorem fold_walks {kept tokens : List (List Byte)} (named : Parts kept) (others : Parts tokens)
    (ran : tokens.foldlM canonicalStep (slashed kept) = some text) : text = slashed (walk tokenWay kept tokens) := by
  induction tokens generalizing kept with
  | nil => exact (Option.some.inj ran).symm
  | cons token rest ih =>
      rw [List.foldlM_cons,canonicalStep_eq named] at ran
      have head := others token (List.mem_cons_self ..)
      have tail : Parts rest := fun c member => others c (List.mem_cons_of_mem token member)
      rw [walk_cons]
      by_cases down : tokenWay token = .down
      · rw [if_pos down] at ran
        unfold buffer at ran
        split at ran
        · rw [← step_down down kept] at ran
          exact ih (named_step named head) tail ran
        · cases ran
      · rw [if_neg down] at ran
        exact ih (named_step named head) tail ran

theorem slashed_length_step (kept : List (List Byte)) (other : tokenWay token ≠ .down) :
    (slashed (step tokenWay kept token)).length ≤ (slashed kept).length := by
  cases move : tokenWay token with
  | up =>
      rw [step_up move]
      cases kept using List.reverseRecOn with
      | nil => exact Nat.le_refl _
      | append_singleton front c =>
          rw [List.dropLast_concat,slashed_append,List.length_append]
          omega
  | stay => rw [step_stay move]
  | down => exact absurd move other

-- The loop comes to its end where its buffer holds all the tokens, also when
-- the last character is only missing for a text of names alone.
theorem fold_ends {kept tokens : List (List Byte)} (named : Parts kept) (others : Parts tokens)
    (fits : (slashed kept).length+(slashed tokens).length ≤ maxprompt)
    (full : (slashed kept).length+(slashed tokens).length = maxprompt → ∃ c ∈ tokens, tokenWay c ≠ .down) :
    ∃ text, tokens.foldlM canonicalStep (slashed kept) = some text := by
  induction tokens generalizing kept with
  | nil => exact ⟨_,rfl⟩
  | cons token rest ih =>
      have head := others token (List.mem_cons_self ..)
      have tail : Parts rest := fun c member => others c (List.mem_cons_of_mem token member)
      have some := List.length_pos_of_ne_nil head.1
      rw [slashed_cons] at fits full
      rw [List.foldlM_cons,canonicalStep_eq named]
      by_cases down : tokenWay token = .down
      · have grown : (slashed (step tokenWay kept token)).length = (slashed kept).length+(token.length+1) := by
          rw [step_down down,slashed_append,List.length_append]
          simp [slashed]
        have later : (slashed kept).length+(token.length+1+(slashed rest).length) = maxprompt → ∃ c ∈ rest, tokenWay c ≠ .down := by
          intro all
          obtain ⟨c,member,other⟩ := full all
          cases member with
          | head => exact absurd down other
          | tail _ inside => exact ⟨c,inside,other⟩
        have short : (slashed (kept ++ [token])).length < maxprompt := by
          rw [step_down down] at grown
          by_cases all : (slashed kept).length+(token.length+1+(slashed rest).length) = maxprompt
          · obtain ⟨c,member,_⟩ := later all
            cases rest with
            | nil => cases member
            | cons d more =>
                rw [slashed_cons] at all
                omega
          · omega
        rw [if_pos down,buffer,if_pos short,← step_down down]
        exact ih (named_step named head) tail (by omega) (by intro all; exact later (by omega))
      · have shorter := slashed_length_step kept down
        rw [if_neg down]
        exact ih (named_step named head) tail (by omega) (by omega)

-- The tokens take no more room than the text, but for a '/' in front of names alone.
theorem slashed_components (text : List Byte) : (slashed (components text)).length ≤ text.length+1 ∧
    ((slashed (components text)).length = text.length+1 → slash :: text = slashed (components text)) := by
  induction long : text.length using Nat.strongRecOn generalizing text with
  | ind n ih =>
      cases text with
      | nil =>
          rw [components_nil]
          exact ⟨Nat.zero_le _,fun wrong => absurd wrong (by rw [← long]; decide)⟩
      | cons x rest =>
          rw [List.length_cons] at long
          by_cases separator : x = slash
          · subst separator
            have shorter := (ih rest.length (by omega) rest rfl).1
            rw [components_slash]
            exact ⟨by omega,fun wrong => by omega⟩
          · have split : (x :: rest).takeWhile (· ≠ slash) ++ (x :: rest).dropWhile (· ≠ slash) = x :: rest :=
              List.takeWhile_append_dropWhile
            have stop := List.head?_dropWhile_not (fun y : Byte => decide (y ≠ slash)) (x :: rest)
            have sum := congrArg List.length split
            rw [List.length_append,List.length_cons] at sum
            have some := List.length_pos_of_ne_nil (components_named (x :: rest) _ (by
              rw [components_cons x rest separator]
              exact List.mem_cons_self ..)).1
            rw [components_cons x rest separator,slashed,List.flatMap_cons]
            generalize (x :: rest).takeWhile (· ≠ slash) = first at split sum some ⊢
            generalize (x :: rest).dropWhile (· ≠ slash) = last at split stop sum ⊢
            rw [← split]
            change (slash :: first ++ slashed (components last.tail)).length ≤ n+1 ∧
              ((slash :: first ++ slashed (components last.tail)).length = n+1 → slash :: (first ++ last) = _)
            rw [List.length_append,List.length_cons]
            cases last with
            | nil =>
                rw [List.length_nil] at sum
                change first.length+1+0 ≤ n+1 ∧ _
                exact ⟨by omega,fun _ => rfl⟩
            | cons y more =>
                have here : y = slash := by simpa using stop
                subst here
                rw [List.length_cons] at sum
                obtain ⟨bound,whole⟩ := ih more.length (by omega) more rfl
                rw [List.tail_cons]
                refine ⟨by omega,fun all => ?_⟩
                rw [List.cons_append,whole (by omega)]
                rfl

theorem slashed_absolute (absolute : Absolute text) : (slashed (components text)).length ≤ text.length := by
  cases text with
  | nil => cases absolute
  | cons x rest =>
      obtain rfl := Option.some.inj absolute
      rw [components_slash]
      exact (slashed_components rest).1

-- Names alone, with a '/' only between them.
def Bare (text : List Byte) : Prop :=
  components text ≠ [] ∧ (∀ c ∈ components text, tokenWay c = .down) ∧ slash :: text = slashed (components text)

theorem canonicalPath_walks (ran : canonicalPath cwd path = some text) :
    text = rooted (walk tokenWay [] (components (target cwd path))) := by
  have fits : (target cwd path).length < maxprompt := by
    by_contra long
    rw [overlong_none (by omega)] at ran
    cases ran
  rw [canonicalPath_fits fits] at ran
  obtain ⟨canonical,folded,equal⟩ := Option.bind_eq_some_iff.mp ran
  have none : Parts [] := fun c member => by cases member
  have walked := fold_walks none (components_named _) folded
  have named : Parts (walk tokenWay [] (components (target cwd path))) := fun c member =>
    components_named _ c ((walk_sublist _).subset member)
  rw [← Option.some.inj equal]
  generalize walk tokenWay [] (components (target cwd path)) = names at walked named ⊢
  subst walked
  unfold rooted
  cases names with
  | nil => rfl
  | cons c rest =>
      have some := List.length_pos_of_ne_nil (named c (List.mem_cons_self ..)).1
      rw [if_neg (by rw [slashed_cons]; omega),if_neg (List.cons_ne_nil c rest)]

theorem canonicalPath_ends (cwd path : List Byte) (fits : (target cwd path).length < maxprompt)
    (room : Absolute (target cwd path) ∨ ¬ Bare (target cwd path)) :
    canonicalPath cwd path = some (rooted (walk tokenWay [] (components (target cwd path)))) := by
  have named := components_named (target cwd path)
  obtain ⟨bound,whole⟩ := slashed_components (target cwd path)
  have none : Parts [] := fun c member => by cases member
  have zero : (slashed []).length = 0 := rfl
  obtain ⟨canonical,folded⟩ := fold_ends none named (by omega) (by
    intro full
    rcases room with absolute | bare
    · have shorter := slashed_absolute absolute
      omega
    · by_contra all
      push Not at all
      apply bare
      refine ⟨?_,all,whole (by omega)⟩
      intro empty
      rw [empty,zero] at full
      cases full)
  have ran := canonicalPath_fits fits
  rw [show ([] : List Byte) = slashed [] from rfl,folded,Option.bind_some] at ran
  rw [ran,canonicalPath_walks ran]

-- The form of path that canonical_path promises.
structure Canonical (text : List Byte) : Prop where
  absolute : Absolute text
  full : ∀ a b, text ≠ a ++ slash :: slash :: b
  closed : text ≠ [slash] → text.getLast? ≠ some slash
  dots : ∀ c ∈ components text, c ≠ [dot] ∧ c ≠ [dot,dot]

theorem rooted_absolute (names : List (List Byte)) : Absolute (rooted names) := by
  unfold rooted
  cases names with
  | nil => rfl
  | cons c rest => rfl

theorem components_rooted {names : List (List Byte)} (named : Parts names) : components (rooted names) = names := by
  unfold rooted
  split
  · rename_i empty
    rw [empty,components_slash,components_nil]
  · exact components_slashed named

-- A text that is as long as its components need has no '/' to spare.
theorem slashed_tight (absolute : Absolute text) (tight : (slashed (components text)).length = text.length) :
    (∀ a b, text ≠ a ++ slash :: slash :: b) ∧ text.getLast? ≠ some slash := by
  have front : ∀ a b, text = a ++ slash :: b → (slashed (components a)).length ≤ a.length := by
    intro a b equal
    cases a with
    | nil => exact Nat.le_refl 0
    | cons x rest =>
        subst equal
        exact slashed_absolute absolute
  constructor
  · intro a b equal
    have left := front a (slash :: b) equal
    have right := (slashed_components b).1
    rw [equal,components_append,components_slash,slashed_append] at tight
    simp only [List.length_append,List.length_cons] at tight
    omega
  · intro last
    obtain ⟨a,equal⟩ := List.getLast?_eq_some_iff.mp last
    have left := front a [] equal
    rw [equal,components_append,components_nil,List.append_nil] at tight
    simp only [List.length_append,List.length_cons] at tight
    omega

theorem rooted_canonical {names : List (List Byte)} (named : Parts names) (down : ∀ c ∈ names, tokenWay c = .down) :
    Canonical (rooted names) := by
  have absolute := rooted_absolute names
  have parts := components_rooted named
  have dots : ∀ c ∈ names, c ≠ [dot] ∧ c ≠ [dot,dot] := by
    intro c member
    have move := down c member
    refine ⟨?_,?_⟩
    · intro wrong
      rw [wrong] at move
      revert move
      decide
    · intro wrong
      rw [wrong] at move
      revert move
      decide
  rw [← parts] at dots
  cases names with
  | nil =>
      refine ⟨absolute,?_,fun other => absurd rfl other,dots⟩
      intro a b equal
      have long := congrArg List.length equal
      rw [List.length_append,List.length_cons,List.length_cons] at long
      have one : (rooted []).length = 1 := rfl
      omega
  | cons c rest =>
      have tight : (slashed (components (rooted (c :: rest)))).length = (rooted (c :: rest)).length := by
        rw [parts,rooted,if_neg (List.cons_ne_nil c rest)]
      obtain ⟨full,closed⟩ := slashed_tight absolute tight
      exact ⟨absolute,full,fun _ => closed,dots⟩

theorem target_absolute (absolute : Absolute path) (cwd : List Byte) : target cwd path = path := if_neg (not_not.mpr absolute)

theorem canonicalPath_fixed {names : List (List Byte)} (named : Parts names) (down : ∀ c ∈ names, tokenWay c = .down)
    (short : (rooted names).length < maxprompt) (cwd : List Byte) : canonicalPath cwd (rooted names) = some (rooted names) := by
  have absolute := rooted_absolute names
  have same := target_absolute absolute cwd
  have ran := canonicalPath_ends cwd (rooted names) (by rw [same]; exact short) (.inl (by rw [same]; exact absolute))
  rw [ran,same,components_rooted named,walk_names [] down]
  rfl

theorem rooted_length (names : List (List Byte)) : rooted names = [slash] ∨ (rooted names).length = (slashed names).length := by
  unfold rooted
  split
  · exact .inl rfl
  · exact .inr rfl

theorem slashed_sublist {a b : List (List Byte)} (sub : a.Sublist b) : (slashed a).length ≤ (slashed b).length ∧
    ((slashed a).length = (slashed b).length → a = b) := by
  induction sub with
  | slnil => exact ⟨Nat.le_refl _,fun _ => rfl⟩
  | cons c _ ih =>
      rw [slashed_cons]
      exact ⟨by omega,fun wrong => by omega⟩
  | cons_cons c _ ih =>
      rw [slashed_cons,slashed_cons]
      exact ⟨by omega,fun all => by rw [ih.2 (by omega)]⟩

theorem canonicalPath_canonical (cwd path : List Byte) :
    (∃ c, canonicalPath cwd path = some c ∧ Canonical c ∧ (c.length ≤ (target cwd path).length ∨ c = [slash]) ∧
      ∀ cwd', canonicalPath cwd' c = some c) ↔
    (target cwd path).length < maxprompt ∧ (Absolute (target cwd path) ∨ ¬ Bare (target cwd path)) := by
  have named : Parts (walk tokenWay [] (components (target cwd path))) := fun c member =>
    components_named _ c ((walk_sublist _).subset member)
  have down := walk_down (f := tokenWay) (components (target cwd path))
  obtain ⟨shorter,kept⟩ := slashed_sublist (walk_sublist (f := tokenWay) (components (target cwd path)))
  obtain ⟨bound,whole⟩ := slashed_components (target cwd path)
  constructor
  · intro post
    obtain ⟨c,ran,_,size,_⟩ := post
    refine ⟨?_,?_⟩
    · by_contra long
      rw [overlong_none (by omega)] at ran
      cases ran
    · by_contra neither
      push Not at neither
      obtain ⟨some,all,equal⟩ := neither.2
      have result := canonicalPath_walks ran
      rw [walk_names [] all,List.nil_append,rooted,if_neg some,← equal] at result
      rw [result,List.length_cons] at size
      rcases size with short | alone
      · omega
      · have empty := (List.cons.inj alone).2
        rw [empty] at some
        exact some rfl
  · intro post
    obtain ⟨fits,room⟩ := post
    have ran := canonicalPath_ends _ _ fits room
    have size : (rooted (walk tokenWay [] (components (target cwd path)))).length ≤ (target cwd path).length ∨
        rooted (walk tokenWay [] (components (target cwd path))) = [slash] := by
      rcases rooted_length (walk tokenWay [] (components (target cwd path))) with alone | long
      · exact .inr alone
      · refine .inl ?_
        rcases room with absolute | bare
        · have tight := slashed_absolute absolute
          omega
        · by_contra larger
          apply bare
          have same := kept (by omega)
          refine ⟨?_,?_,whole (by omega)⟩
          · intro empty
            rw [same,empty] at long
            rw [same,empty] at larger
            exact larger (by rw [long]; exact Nat.zero_le _)
          · rw [← same]
            exact down
    refine ⟨_,ran,rooted_canonical named down,size,canonicalPath_fixed named down ?_⟩
    rcases size with short | alone
    · omega
    · rw [alone]
      decide

-- The length of path at which the buffers are passed.
theorem canonicalPath_overlong : ¬ ∃ c, canonicalPath [47,97,98,99,47] (List.replicate 251 97) = some c ∧ Canonical c ∧
    (c.length ≤ (target [47,97,98,99,47] (List.replicate 251 97)).length ∨ c = [slash]) ∧ ∀ cwd', canonicalPath cwd' c = some c := by
  intro post
  obtain ⟨c,ran,_⟩ := post
  have long : maxprompt ≤ (target [47,97,98,99,47] (List.replicate 251 97)).length := by
    rw [target,if_pos (by decide),List.length_append,List.length_replicate]
    decide
  rw [overlong_none long] at ran
  cases ran

-- The working directory of the shell.
structure Cwd where
  path : List Byte
  absolute : Absolute path
  closed : path.getLast? = some slash
  fits : path.length < maxprompt

def Cwd.root : Cwd := ⟨[slash],rfl,rfl,by decide⟩

theorem Cwd.target (cwd : Cwd) (path : List Byte) : Absolute (target cwd.path path) := by
  unfold AsePlusPlus.target
  split
  · have absolute := cwd.absolute
    unfold Absolute at absolute ⊢
    rw [List.head?_append,absolute]
    rfl
  · rename_i absolute
    exact not_not.mp absolute

-- A component that begins with a dot and is a name all the same.
def Hidden (c : List Byte) : Prop := c.head? = some dot ∧ c ≠ [dot] ∧ c ≠ [dot,dot]

theorem tokenWay_hidden (c : List Byte) : tokenWay c ≠ componentWay c ↔ Hidden c := by
  unfold tokenWay componentWay Hidden
  rcases c with _ | ⟨x,_ | ⟨y,rest⟩⟩
  · simp
  · by_cases first : x = dot <;> simp [first]
  · by_cases first : x = dot
    · by_cases second : y = dot
      · by_cases last : rest = [] <;> simp [first,second,last]
      · simp [first,second]
    · simp [first]

theorem hidden_down {c : List Byte} (other : tokenWay c ≠ componentWay c) : componentWay c = .down := by
  obtain ⟨_,single,double⟩ := (tokenWay_hidden c).mp other
  rw [componentWay,if_neg double,if_neg single]

-- Every hidden component is left again, with all that was kept before it.
def Climbed (names : List (List Byte)) : Prop := ∀ front h rest, names = front ++ h :: rest → Hidden h →
  (walk componentWay [] (front ++ [h])).length ≤ climbs componentWay rest

theorem rooted_climbed {names : List (List Byte)} (named : Parts names) :
    rooted (walk tokenWay [] names) = rooted (walk componentWay [] names) ↔ Climbed names := by
  have code : Parts (walk tokenWay [] names) := fun c member => named c ((walk_sublist _).subset member)
  have reference : Parts (walk componentWay [] names) := fun c member => named c ((walk_sublist _).subset member)
  unfold Climbed
  rw [rooted_inj code reference,walks_eq (fun _ => hidden_down)]
  constructor
  · intro left front h rest equal hidden
    exact left front h rest equal ((tokenWay_hidden h).mpr hidden)
  · intro left front h rest equal other
    exact left front h rest equal ((tokenWay_hidden h).mp other)

theorem canonicalPath_normalises (cwd : Cwd) (path : List Byte) :
    canonicalPath cwd.path path = some (normalised cwd.path path) ↔
      (target cwd.path path).length < maxprompt ∧ Climbed (components (target cwd.path path)) := by
  have same := rooted_climbed (components_named (target cwd.path path))
  constructor
  · intro ran
    refine ⟨?_,same.mp (canonicalPath_walks ran).symm⟩
    by_contra long
    rw [overlong_none (by omega)] at ran
    cases ran
  · intro holds
    obtain ⟨fits,climbed⟩ := holds
    rw [canonicalPath_ends _ _ fits (.inl (cwd.target path)),same.mpr climbed]
    rfl

-- A hidden file at the root.
theorem canonicalPath_hidden : ¬ canonicalPath Cwd.root.path [46,97] = some (normalised Cwd.root.path [46,97]) := by
  decide

-- A lookup leaves the globals of the program as they are.
abbrev Fixes (p : M α) : Prop := Spends (fun _ => Fixed) 0 p

theorem fixes_bind {p : M α} {f : α → M β} (first : Fixes p) (next : ∀ a, Fixes (f a)) : Fixes (p >>= f) :=
  fixed_charged.free first next

theorem fixes_readChars (count : Nat) (fd : FileDesc) : Fixes (readChars count fd) := by
  induction count generalizing fd with
  | zero => exact fixed_charged.pure _
  | succ count ih =>
      apply fixes_bind (fixed_charged.readcIfile fd)
      intro r
      exact spends_ite (fixed_charged.pure _) (fixes_bind (ih r.2) fun _ => fixed_charged.pure _)

theorem fixes_readIfile (fd : FileDesc) (buf : Vector Byte n) : Fixes (readIfile fd buf) :=
  spends_ite (fixed_charged.pure _) (fixes_bind (fixes_readChars n fd) fun _ => fixed_charged.pure _)

theorem fixes_seek2Ifile (fd : FileDesc) (offset : Word) : Fixes (seek2Ifile fd offset) :=
  fixed_charged.seekIfile fd _

theorem fixes_findEntryLoop (name : List Byte) (fuel : Nat) (fd : FileDesc) (entry : Vector Byte 20) (i : Word) :
    Fixes (findEntryLoop name fuel fd entry i) := by
  induction fuel generalizing fd entry i with
  | zero => exact fun s => Fixed.refl s
  | succ fuel ih =>
      apply fixes_bind (fixes_readIfile fd entry)
      intro r
      exact spends_ite (fixed_charged.pure _) (spends_ite (fixed_charged.pure _) (ih r.2.2 r.2.1 (i+1)))

theorem fixes_findEntry (fd : FileDesc) (name : List Byte) : Fixes (findEntry fd name) := by
  apply fixes_bind fixed_charged.get
  intro m
  apply fixes_bind (fixes_seek2Ifile fd 0)
  intro fd
  exact fixes_findEntryLoop name scanFuel fd m.frame.entry 0

theorem fixes_inumberOfBasename (idir : Word) (name : List Byte) : Fixes (inumberOfBasename idir name) := by
  apply fixes_bind (fixed_charged.readInode idir)
  intro inode
  apply spends_ite (fixed_charged.pure _)
  apply fixes_bind (fixed_charged.openIfile idir)
  intro r
  apply fixes_bind (fixes_findEntry r.2 name)
  intro found
  apply spends_ite (fixed_charged.pure _)
  apply fixes_bind (fixes_seek2Ifile found.2 _)
  intro fd
  apply fixes_bind fixed_charged.get
  intro m
  apply fixes_bind (fixes_readIfile fd m.frame.entry)
  intro r
  exact fixes_bind (fixed_charged.closeIfile r.2.2) fun _ => fixed_charged.pure _

theorem fixes_pathLoop (i : Word) (path : List Byte) : Fixes (pathLoop i path) := by
  induction i,path using pathLoop.induct with
  | case1 i => rw [pathLoop]; exact fixed_charged.pure _
  | case2 i rest ih => rw [pathLoop,if_pos rfl]; exact ih
  | case3 i c rest other ih =>
      rw [pathLoop,if_neg other]
      apply fixes_bind (fixes_inumberOfBasename i _)
      intro next
      exact spends_ite (fixed_charged.pure _) (ih next)

theorem fixes_inumberOfPath (path : List Byte) : Fixes (inumberOfPath path) :=
  spends_ite (fixed_charged.pure _) (fixes_bind fixed_charged.get fun _ => fixes_pathLoop _ path)

theorem canonicalPath_cwd (cwd : Cwd) (path : List Byte) (made : canonicalPath cwd.path path = some text)
    (closing : closed text = some goal) : ∃ next : Cwd, goal = next.path := by
  have form := canonicalPath_walks made
  have absolute : Absolute text := by rw [form]; exact rooted_absolute _
  have fits : (target cwd.path path).length < maxprompt := by
    by_contra long
    rw [overlong_none (by omega)] at made
    cases made
  have short : text.length < maxprompt := by
    have tight := slashed_absolute (cwd.target path)
    have walked := (slashed_sublist (walk_sublist (f := tokenWay) (components (target cwd.path path)))).1
    rw [form]
    rcases rooted_length (walk tokenWay [] (components (target cwd.path path))) with alone | long
    · rw [alone]
      decide
    · omega
  unfold closed at closing
  split at closing
  · unfold buffer at closing
    split at closing
    · rename_i room
      rw [← Option.some.inj closing]
      refine ⟨⟨text ++ [slash],?_,List.getLast?_concat,room⟩,rfl⟩
      unfold Absolute at absolute ⊢
      rw [List.head?_append,absolute]
      rfl
    · cases closing
  · rename_i ended
    rw [← Option.some.inj closing]
    exact ⟨⟨text,absolute,not_not.mp ended,short⟩,rfl⟩

-- Whatever the argument and the disk are, do_cd leaves a working directory behind.
theorem doCd_cwd (cwd : Cwd) (arguments : List Byte) (here : m.cwd = cwd.path) (ran : doCd cwd.path arguments = some command) :
    ∃ next : Cwd, (command m).2.cwd = next.path := by
  obtain ⟨canonical,made,ran⟩ := Option.bind_eq_some_iff.mp ran
  obtain ⟨goal,closing,ran⟩ := Option.bind_eq_some_iff.mp ran
  obtain ⟨next,named⟩ := canonicalPath_cwd cwd arguments made closing
  rw [← Option.some.inj ran]
  have looked := fixes_inumberOfPath goal m
  cases found : inumberOfPath goal m with
  | mk result t =>
      rw [found] at looked
      cases result with
      | error e =>
          rw [bind_error found]
          exact ⟨cwd,looked.cwd.trans here⟩
      | ok status =>
          rw [bind_ok found]
          by_cases zero : status = 0
          · rw [if_pos zero]
            exact ⟨cwd,looked.cwd.trans here⟩
          · rw [if_neg zero]
            exact ⟨next,named⟩

end AsePlusPlus
