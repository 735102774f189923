import AsePlusPlus.Filing

namespace AsePlusPlus
open Words Program Trace

variable {role : Nat → Role} {free : List Nat} {s t : Machine} {path text arguments : List Byte} {words : List (List Byte)} {reads : Nat}

-- The commands of the shell that use files, with what their handlers are given:
-- the words that sscanf finds, and the text that getchar returns.
inductive Builtin where
  | cat (arguments : List Byte)
  | cd (arguments : List Byte)
  | compute (max : Int) (path : Option (List Byte))
  | cp (words : List (List Byte))
  | ed (arguments text : List Byte)
  | ls (arguments : List Byte)
  | mkdir (arguments : List Byte)
  | rm (arguments : List Byte)

-- What the user gets to see: whether a command complains, a text, or names.
inductive Output where
  | told (failed : Bool)
  | text (text : List Byte)
  | names (names : List (List Byte))

-- do_cd, do_mkdir and do_rm return 0 either way; they print a line where the call fails.
def Builtin.run (reads : Nat) (m : Machine) : Builtin → Option (M Output)
  | .cat arguments => (doCat reads m.cwd arguments).map fun command => do
    let r ← command
    return if r.1 = 1 then .told true else .text r.2
  | .cd arguments => (doCd m.cwd arguments).map fun command => do
    let status ← command
    return .told (status = 0)
  | .compute max path => (doCompute m.cwd max path).map fun command => do
    let r ← command
    return .told (r ≠ 0)
  | .cp words => (doCp reads m words).map fun command => do
    let r ← command
    return .told (r ≠ 0)
  | .ed arguments text => (doEd m.cwd arguments text).map fun command => do
    let r ← command
    return .told (r ≠ 0)
  | .ls arguments => (doLs m.cwd arguments).map fun command => do
    let names ← command
    return .names names
  | .mkdir arguments => (canonicalPath m.cwd arguments).map fun target => do
    let r ← createFile target .directory
    return .told (r = returnFailure)
  | .rm arguments => (canonicalPath m.cwd arguments).map fun target => do
    let r ← deleteFile target
    return .told (r = returnFailure)

-- A command that returned.
inductive Obeys : Machine → Builtin × Output → Machine → Prop
  | returns {s t : Machine} {c : Builtin} {reads : Nat} {p : M Output} {r : Output} (begun : c.run reads s = some p)
      (ran : p s = (.ok r,t)) : Obeys s (c,r) t

-- Where a path of the command line leads from the working directory.
def located (here : List (List Byte)) (arguments : List Byte) : List (List Byte) :=
  Climb.walk tokenWay (if arguments.head? ≠ some slash then here else []) (components arguments)

-- What a command asks of a tree of files.
def Builtin.act (here : List (List Byte)) : Builtin → Store.Act (List Byte) (List Byte)
  | .cat arguments => .read (located here arguments)
  | .cd arguments => .go (located here arguments)
  | .compute _ none => .rest
  | .compute max (some path) => .make (located here path) (.file (stored (rows 0 (max+1).toNat)))
  | .cp (source :: dest :: _) => .copy (located here source) (located here dest) [0]
  | .cp _ => .rest
  | .ed arguments text => .make (located here arguments) (.file (stored text))
  | .ls arguments => .list (located here arguments)
  | .mkdir arguments => .make (located here arguments) .directory
  | .rm arguments => .remove (located here arguments)

def Output.Says : Output → Store.Reply (List Byte) (List Byte) → Prop
  | .told failed,reply => reply = replyOf (failed = true)
  | .text text,reply => reply = .data text
  | .names shown,reply => ∃ names, reply = .names names ∧ Shows shown names

-- A path of the command line that fits the buffers.
def Leads (s : Machine) (arguments : List Byte) (Q : List Byte → Prop) : Prop :=
  0 ∉ arguments ∧ ∃ path, canonicalPath s.cwd arguments = some path ∧ Q path

-- What each command needs: a creation has its blocs and a name of 15 bytes at most,
-- or it is refused before it begins; what is read is a legible file; a listing has
-- no deleted entries and shows the whole directory; and the root stays.
def Builtin.Fits (s : Machine) : Builtin → Prop
  | .cat arguments => Leads s arguments fun path => s.resolve path ≠ 0 → ¬ s.IsDir (s.resolve path).toNat ∧
      Printable s (s.resolve path).toNat ∧ (s.contents (s.resolve path).toNat).length < 63488
  | .cd arguments => Leads s arguments fun path => closed path ≠ none
  | .compute _ none => True
  | .compute max (some path) => Leads s path fun target => ¬ Rejected target s ∧ Roomy s target (rows 0 (max+1).toNat).length
  | .cp (source :: dest :: _) => Leads s source fun source => Leads s dest fun dest => CopyFits s source dest
  | .cp _ => False
  | .ed arguments text => Leads s arguments fun path => Rejected path s ∨ Roomy s path text.length
  | .ls arguments => Leads s arguments fun path => s.resolve path ≠ 0 ∧ s.IsDir (s.resolve path).toNat ∧
      s.slots (s.resolve path).toNat ≤ 16 ∧ ∀ e ∈ s.entries (s.resolve path).toNat, e.entInumber ≠ 0
  | .mkdir arguments => Leads s arguments fun path => Rejected path s ∨ Roomy s path 0
  | .rm arguments => Leads s arguments fun path => path ≠ [slash]

-- A shell between two commands.
structure Tidied (s : Machine) : Prop where
  ordered : ∃ role free, Ordered s role free
  synced : Synced s
  lodged : Lodged s.cwd

structure Located (s : Machine) (arguments path : List Byte) : Prop extends Pathname path where
  plain : 0 ∉ path
  meant : components path = located (components s.cwd) arguments
  down : ∀ c ∈ components path, tokenWay c = .down
  top : components path = [] → path = [slash]

theorem Lodged.located (lodged : Lodged s.cwd) (plain : 0 ∉ arguments) (canonical : canonicalPath s.cwd arguments = some path) :
    Located s arguments path := by
  have walked := canonicalPath_walks canonical
  have named : Parts (Climb.walk tokenWay [] (components (target s.cwd arguments))) := fun c member =>
    components_named _ c ((Climb.walk_sublist _).subset member)
  have parts : components path = Climb.walk tokenWay [] (components (target s.cwd arguments)) := by
    rw [walked,components_rooted named]
  refine ⟨⟨canonicalPath_absolute_path canonical,fun below => ?_⟩,canonicalPath_plain canonical lodged.plain plain,?_,?_,?_⟩
  · rw [parts] at below
    obtain ⟨front,last,whole⟩ := (List.eq_nil_or_concat' _).resolve_left below
    have plain := named last (by rw [whole]; simp)
    rw [walked,rooted,if_neg below,whole,slashed_append]
    have single : slashed [last] = slash :: last := List.append_nil _
    rw [single,lastBasename_append _ plain.2]
    exact plain.1
  · rw [parts]
    unfold AsePlusPlus.located target
    by_cases relative : arguments.head? ≠ some slash
    · rw [if_pos relative,if_pos relative]
      obtain ⟨front,ends⟩ := List.getLast?_eq_some_iff.mp lodged.closed
      have apart : components (s.cwd ++ arguments) = components s.cwd ++ components arguments := by
        rw [ends,List.append_assoc,List.singleton_append,components_append,components_append,components_nil,List.append_nil]
      rw [apart,Climb.walk_append,Climb.walk_names [] lodged.down,List.nil_append]
    · rw [if_neg relative,if_neg relative]
  · rw [parts]
    exact Climb.walk_down _
  · intro none
    rw [parts] at none
    rw [walked,none]
    rfl

-- The files answer, and the user sees the answer.
def Mirrored (s : Machine) (c : Builtin) (r : Output) (t : Machine) : Prop :=
  ∃ reply, Settles s t (c.act s.session.here) reply ∧ r.Says reply

theorem told_reply (failed : Prop) [Decidable failed] : (Output.told (decide failed)).Says (replyOf failed) := by
  show replyOf failed = replyOf (decide failed = true)
  unfold replyOf
  exact if_congr decide_eq_true_iff.symm rfl rfl

variable {c : Builtin} {act : Store.Act (List Byte) (List Byte)}

-- A handler that settles an act tells whether it failed.
theorem Runs.tells {p : M Word} (c : Builtin) (failed : Word → Prop) [DecidablePred failed] {E : Stop → Machine → Prop} (meant : act = c.act s.session.here)
    (ran : Runs p s (fun r t => Settles s t act (replyOf (failed r))) E) :
    Runs (do let r ← p; return Output.told (failed r)) s (fun r t => Mirrored s c r t) E := by
  rw [runs_bind]
  refine ran.mono ?_ (fun _ _ => id)
  intro r t settles
  rw [meant] at settles
  exact ⟨_,settles,told_reply (failed r)⟩

-- The reads of a file of fewer than 63488 bytes.
theorem cat_answers (tidied : Tidied s) (fits : (Builtin.cat arguments).Fits s) (reads : Nat) : ∃ p, (Builtin.cat arguments).run reads s = some p ∧
    Runs p s (fun r t => Mirrored s (.cat arguments) r t) (fun _ _ => reads < 63488) := by
  obtain ⟨⟨role,free,ordered⟩,synced,lodged⟩ := tidied
  obtain ⟨plain,path,canonical,fits⟩ := fits
  have here := lodged.located plain canonical
  cases begun : doCat reads s.cwd arguments with
  | none =>
      unfold doCat at begun
      rw [canonical] at begun
      exact absurd begun (by simp)
  | some command =>
      refine ⟨_,by rw [Builtin.run,begun]; rfl,?_⟩
      rw [runs_bind]
      refine (runs_cat ordered synced here.toPathname canonical begun fits).mono ?_ ?_
      · intro r t settles
        rw [here.meant] at settles
        refine ⟨_,settles,?_⟩
        by_cases missing : r.1 = 1
        · rw [if_pos missing,if_pos missing]
          rfl
        · rw [if_neg missing,if_neg missing]
          rfl
      · intro _ _ few
        exact Nat.lt_of_le_of_lt few.2 (fits few.1).2.2

theorem ls_answers (tidied : Tidied s) (fits : (Builtin.ls arguments).Fits s) (reads : Nat) : ∃ p, (Builtin.ls arguments).run reads s = some p ∧
    Returns p s fun r t => Mirrored s (.ls arguments) r t := by
  obtain ⟨⟨role,free,ordered⟩,synced,lodged⟩ := tidied
  obtain ⟨plain,path,canonical,found,dir,few,filled⟩ := fits
  have here := lodged.located plain canonical
  refine ⟨_,by rw [Builtin.run,doLs,canonical]; rfl,?_⟩
  rw [Returns,runs_bind]
  refine (runs_ls ordered synced here.toPathname found dir few filled).mono ?_ (fun _ _ => id)
  intro r t post
  obtain ⟨shows,settles⟩ := post
  rw [here.meant] at settles shows
  exact ⟨_,settles,_,rfl,shows⟩

theorem Builtin.answers (tidied : Tidied s) (fits : c.Fits s) : ∃ n, ∀ reads, ∃ p, c.run reads s = some p ∧
    Runs p s (fun r t => Mirrored s c r t) (fun _ _ => reads ≤ n) := by
  obtain ⟨⟨role,free,ordered⟩,synced,lodged⟩ := tidied
  cases c with
  | cat arguments => exact ⟨63487,fun reads => by
      obtain ⟨p,begun,runs⟩ := cat_answers ⟨⟨role,free,ordered⟩,synced,lodged⟩ fits reads
      exact ⟨p,begun,runs.mono (fun _ _ => id) fun _ _ few => by omega⟩⟩
  | cd arguments =>
      obtain ⟨plain,path,canonical,fits⟩ := fits
      have here := lodged.located plain canonical
      refine ⟨0,fun reads => ?_⟩
      cases closing : closed path with
      | none => exact absurd closing fits
      | some goal =>
          cases begun : doCd s.cwd arguments with
          | none =>
              unfold doCd at begun
              rw [canonical] at begun
              replace begun : (closed path).bind _ = none := begun
              rw [closing] at begun
              cases begun
          | some command =>
              refine ⟨_,by rw [Builtin.run,begun]; rfl,?_⟩
              refine Runs.tells (.cd arguments) (fun r => r = 0) ?_ (Runs.of_returns
                (runs_cd ordered synced lodged plain canonical here.down closing begun) fun _ _ => id)
              rw [here.meant]
              rfl
  | compute max path =>
      cases path with
      | none =>
          refine ⟨0,fun reads => ⟨_,rfl,?_⟩⟩
          rw [runs_bind,runs_pure]
          exact ⟨_,(Same.refl s).settles ordered synced rfl,rfl⟩
      | some arguments =>
          obtain ⟨plain,path,canonical,fits⟩ := fits
          have here := lodged.located plain canonical
          refine ⟨0,fun reads => ⟨_,by rw [Builtin.run,doCompute,canonical]; rfl,?_⟩⟩
          refine Runs.tells (.compute max (some arguments)) (fun r => r ≠ 0) ?_ (Runs.of_returns
            (runs_compute ordered here.toPathname here.plain max fits) fun _ _ => id)
          rw [here.meant]
          rfl
  | cp words =>
      cases words with
      | nil => exact fits.elim
      | cons source rest =>
          cases rest with
          | nil => exact fits.elim
          | cons dest more =>
              obtain ⟨plain,source',canonical,plain',dest',canonical',fits⟩ := fits
              have here := lodged.located plain canonical
              have here' := lodged.located plain' canonical'
              refine ⟨(s.contents (s.resolve source').toNat).length,fun reads => ?_⟩
              have paths : cpPaths s (source :: dest :: more) = some (source',dest') := by
                rw [cpPaths,canonical,canonical']
                rfl
              refine ⟨_,by rw [Builtin.run,doCp_paths reads paths]; rfl,?_⟩
              refine Runs.tells (.cp (source :: dest :: more)) (fun r => r ≠ 0) ?_
                ((runs_cp ordered synced here'.toPathname here.toPathname here'.plain fits reads).mono (fun _ _ => id)
                  fun _ _ few => few.2)
              rw [here.meant,here'.meant]
              rfl
  | ed arguments text =>
      obtain ⟨plain,path,canonical,fits⟩ := fits
      have here := lodged.located plain canonical
      refine ⟨0,fun reads => ⟨_,by rw [Builtin.run,doEd,canonical]; rfl,?_⟩⟩
      refine Runs.tells (.ed arguments text) (fun r => r ≠ 0) ?_ (Runs.of_returns
        (runs_ed ordered synced here.toPathname here.plain fits) fun _ _ => id)
      rw [here.meant]
      rfl
  | ls arguments =>
      obtain ⟨p,begun,runs⟩ := ls_answers ⟨⟨role,free,ordered⟩,synced,lodged⟩ fits 0
      exact ⟨0,fun reads => ⟨p,begun,Runs.of_returns runs fun _ _ => id⟩⟩
  | mkdir arguments =>
      obtain ⟨plain,path,canonical,fits⟩ := fits
      have here := lodged.located plain canonical
      refine ⟨0,fun reads => ⟨_,by rw [Builtin.run,canonical]; rfl,?_⟩⟩
      refine Runs.tells (.mkdir arguments) (fun r => r = returnFailure) ?_ (Runs.of_returns
        (runs_mkdir ordered synced here.toPathname here.plain fits) fun _ _ => id)
      rw [here.meant]
      rfl
  | rm arguments =>
      obtain ⟨plain,path,canonical,fits⟩ := fits
      have here := lodged.located plain canonical
      refine ⟨0,fun reads => ⟨_,by rw [Builtin.run,canonical]; rfl,?_⟩⟩
      refine Runs.tells (.rm arguments) (fun r => r = returnFailure) ?_ (Runs.of_returns
        (runs_rm ordered synced here.toPathname fun top => fits (here.top top)) fun _ _ => id)
      rw [here.meant]
      rfl

theorem Mirrored.tidied {r : Output} (mirrored : Mirrored s c r t) (tidied : Tidied s) : Tidied t := by
  obtain ⟨reply,settles,_⟩ := mirrored
  exact ⟨settles.ordered,settles.synced,settles.lodged tidied.lodged⟩

theorem Obeys.mirrored {r : Output} (tidied : Tidied s) (fits : c.Fits s) (taken : Obeys s (c,r) t) : Mirrored s c r t := by
  obtain ⟨n,answers⟩ := c.answers tidied fits
  cases taken with
  | returns begun ran =>
      rename_i reads _
      obtain ⟨q,begun',runs⟩ := answers reads
      rw [begun] at begun'
      cases begun'
      exact runs.result ran

-- Given reads enough, a command that fits returns.
theorem Builtin.returns (tidied : Tidied s) (fits : c.Fits s) : ∃ r t, Obeys s (c,r) t := by
  obtain ⟨n,answers⟩ := c.answers tidied fits
  obtain ⟨p,begun,runs⟩ := answers (n+1)
  have ran : Returns p s fun r t => Mirrored s c r t := runs.mono (fun _ _ => id) (fun _ _ few => absurd few (by omega))
  obtain ⟨r,t,equal,_⟩ := returns_iff.mp ran
  exact ⟨r,t,.returns begun equal⟩

theorem Fresh.tidied (fresh : Fresh s) (cwd : s.cwd = [slash]) : Tidied s := by
  refine ⟨⟨_,_,fresh.ordered⟩,fresh.synced,?_⟩
  rw [cwd]
  exact ⟨⟨rfl,rfl,by decide,by decide⟩,fun c member => absurd member (by rw [show components [slash] = [] by decide]; exact List.not_mem_nil)⟩

end AsePlusPlus
