import AsePlusPlus.Confinement
import AsePlusPlus.Keeping
import AsePlusPlus.Volumes

namespace AsePlusPlus
open Words Program Trace Climb

variable {role role' : Nat → Role} {free free' : List Nat} {s t : Machine} {h k : Desk} {c : FileCall} {v : Var} {fd : FileDesc}
variable {inumber r : Word} {descs : Var → Option FileDesc} {w : Work} {path text arguments : List Byte} {p : Nat} {o : Order}

-- mount_volume, with the number that sscanf has read or that was there before.
def mountVolume (volume : Word) : M Unit := do
  readMbr
  modify fun m => {m with currentVolume := volume}
  let status ← loadSuper volume
  ensure (status = 0) .exit

inductive CommandAct where
  | order (p : Nat) (o : Order)
  | call (p : Nat)
  | mount (p : Nat) (volume : Word)

-- The commands are given C strings, also where do_cp takes what a buffer held.
def Order.Typed (m : Machine) : Order → Prop
  | .cd arguments | .mkdir arguments | .rm arguments | .ed arguments _ => 0 ∉ arguments
  | .cp words => 0 ∉ m.frame.text ∧ ∀ word ∈ words, 0 ∉ word
  | _ => False

-- A process takes a command, makes the next call of it, or mounts a volume. A text
-- that does not fit its buffer runs over whatever lies behind it, and a call that
-- stops the program leaves no state.
inductive CommandStep : Desk → CommandAct → Desk → Prop
  | order {h : Desk} {p : Nat} {o : Order} {work : Work} (idle : h.work p = .idle) (typed : o.Typed h.machine)
      (begun : o.start h.machine = some work) :
      CommandStep h (.order p o) ⟨h.machine,h.cleared p,Function.update h.work p work⟩
  | overruns {h k : Desk} {p : Nat} {o : Order} (idle : h.work p = .idle) (typed : o.Typed h.machine)
      (long : o.start h.machine = none) : CommandStep h (.order p o) k
  | returns {h : Desk} {p : Nat} {c : FileCall} {r : Word} {descs : Var → Option FileDesc} {t : Machine}
      (next : (h.work p).call p = some c) (ran : c.run h h.machine = (.ok (r,descs),t)) :
      CommandStep h (.call p) ⟨t,descs,Function.update h.work p ((h.work p).after p r)⟩
  | mount {h : Desk} {p : Nat} {volume : Word} {t : Machine} (idle : h.work p = .idle)
      (ran : mountVolume volume h.machine = (.ok (),t)) : CommandStep h (.mount p volume) ⟨t,h.descs,h.work⟩

-- The working directory is a directory of the volume, if there is one, and the
-- paths that canonical_path builds fit as soon as their text does.
structure Homed (m : Machine) : Prop where
  absolute : Absolute m.cwd
  closed : m.cwd.getLast? = some slash
  fits : m.cwd.length < maxprompt
  builds : ∀ path, (∃ c, canonicalPath m.cwd path = some c ∧ c.length < maxprompt) ↔ (target m.cwd path).length < maxprompt
  leads : Mounted m → ∃ i, (inumberOfPath m.cwd m).1 = .ok i ∧ i ≠ 0 ∧ m.IsDir i.toNat

-- The machine with another volume of its disk mounted.
def Machine.on (s : Machine) (volume : Word) : Machine :=
  let m := {s.read with currentVolume := volume}
  {m with super := Super.decode (m.hda.sectors (reached (m.cylinderOf 0) (m.sectorOf 0)))}

-- A creation keeps its name and its entry whole; what is removed is not above the
-- working directory, or above where a cd is about to go; cd goes to a directory;
-- a directory is closed with the size that it has.
def FileCall.Spares (h : Desk) : FileCall → Prop
  | .createFile path _ => Creates h.machine path
  | .deleteFile path => (AsePlusPlus.inumberOfPath path h.machine).1 = .ok 0 ∨ path = [slash] ∨
      (¬ components path <+: components h.machine.cwd ∧
        ∀ q goal, h.work q = .once (.chdir goal) → ¬ components path <+: components goal)
  | .inumberOfPath path => ∀ i, (AsePlusPlus.inumberOfPath path h.machine).1 = .ok i → i ≠ 0 → h.machine.IsDir i.toNat
  | .close v => ∀ fd, h.descs v = some fd → h.machine.IsDir fd.file → fd.fdsSize = h.machine.entryAt fd.file 1
  | _ => True

-- The texts fit, and a volume is mounted while nothing else goes on: a well-formed
-- one, with a directory where the working directory leads.
def CommandAct.Spares (h : Desk) : CommandAct → Prop
  | .order _ o => o.start h.machine ≠ none
  | .call p => ∀ c, (h.work p).call p = some c → c.Spares h
  | .mount _ volume => (∀ p, h.work p = .idle) ∧ ∃ role free, Ordered (h.machine.on volume) role free ∧
      Backed (h.machine.on volume) free ∧ (h.machine.on volume).Browses h.machine.cwd

-- Before the first mount.
structure Unmounted (s : Machine) : Prop where
  mbr : s.mbr.magicNumber ≠ mbrMagic
  root : s.super.rootInumber = 0

structure Booted (s : Machine) : Prop where
  cwd : s.cwd = [slash]
  volume : Unmounted s ∨ ∃ role free, Ordered s role free ∧ Backed s free ∧ s.IsDir s.super.rootInumber.toNat

-- The text of a working directory.
structure Place (text : List Byte) : Prop where
  absolute : Absolute text
  closed : text.getLast? = some slash
  fits : text.length < maxprompt
  plain : 0 ∉ text

-- The texts of a command that has made no call yet.
def Work.Begins : Work → Prop
  | .idle | .once (.deleteFile _) => True
  | .once (.createFile path _) | .ed path _ | .cp _ path => 0 ∉ path
  | .cd target => Place target
  | _ => False

-- The file that a command writes, and the one that it reads.
def Desk.Writes (h : Desk) (role : Nat → Role) (free : List Nat) (p : Nat) : Prop :=
  ∃ fd, h.descs (.fd p) = some fd ∧ Handle h.machine role free fd ∧ ¬ h.machine.IsDir fd.file

def Desk.Source (h : Desk) (role : Nat → Role) (p : Nat) : Prop :=
  ∃ fd, h.descs (.sfd p) = some fd ∧ role fd.file = .inode ∧ fd.fdsDirty = false

def Work.Going (h : Desk) (role : Nat → Role) (free : List Nat) (p : Nat) : Work → Prop
  | .once (.chdir target) => Place target ∧ h.machine.Browses target
  | .once (.close v) => v = .sfd p ∧ h.Source role p
  | .edOpen i _ | .cpOpen _ i => role i.toNat = .inode ∧ ¬ h.machine.IsDir i.toNat
  | .edWrite _ | .cpSource _ => h.Writes role free p
  | .cpRead | .cpWrite _ | .cpClose => h.Writes role free p ∧ h.Source role p
  | _ => False

-- The invariant while a volume is mounted, and before.
structure Tended (h : Desk) (role : Nat → Role) (free : List Nat) : Prop where
  ordered : Ordered h.machine role free
  backed : Backed h.machine free
  ready : ∀ p, (h.work p).Begins ∨ (h.work p).Going h role free p
  place : Place h.machine.cwd
  browses : h.machine.Browses h.machine.cwd

structure Waiting (h : Desk) : Prop where
  unmounted : Unmounted h.machine
  ready : ∀ p, (h.work p).Begins
  place : Place h.machine.cwd

def Upright (h : Desk) : Prop := Waiting h ∨ ∃ role free, Tended h role free

-- The characters of a component come from the text.
theorem components_bytes {x : Byte} {token : List Byte} (member : token ∈ components text) (inside : x ∈ token) : x ∈ text := by
  induction long : text.length using Nat.strongRecOn generalizing text with
  | ind n ih =>
      cases text with
      | nil => cases member
      | cons y rest =>
          rw [List.length_cons] at long
          by_cases separator : y = slash
          · subst separator
            rw [components_slash] at member
            exact List.mem_cons_of_mem slash (ih rest.length (by omega) member rfl)
          · rw [components_cons y rest separator] at member
            rcases List.mem_cons.mp member with first | later
            · rw [first] at inside
              exact (List.takeWhile_sublist _).subset inside
            · have dropped := List.dropWhile_sublist (p := (· ≠ slash)) (l := rest)
              have shorter := dropped.length_le
              rw [List.dropWhile_cons_of_pos (by simpa using separator)] at later
              have found := ih _ (by rw [List.length_tail]; omega) later rfl
              exact List.mem_cons_of_mem y (dropped.subset (List.mem_of_mem_tail found))

theorem canonicalPath_plain (ran : canonicalPath s.cwd path = some text) (before : 0 ∉ s.cwd) (plain : 0 ∉ path) : 0 ∉ text := by
  intro member
  have whole : 0 ∉ target s.cwd path := by
    unfold target
    split
    · intro either
      exact (List.mem_append.mp either).elim before plain
    · exact plain
  have other : (0 : Byte) ≠ slash := by decide
  rw [canonicalPath_walks ran,rooted] at member
  split at member
  · exact other (List.mem_singleton.mp member)
  · obtain ⟨c,kept,inside⟩ := List.mem_flatMap.mp member
    rcases List.mem_cons.mp inside with wrong | inside
    · exact other wrong
    · exact whole (components_bytes ((walk_sublist _).subset kept) inside)

-- Every text that the loop builds has passed its buffer.
theorem canonicalStep_short {canonical token next : List Byte} (short : canonical.length < maxprompt)
    (ran : canonicalStep canonical token = some next) : next.length < maxprompt := by
  unfold canonicalStep at ran
  split at ran
  · dsimp only at ran
    split at ran
    · cases ran
      decide
    · cases ran
      exact Nat.lt_of_le_of_lt (List.length_take_le' _ _) short
  · split at ran
    · cases ran
      exact short
    · obtain ⟨_,_,last⟩ := Option.bind_eq_some_iff.mp ran
      unfold buffer at last
      split at last
      · rename_i fits
        cases last
        exact fits
      · cases last

theorem canonicalPath_short {cwd : List Byte} (ran : canonicalPath cwd path = some text) : text.length < maxprompt := by
  have loop : ∀ (tokens : List (List Byte)) (canonical last : List Byte), canonical.length < maxprompt →
      tokens.foldlM canonicalStep canonical = some last → last.length < maxprompt := by
    intro tokens
    induction tokens with
    | nil =>
        intro canonical last short same
        cases same
        exact short
    | cons token rest ih =>
        intro canonical last short folded
        rw [List.foldlM_cons] at folded
        obtain ⟨next,first,later⟩ := Option.bind_eq_some_iff.mp folded
        exact ih next last (canonicalStep_short short first) later
  have fits : (target cwd path).length < maxprompt := by
    by_contra long
    rw [overlong_none (Nat.le_of_not_lt long)] at ran
    cases ran
  rw [canonicalPath_fits fits] at ran
  obtain ⟨canonical,folded,equal⟩ := Option.bind_eq_some_iff.mp ran
  have short := loop _ _ _ (by decide) folded
  cases equal
  split
  · decide
  · exact short

theorem canonicalPath_absolute_path {cwd : List Byte} (ran : canonicalPath cwd path = some text) : Absolute text := by
  rw [canonicalPath_walks ran]
  exact rooted_absolute _

-- do_cd's text for the directory that it looks up.
theorem place_closed {goal : List Byte} (place : Place s.cwd) (plain : 0 ∉ path) (ran : canonicalPath s.cwd path = some text)
    (closing : closed text = some goal) : Place goal := by
  have absolute := canonicalPath_absolute_path ran
  have short := canonicalPath_short ran
  have clean := canonicalPath_plain ran place.plain plain
  unfold closed at closing
  split at closing
  · unfold buffer at closing
    split at closing
    · rename_i fits
      cases closing
      refine ⟨?_,List.getLast?_concat,fits,?_⟩
      · unfold Absolute at absolute ⊢
        rw [List.head?_append,absolute]
        rfl
      · intro member
        rcases List.mem_append.mp member with old | new
        · exact clean old
        · exact absurd (List.mem_singleton.mp new) (by decide)
    · cases closing
  · rename_i last
    cases closing
    exact ⟨absolute,not_not.mp last,short,clean⟩

theorem Place.homed (place : Place s.cwd) (leads : Mounted s → s.Browses s.cwd ∧ (inumberOfPath s.cwd s).1 = .ok (s.resolve s.cwd)) :
    Homed s := by
  obtain ⟨absolute,last,fits,_⟩ := place
  refine ⟨absolute,last,fits,fun path => ⟨?_,fun room => ?_⟩,fun mounted => ?_⟩
  · intro built
    obtain ⟨c,ran,_⟩ := built
    by_contra long
    rw [overlong_none (Nat.le_of_not_lt long)] at ran
    cases ran
  · have ran := canonicalPath_ends _ _ room (.inl (Cwd.target ⟨s.cwd,absolute,last,fits⟩ path))
    exact ⟨_,ran,canonicalPath_short ran⟩
  · obtain ⟨⟨some,dir⟩,found⟩ := leads mounted
    exact ⟨_,found,some,dir⟩

-- The texts that a command starts with.
theorem Order.begins (place : Place s.cwd) (typed : o.Typed s) (begun : o.start s = some w) : w.Begins := by
  cases o with
  | cd arguments =>
      obtain ⟨goal,ran,rest⟩ := Option.bind_eq_some_iff.mp begun
      obtain ⟨_,closing,same⟩ := Option.map_eq_some_iff.mp rest
      subst same
      exact place_closed place typed ran closing
  | mkdir arguments | ed arguments text =>
      obtain ⟨goal,ran,same⟩ := Option.map_eq_some_iff.mp begun
      subst same
      exact canonicalPath_plain ran place.plain typed
  | rm arguments =>
      obtain ⟨goal,ran,same⟩ := Option.map_eq_some_iff.mp begun
      subst same
      trivial
  | cp words =>
      obtain ⟨held,words'⟩ := typed
      have copies : ∀ source dest, 0 ∉ dest → cpWork s source dest = some w → w.Begins := by
        intro source dest plain begun
        obtain ⟨_,_,rest⟩ := Option.bind_eq_some_iff.mp begun
        obtain ⟨goal,ran,last⟩ := Option.bind_eq_some_iff.mp rest
        cases last
        exact canonicalPath_plain ran place.plain plain
      cases words with
      | nil =>
          cases begun
          trivial
      | cons source rest =>
          cases rest with
          | nil => exact copies source _ held begun
          | cons dest rest => exact copies source dest (words' dest (by simp)) begun
  | _ => cases typed

-- What a process relies on stays through the calls of the others.
section after
variable {spared : List Byte → Prop} (kept : Retains spared h.machine t role role' free free')
include kept

theorem Desk.Writes.after (writes : h.Writes role free p) (same : descs (.fd p) = h.descs (.fd p)) (work : Nat → Work) :
    Desk.Writes ⟨t,descs,work⟩ role' free' p := by
  obtain ⟨fd,used,handle,plain⟩ := writes
  refine ⟨fd,same.trans used,handle.after kept.toCarries kept.backs,?_⟩
  intro dir
  exact plain ((kept.isDir handle.node).mp dir)

theorem Desk.Source.after (source : h.Source role p) (same : descs (.sfd p) = h.descs (.sfd p)) (work : Nat → Work) :
    Desk.Source ⟨t,descs,work⟩ role' p := by
  obtain ⟨fd,used,node,clean⟩ := source
  exact ⟨fd,same.trans used,kept.node node,clean⟩

theorem Work.Going.after (going : w.Going h role free p) (browsable : Browsable h.machine role)
    (same : descs (.fd p) = h.descs (.fd p) ∧ descs (.sfd p) = h.descs (.sfd p))
    (safe : ∀ goal, w = .once (.chdir goal) → spared goal) (work : Nat → Work) : w.Going ⟨t,descs,work⟩ role' free' p := by
  have opens : ∀ i : Word, role i.toNat = .inode ∧ ¬ h.machine.IsDir i.toNat → role' i.toNat = .inode ∧ ¬ t.IsDir i.toNat := by
    intro i file
    exact ⟨kept.node file.1,fun dir => file.2 ((kept.isDir file.1).mp dir)⟩
  cases w with
  | once call =>
      cases call with
      | chdir goal => exact ⟨going.1,kept.browses browsable (safe goal rfl) going.2⟩
      | close v => exact ⟨going.1,going.2.after kept same.2 work⟩
      | _ => cases going
  | edOpen i text => exact opens i going
  | cpOpen source i => exact opens i going
  | edWrite text => exact Desk.Writes.after kept going same.1 work
  | cpSource source => exact Desk.Writes.after kept going same.1 work
  | cpRead => exact ⟨going.1.after kept same.1 work,going.2.after kept same.2 work⟩
  | cpWrite c => exact ⟨going.1.after kept same.1 work,going.2.after kept same.2 work⟩
  | cpClose => exact ⟨going.1.after kept same.1 work,going.2.after kept same.2 work⟩
  | _ => cases going

-- A call of process p that spares the working directory and where the others go.
theorem Tended.step (tended : Tended h role free)
    (others : ∀ q, q ≠ p → descs (.fd q) = h.descs (.fd q) ∧ descs (.sfd q) = h.descs (.sfd q))
    (here : spared h.machine.cwd) (there : ∀ q goal, h.work q = .once (.chdir goal) → spared goal)
    (ready : w.Begins ∨ w.Going ⟨t,descs,Function.update h.work p w⟩ role' free' p) :
    Tended ⟨t,descs,Function.update h.work p w⟩ role' free' := by
  have browsable := tended.ordered.tree.toBrowsable
  refine ⟨kept.ordered,kept.backs.backed tended.backed,fun q => ?_,?_,?_⟩
  · dsimp only
    by_cases same : q = p
    · subst same
      rw [Function.update_self]
      exact ready
    · rw [Function.update_of_ne same]
      exact (tended.ready q).imp id fun going => going.after kept browsable (others q same) (there q) _
  · show Place t.cwd
    rw [kept.within.cwd]
    exact tended.place
  · show t.Browses t.cwd
    rw [kept.within.cwd]
    exact kept.browses browsable here tended.browses

end after

-- The shell looks around, and no process has done anything.
theorem Tended.aside (tended : Tended h role free) (kept : Retains (fun _ => True) h.machine t role role' free free') :
    Tended ⟨t,h.descs,h.work⟩ role' free' := by
  have same := Function.update_eq_self 0 h.work
  have browsable := tended.ordered.tree.toBrowsable
  have going := (tended.ready 0).imp id fun going =>
    going.after (h := h) kept browsable ⟨rfl,rfl⟩ (fun _ _ => trivial) (Function.update h.work 0 (h.work 0))
  have step := tended.step kept (fun _ _ => ⟨rfl,rfl⟩) trivial (fun _ _ _ => trivial) going
  rw [same] at step
  exact step

theorem Desk.var_of (used : h.descs v = some fd) : h.var v = fd := by
  unfold Desk.var
  rw [used]
  rfl

-- Only the variables of process p are written.
theorem update_others {v : Var} (own : v = .fd p ∨ v = .sfd p) (d : Option FileDesc) :
    ∀ q, q ≠ p → Function.update h.descs v d (.fd q) = h.descs (.fd q) ∧ Function.update h.descs v d (.sfd q) = h.descs (.sfd q) := by
  intro q other
  have first : Var.fd q ≠ v := by
    rcases own with same | same
    · rw [same]
      intro wrong
      exact other (Var.fd.inj wrong)
    · rw [same]
      simp
  have second : Var.sfd q ≠ v := by
    rcases own with same | same
    · rw [same]
      simp
    · rw [same]
      intro wrong
      exact other (Var.sfd.inj wrong)
  exact ⟨Function.update_of_ne first _ _,Function.update_of_ne second _ _⟩

-- What each call does under the invariant.
section calls
variable (tended : Tended h role free)
include tended

theorem Tended.creates {type : FileType} (plain : 0 ∉ path) (creates : Creates h.machine path) :
    Runs ((FileCall.createFile path type).run h) h.machine (fun r t => r.2 = h.descs ∧ ∃ role' free',
      Retains (fun _ => True) h.machine t role role' free free' ∧
      (r.1 = returnFailure ∨ (role' r.1.toNat = .inode ∧ t.entryAt r.1.toNat 0 = type.code))) (fun _ _ => True) := by
  unfold FileCall.run
  rw [runs_bind]
  refine (runs_createFile_keeps type tended.ordered tended.backed plain creates).mono ?_ (fun _ _ => id)
  intro r t made
  exact ⟨rfl,made⟩

theorem Tended.deletes : Runs ((FileCall.deleteFile path).run h) h.machine (fun r t => r.2 = h.descs ∧ ∃ role' free',
    Retains (fun q => h.machine.resolve path = 0 ∨ lastBasename path = [] ∨ ¬ components path <+: components q)
      h.machine t role role' free free') (fun _ _ => True) := by
  unfold FileCall.run
  rw [runs_bind]
  refine (runs_deleteFile_keeps tended.ordered tended.backed).mono ?_ (fun _ _ => id)
  intro r t gone
  exact ⟨rfl,gone⟩

theorem Tended.looks : Returns ((FileCall.inumberOfPath path).run h) h.machine fun r t => r.2 = h.descs ∧
    r.1 = h.machine.resolve path ∧ Retains (fun _ => True) h.machine t role role free free := by
  unfold FileCall.run
  rw [Returns,runs_bind]
  refine (runs_inumberOfPath tended.ordered.layout tended.ordered.tree.toBrowsable path).mono ?_ (fun _ _ => id)
  intro r t found
  exact ⟨rfl,found.1,found.2.same.keeps tended.ordered tended.backed⟩

theorem Tended.opens (file : role inumber.toNat = .inode ∧ ¬ h.machine.IsDir inumber.toNat) :
    Returns ((FileCall.openIfile (.fd p) inumber).run h) h.machine fun r t =>
      Retains (fun _ => True) h.machine t role role free free ∧ ∃ fd, r.2 = Function.update h.descs (.fd p) (some fd) ∧
      Handle t role free fd ∧ ¬ t.IsDir fd.file := by
  unfold FileCall.run
  rw [Returns,runs_bind]
  refine (runs_openIfile tended.ordered.layout file.1).mono ?_ (fun _ _ => id)
  intro r t loaded
  obtain ⟨quiet,same⟩ := loaded
  subst same
  have kept : Retains (fun _ => True) h.machine t role role free free := quiet.same.keeps tended.ordered tended.backed
  refine ⟨kept,_,rfl,⟨file.1,.inl (show (0 : Word).toNat < 63488 by decide),fun wrong => absurd wrong Bool.false_ne_true⟩,?_⟩
  intro dir
  exact file.2 ((kept.isDir file.1).mp dir)

theorem Tended.opensSource : Returns ((FileCall.openFile (.sfd p) path).run h) h.machine fun r t =>
    Retains (fun _ => True) h.machine t role role free free ∧
    (r.1 ≠ returnSuccess ∧ r.2 = h.descs ∨ ∃ fd, r.2 = Function.update h.descs (.sfd p) (some fd) ∧
      role fd.file = .inode ∧ fd.fdsDirty = false) := by
  have layout := tended.ordered.layout
  have browsable := tended.ordered.tree.toBrowsable
  unfold FileCall.run AsePlusPlus.openFile
  rw [Returns,runs_bind,runs_bind]
  refine (runs_inumberOfPath layout browsable path).mono ?_ (fun _ _ => id)
  intro i u found
  obtain ⟨number,still⟩ := found
  by_cases none : i = 0
  · rw [if_pos none,runs_pure,runs_pure]
    have failed : returnFailure ≠ returnSuccess := by decide
    dsimp only
    rw [if_neg failed]
    exact ⟨still.same.keeps tended.ordered tended.backed,.inl ⟨failed,rfl⟩⟩
  have node : role i.toNat = .inode := by
    rw [number] at none ⊢
    exact resolve_node browsable none
  rw [if_neg none]
  refine (runs_openIfile (layout.same still.same) node).mono ?_ (fun _ _ => id)
  intro r t loaded
  obtain ⟨quiet,same⟩ := loaded
  subst same
  rw [runs_pure,if_pos (show (0 : Word) = returnSuccess from rfl)]
  exact ⟨(still.same.trans quiet.same).keeps tended.ordered tended.backed,.inr ⟨_,rfl,node,rfl⟩⟩

theorem Tended.writes (writes : h.Writes role free p) (c : Byte) :
    Runs ((FileCall.writec (.fd p) c).run h) h.machine (fun r t => ∃ role' free' fd,
      Retains (fun _ => True) h.machine t role role' free free' ∧ r.2 = Function.update h.descs (.fd p) (some fd) ∧
      Handle t role' free' fd ∧ ¬ t.IsDir fd.file) (fun _ _ => True) := by
  obtain ⟨fd,used,handle,plain⟩ := writes
  unfold FileCall.run writecFile
  rw [runs_bind,Desk.var_of used]
  refine (handle.writec tended.ordered.layout tended.backed c).mono ?_ (fun _ _ _ => trivial)
  intro r t wrote
  obtain ⟨role',free',written⟩ := wrote
  have kept : Retains (fun _ => True) h.machine t role role' free free' :=
    (written.filed.spares plain).keeps tended.ordered tended.backed written.backs
  refine ⟨role',free',r.2,kept,rfl,written.handle,?_⟩
  have file : r.2.file = fd.file := congrArg BitVec.toNat written.inumber
  rw [file,kept.isDir handle.node]
  exact plain

theorem Tended.closes (writes : h.Writes role free p) : Returns ((FileCall.close (.fd p)).run h) h.machine fun r t =>
    Retains (fun _ => True) h.machine t role role free free ∧ ∃ fd, r.2 = Function.update h.descs (.fd p) (some fd) := by
  obtain ⟨fd,used,handle,plain⟩ := writes
  unfold FileCall.run closeFile
  rw [Returns,runs_bind,Desk.var_of used]
  refine (handle.close tended.ordered.layout).mono ?_ (fun _ _ => id)
  intro fd' t closed
  obtain ⟨filed,_,backs,_⟩ := closed
  exact ⟨(filed.spares plain).keeps tended.ordered tended.backed backs,fd',rfl⟩

theorem Tended.reads (source : h.Source role p) : Runs ((FileCall.readc (.sfd p)).run h) h.machine (fun r t =>
    Retains (fun _ => True) h.machine t role role free free ∧ ∃ fd, r.2 = Function.update h.descs (.sfd p) (some fd) ∧
      role fd.file = .inode ∧ fd.fdsDirty = false) (fun _ _ => True) := by
  obtain ⟨fd,used,node,clean⟩ := source
  unfold FileCall.run readcFile
  rw [runs_bind,Desk.var_of used]
  refine ((calm_readc_clean clean).runs (.refl h.machine)).mono ?_ (fun _ _ _ => trivial)
  intro r t read
  obtain ⟨moved,_,same⟩ := read
  refine ⟨same.keeps tended.ordered tended.backed,r.2,rfl,?_,moved.clean⟩
  rw [show r.2.file = fd.file from congrArg BitVec.toNat moved.inumber]
  exact node

-- A source is closed with the size that it was opened with.
theorem Tended.closesSource (source : h.Source role p) (spares : (FileCall.close (.sfd p)).Spares h) :
    Returns ((FileCall.close (.sfd p)).run h) h.machine fun r t =>
      Retains (fun _ => True) h.machine t role role free free ∧ ∃ fd, r.2 = Function.update h.descs (.sfd p) (some fd) := by
  obtain ⟨fd,used,node,clean⟩ := source
  have layout := tended.ordered.layout
  have inside := (layout.bound node (by simp)).2
  have quiet := Quiet.load h.machine fd.file
  have loaded := layout.quiet quiet
  unfold FileCall.run closeFile
  rw [Returns,runs_bind,Desk.var_of used,runs_close_clean layout.mounted inside clean]
  refine ⟨?_,fd,rfl⟩
  by_cases dir : h.machine.IsDir fd.file
  · have same : Same (h.machine.load fd.file) ((h.machine.load fd.file).resized fd.fdsInumber fd.fdsSize) :=
      resized_same fd.fdsSize ((spares fd used dir).trans (quiet.same.entryAt _ _).symm)
    exact (quiet.same.trans same).keeps tended.ordered tended.backed
  · have filed := (quiet.filed layout fd.file).trans (resized_filed loaded node fd.fdsSize)
    refine (filed.spares dir).keeps tended.ordered tended.backed ?_
    exact (quiet.backs).trans ((resized_sound loaded node _).backs (resized_zero loaded node _))

end calls

-- Nothing on the disk depends on the working directory.
theorem chdir_walk (s : Machine) (goal : List Byte) (i : Word) (names : List (List Byte)) :
    Machine.walk {s with cwd := goal} i names = s.walk i names := by
  induction names generalizing i with
  | nil => rfl
  | cons c rest ih =>
      rw [Machine.walk,Machine.walk,ih]
      rfl

theorem chdir_resolve (s : Machine) (goal path : List Byte) : Machine.resolve {s with cwd := goal} path = s.resolve path := by
  unfold Machine.resolve
  rw [chdir_walk]

theorem chdir_browses (goal : List Byte) (browses : s.Browses path) : Machine.Browses {s with cwd := goal} path := by
  unfold Machine.Browses
  rw [chdir_resolve]
  exact browses

theorem Ordered.chdir (ordered : Ordered s role free) (goal : List Byte) : Ordered {s with cwd := goal} role free := by
  obtain ⟨layout,tree,synced⟩ := ordered
  have live : ∀ {d k e}, Live {s with cwd := goal} role d k e → Live s role d k e := by
    intro d k e live
    exact ⟨live.node,live.dir,live.slot,live.entry,live.live⟩
  refine ⟨layout.chdir goal,tree.less ⟨tree.root,fun d node dir => ?_,tree.nodes⟩ rfl live,synced⟩
  obtain ⟨size,slotted,mapped⟩ := tree.dirs d node dir
  exact ⟨size,slotted,mapped⟩

theorem Work.Going.chdir (going : w.Going h role free p) (goal : List Byte) (work : Nat → Work) :
    w.Going ⟨{h.machine with cwd := goal},h.descs,work⟩ role free p := by
  have writes : h.Writes role free p → Desk.Writes ⟨{h.machine with cwd := goal},h.descs,work⟩ role free p := by
    intro open_
    obtain ⟨fd,used,⟨node,near,dirty⟩,plain⟩ := open_
    exact ⟨fd,used,⟨node,near,dirty⟩,plain⟩
  cases w with
  | once call =>
      cases call with
      | chdir other => exact ⟨going.1,chdir_browses goal going.2⟩
      | close v => exact going
      | _ => cases going
  | edOpen i text => exact going
  | cpOpen source i => exact going
  | edWrite text => exact writes going
  | cpSource source => exact writes going
  | cpRead => exact ⟨writes going.1,going.2⟩
  | cpWrite c => exact ⟨writes going.1,going.2⟩
  | cpClose => exact ⟨writes going.1,going.2⟩
  | _ => cases going

-- The end of a cd.
theorem Tended.chdir {goal : List Byte} (tended : Tended h role free) (place : Place goal) (browses : h.machine.Browses goal) :
    Tended ⟨{h.machine with cwd := goal},h.descs,Function.update h.work p .idle⟩ role free := by
  refine ⟨tended.ordered.chdir goal,tended.backed,fun q => ?_,place,chdir_browses goal browses⟩
  dsimp only
  by_cases same : q = p
  · subst same
    rw [Function.update_self]
    exact .inl trivial
  · rw [Function.update_of_ne same]
    exact (tended.ready q).imp id fun going => going.chdir goal _

-- A creation, and what it leads to.
theorem Tended.created {type : FileType} (tended : Tended h role free) (later : Word → Work) (plain : 0 ∉ path)
    (spares : (FileCall.createFile path type).Spares h)
    (onward : ∀ r, (later r).Begins ∨ r ≠ returnFailure ∧ ∀ role free (k : Desk), role r.toNat = .inode →
      k.machine.entryAt r.toNat 0 = type.code → (later r).Going k role free p)
    (ran : (FileCall.createFile path type).run h h.machine = (.ok (r,descs),t)) :
    ∃ role free, Tended ⟨t,descs,Function.update h.work p (later r)⟩ role free := by
  obtain ⟨same,role',free',kept,result⟩ := (tended.creates plain spares).result ran
  dsimp only at same result
  subst same
  refine ⟨role',free',tended.step kept (fun _ _ => ⟨rfl,rfl⟩) trivial (fun _ _ _ => trivial) ?_⟩
  rcases onward r with begins | ⟨real,going⟩
  · exact .inl begins
  · obtain ⟨node,typed⟩ := result.resolve_left real
    exact .inr (going role' free' _ node typed)

-- ed and cp go on with the file that they have created, unless that failed.
theorem Tended.createdFile (tended : Tended h role free) (later : Word → Work) (plain : 0 ∉ path)
    (spares : (FileCall.createFile path .file).Spares h)
    (onward : ∀ r role free (k : Desk), role r.toNat = .inode ∧ ¬ k.machine.IsDir r.toNat → (later r).Going k role free p)
    (ran : (FileCall.createFile path .file).run h h.machine = (.ok (r,descs),t)) :
    ∃ role free, Tended ⟨t,descs,Function.update h.work p (if r = returnFailure then .idle else later r)⟩ role free := by
  refine tended.created (fun r => if r = returnFailure then .idle else later r) plain spares ?_ ran
  intro r
  split
  · exact .inl trivial
  · rename_i real
    refine .inr ⟨real,fun role free k node typed => onward r role free k ⟨node,?_⟩⟩
    intro dir
    unfold Machine.IsDir at dir
    rw [typed] at dir
    exact absurd dir (by decide)

-- The file that create_file made is opened.
theorem Tended.opened (tended : Tended h role free) (file : role inumber.toNat = .inode ∧ ¬ h.machine.IsDir inumber.toNat)
    (onward : ∀ role free (k : Desk), k.Writes role free p → w.Begins ∨ w.Going k role free p)
    (ran : (FileCall.openIfile (.fd p) inumber).run h h.machine = (.ok (r,descs),t)) :
    ∃ role free, Tended ⟨t,descs,Function.update h.work p w⟩ role free := by
  obtain ⟨kept,fd,same,handle,plain⟩ := (tended.opens file).result ran
  dsimp only at same
  subst same
  refine ⟨role,free,tended.step kept (update_others (.inl rfl) _) trivial (fun _ _ _ => trivial) ?_⟩
  exact onward role free _ ⟨fd,Function.update_self _ _ _,handle,plain⟩

-- A byte is written, and the source stays as it was.
theorem Tended.wrote {c : Byte} (tended : Tended h role free) (writes : h.Writes role free p)
    (onward : ∀ role' free' (k : Desk), k.Writes role' free' p → (h.Source role p → k.Source role' p) → w.Going k role' free' p)
    (ran : (FileCall.writec (.fd p) c).run h h.machine = (.ok (r,descs),t)) :
    ∃ role free, Tended ⟨t,descs,Function.update h.work p w⟩ role free := by
  obtain ⟨role',free',fd,kept,same,handle,plain⟩ := (tended.writes writes c).result ran
  dsimp only at same
  subst same
  refine ⟨role',free',tended.step kept (update_others (.inl rfl) _) trivial (fun _ _ _ => trivial) (.inr ?_)⟩
  refine onward role' free' _ ⟨fd,Function.update_self _ _ _,handle,plain⟩ fun source => ?_
  exact source.after kept (Function.update_of_ne (by simp) _ _) _

-- A call that spares every path, and leaves the descriptors of the other contexts.
theorem Tended.onward {spared : List Byte → Prop} (tended : Tended h role free) (kept : Retains spared h.machine t role role free free)
    (all : ∀ q, spared q) (others : ∀ q, q ≠ p → descs (.fd q) = h.descs (.fd q) ∧ descs (.sfd q) = h.descs (.sfd q))
    (after : w.Begins ∨ w.Going ⟨t,descs,Function.update h.work p w⟩ role free p) :
    ∃ role free, Tended ⟨t,descs,Function.update h.work p w⟩ role free :=
  ⟨role,free,tended.step kept others (all _) (fun _ _ _ => all _) after⟩

theorem Tended.deleted (tended : Tended h role free) (spares : (FileCall.deleteFile path).Spares h)
    (ran : (FileCall.deleteFile path).run h h.machine = (.ok (r,descs),t)) :
    ∃ role free, Tended ⟨t,descs,Function.update h.work p .idle⟩ role free := by
  obtain ⟨same,role',free',kept⟩ := tended.deletes.result ran
  dsimp only at same
  subst same
  have root : path = [slash] → lastBasename path = [] := by
    intro alone
    rw [alone]
    decide
  refine ⟨role',free',tended.step kept (fun _ _ => ⟨rfl,rfl⟩) ?_ (fun q goal there => ?_) (.inl trivial)⟩
  · rcases spares with missing | alone | away
    · rw [tended.ordered.lookup] at missing
      exact .inl (Except.ok.inj missing)
    · exact .inr (.inl (root alone))
    · exact .inr (.inr away.1)
  · rcases spares with missing | alone | away
    · rw [tended.ordered.lookup] at missing
      exact .inl (Except.ok.inj missing)
    · exact .inr (.inl (root alone))
    · exact .inr (.inr (away.2 q goal there))

-- The lookup of a cd, before the working directory moves.
theorem Tended.looked (tended : Tended h role free) (place : Place goal) (spares : (FileCall.inumberOfPath goal).Spares h)
    (ran : (FileCall.inumberOfPath goal).run h h.machine = (.ok (r,descs),t)) :
    ∃ role free, Tended ⟨t,descs,Function.update h.work p ((Work.cd goal).after p r)⟩ role free := by
  obtain ⟨same,number,kept⟩ := tended.looks.result ran
  dsimp only at same number
  subst same
  by_cases none : r = 0
  · have idle : (Work.cd goal).after p r = .idle := if_pos none
    rw [idle]
    exact tended.onward kept (fun _ => trivial) (fun _ _ => ⟨rfl,rfl⟩) (.inl trivial)
  · have found : (Work.cd goal).after p r = .once (.chdir goal) := if_neg none
    rw [found]
    rw [number] at none
    have dir := spares _ (tended.ordered.lookup goal) none
    have browses := kept.browses tended.ordered.tree.toBrowsable trivial ⟨none,dir⟩
    exact tended.onward kept (fun _ => trivial) (fun _ _ => ⟨rfl,rfl⟩) (.inr ⟨place,browses⟩)

-- The close of the file being written.
theorem Tended.closed (tended : Tended h role free) (writes : h.Writes role free p)
    (onward : ∀ fd, Retains (fun _ => True) h.machine t role role free free →
      w.Begins ∨ w.Going ⟨t,Function.update h.descs (.fd p) (some fd),Function.update h.work p w⟩ role free p)
    (ran : (FileCall.close (.fd p)).run h h.machine = (.ok (r,descs),t)) :
    ∃ role free, Tended ⟨t,descs,Function.update h.work p w⟩ role free := by
  obtain ⟨kept,fd,same⟩ := (tended.closes writes).result ran
  dsimp only at same
  subst same
  exact tended.onward kept (fun _ => trivial) (update_others (.inl rfl) _) (onward fd kept)

-- The file that cp reads: its open, its reads and its close.
theorem Tended.sourceOpened (tended : Tended h role free) (writes : h.Writes role free p)
    (ran : (FileCall.openFile (.sfd p) source).run h h.machine = (.ok (r,descs),t)) :
    ∃ role free, Tended ⟨t,descs,Function.update h.work p ((Work.cpSource source).after p r)⟩ role free := by
  obtain ⟨kept,result⟩ := tended.opensSource.result ran
  dsimp only at result
  rcases result with ⟨failed,same⟩ | ⟨fd,same,node,clean⟩
  · subst same
    have idle : (Work.cpSource source).after p r = .idle := if_pos failed
    rw [idle]
    exact tended.onward kept (fun _ => trivial) (fun _ _ => ⟨rfl,rfl⟩) (.inl trivial)
  · subst same
    refine tended.onward kept (fun _ => trivial) (update_others (.inr rfl) _) ?_
    simp only [Work.after]
    split
    · exact .inl trivial
    · exact .inr ⟨writes.after kept (Function.update_of_ne (by simp) _ _) _,fd,Function.update_self _ _ _,node,clean⟩

theorem Tended.sourceRead (tended : Tended h role free) (writes : h.Writes role free p) (source : h.Source role p)
    (ran : (FileCall.readc (.sfd p)).run h h.machine = (.ok (r,descs),t)) :
    ∃ role free, Tended ⟨t,descs,Function.update h.work p (Work.cpRead.after p r)⟩ role free := by
  obtain ⟨kept,fd,same,node,clean⟩ := (tended.reads source).result ran
  dsimp only at same
  subst same
  have writes' (work) : Desk.Writes ⟨t,Function.update h.descs (.sfd p) (some fd),work⟩ role free p :=
    writes.after kept (Function.update_of_ne (by simp) _ _) work
  refine tended.onward kept (fun _ => trivial) (update_others (.inr rfl) _) (.inr ?_)
  simp only [Work.after]
  split
  · exact ⟨writes' _,fd,Function.update_self _ _ _,node,clean⟩
  · exact ⟨writes' _,fd,Function.update_self _ _ _,node,clean⟩

-- The call of a builtin that makes one call, and of a cd or cp that is at its last.
theorem Tended.once (tended : Tended h role free) (ready : (Work.once c).Begins ∨ (Work.once c).Going h role free p) (spares : c.Spares h)
    (ran : c.run h h.machine = (.ok (r,descs),t)) : ∃ role free, Tended ⟨t,descs,Function.update h.work p .idle⟩ role free := by
  cases c with
  | createFile path type =>
      have plain : 0 ∉ path := ready.resolve_right fun wrong => wrong
      exact tended.created (fun _ => .idle) plain spares (fun _ => .inl trivial) ran
  | deleteFile path => exact tended.deleted spares ran
  | chdir goal =>
      obtain ⟨place,browses⟩ := ready.resolve_left fun wrong => wrong
      cases ran
      exact ⟨role,free,tended.chdir place browses⟩
  | close v =>
      obtain ⟨same,source⟩ := ready.resolve_left fun wrong => wrong
      subst same
      obtain ⟨kept,fd,same⟩ := (tended.closesSource source spares).result ran
      dsimp only at same
      subst same
      exact tended.onward kept (fun _ => trivial) (update_others (.inr rfl) _) (.inl trivial)
  | _ => rcases ready with wrong | wrong <;> cases wrong

theorem Tended.call (tended : Tended h role free) (next : (h.work p).call p = some c) (spares : c.Spares h)
    (ran : c.run h h.machine = (.ok (r,descs),t)) :
    ∃ role free, Tended ⟨t,descs,Function.update h.work p ((h.work p).after p r)⟩ role free := by
  have ready := tended.ready p
  generalize work : h.work p = w at next ready
  cases w with
  | once d =>
      cases next
      exact tended.once ready spares ran
  | cd goal =>
      cases next
      exact tended.looked (ready.resolve_right fun wrong => wrong) spares ran
  | ed goal text =>
      cases next
      exact tended.createdFile (fun r => .edOpen r text) (ready.resolve_right fun wrong => wrong) spares (fun _ _ _ _ made => made) ran
  | cp source dest =>
      cases next
      exact tended.createdFile (fun r => .cpOpen source r) (ready.resolve_right fun wrong => wrong) spares (fun _ _ _ _ made => made) ran
  | edOpen i text =>
      cases next
      refine tended.opened (ready.resolve_left fun wrong => wrong) ?_ ran
      intro role free k writes
      simp only [Work.after]
      split
      · exact .inl trivial
      · exact .inr writes
  | cpOpen source i =>
      cases next
      refine tended.opened (ready.resolve_left fun wrong => wrong) ?_ ran
      intro role free k writes
      simp only [Work.after]
      split
      · exact .inl trivial
      · exact .inr writes
  | edWrite text =>
      have writes : h.Writes role free p := ready.resolve_left fun wrong => wrong
      cases text with
      | nil =>
          cases next
          exact tended.closed writes (fun _ _ => .inl trivial) ran
      | cons x rest =>
          cases next
          exact tended.wrote writes (fun _ _ _ open_ _ => open_) ran
  | cpSource source =>
      cases next
      exact tended.sourceOpened (ready.resolve_left fun wrong => wrong) ran
  | cpRead =>
      cases next
      obtain ⟨writes,source⟩ := ready.resolve_left fun wrong => wrong
      exact tended.sourceRead writes source ran
  | cpWrite x =>
      cases next
      obtain ⟨writes,source⟩ := ready.resolve_left fun wrong => wrong
      exact tended.wrote writes (fun _ _ _ open_ stays => ⟨open_,stays source⟩) ran
  | cpClose =>
      cases next
      obtain ⟨writes,source⟩ := ready.resolve_left fun wrong => wrong
      exact tended.closed writes
        (fun _ kept => .inr ⟨rfl,source.after kept (Function.update_of_ne (by simp) _ _) _⟩) ran
  | idle => cases next
  | _ => rcases ready with wrong | wrong <;> cases wrong

-- Without a volume a lookup finds nothing, or stops the program.
theorem Unmounted.walks (unmounted : Unmounted s) (i : Word) (path : List Byte) :
    Runs (pathLoop i path) s (fun r t => r = i ∧ t = s) (fun _ _ => True) := by
  induction i, path using pathLoop.induct with
  | case1 i =>
      rw [pathLoop]
      exact ⟨rfl,rfl⟩
  | case2 i rest ih =>
      rw [pathLoop,if_pos rfl]
      exact ih
  | case3 i c rest other _ =>
      rw [pathLoop,if_neg other]
      unfold inumberOfBasename readInode readBloc ncylOfNbloc
      simp only [runs_bind,runs_current,runs_get,runs_ensure]
      rw [if_neg unmounted.mbr]
      trivial

theorem Unmounted.lookup (unmounted : Unmounted s) (path : List Byte) :
    Runs (inumberOfPath path) s (fun r t => r = 0 ∧ t = s) (fun _ _ => True) := by
  unfold inumberOfPath
  split
  · exact ⟨rfl,rfl⟩
  · rw [runs_bind,runs_get,unmounted.root]
    exact unmounted.walks 0 path

theorem Unmounted.parent (unmounted : Unmounted s) (path : List Byte) :
    Runs (dinumberOfPath path) s (fun r t => r.1 = 0 ∧ t = s) (fun _ _ => True) := by
  unfold dinumberOfPath
  split
  · exact ⟨rfl,rfl⟩
  · rw [runs_bind]
    refine (unmounted.lookup _).mono ?_ (fun _ _ => id)
    intro r t none
    rw [if_pos none.1]
    exact ⟨rfl,none.2⟩

theorem Waiting.call (waiting : Waiting h) (next : (h.work p).call p = some c) (ran : c.run h h.machine = (.ok (r,descs),t)) :
    Waiting ⟨t,descs,Function.update h.work p ((h.work p).after p r)⟩ := by
  have unmounted := waiting.unmounted
  have again : ∀ {w : Work}, t = h.machine → w.Begins → Waiting ⟨t,descs,Function.update h.work p w⟩ := by
    intro w same begins
    subst same
    refine ⟨unmounted,fun q => ?_,waiting.place⟩
    dsimp only
    by_cases here : q = p
    · subst here
      rw [Function.update_self]
      exact begins
    · rw [Function.update_of_ne here]
      exact waiting.ready q
  have refused : ∀ {path : List Byte} {type : FileType}, (FileCall.createFile path type).run h h.machine = (.ok (r,descs),t) →
      r = returnFailure ∧ t = h.machine := by
    intro path type ran
    have creates : Runs ((FileCall.createFile path type).run h) h.machine (fun r t => r.1 = returnFailure ∧ t = h.machine)
        (fun _ _ => True) := by
      unfold FileCall.run createFile
      rw [runs_bind,runs_bind]
      refine (unmounted.parent path).mono ?_ (fun _ _ => id)
      intro r t none
      dsimp only
      rw [if_pos none.1]
      exact ⟨rfl,none.2⟩
    exact creates.result ran
  have ready := waiting.ready p
  generalize h.work p = w at next ready
  cases w with
  | once d =>
      cases next
      cases c with
      | createFile path type => exact again (refused ran).2 trivial
      | deleteFile path =>
          have deletes : Runs ((FileCall.deleteFile path).run h) h.machine (fun _ t => t = h.machine) (fun _ _ => True) := by
            unfold FileCall.run deleteFile
            rw [runs_bind,runs_bind]
            refine (unmounted.parent path).mono ?_ (fun _ _ => id)
            intro r t none
            dsimp only
            rw [if_pos none.1]
            exact none.2
          exact again (deletes.result ran) trivial
      | _ => cases ready
  | cd goal =>
      cases next
      have looks : Runs ((FileCall.inumberOfPath goal).run h) h.machine (fun r t => r.1 = 0 ∧ t = h.machine) (fun _ _ => True) := by
        unfold FileCall.run
        rw [runs_bind]
        exact (unmounted.lookup goal).mono (fun _ _ none => none) (fun _ _ => id)
      obtain ⟨none,same⟩ := looks.result ran
      have idle : (Work.cd goal).after p r = .idle := if_pos none
      rw [idle]
      exact again same trivial
  | ed goal text =>
      cases next
      obtain ⟨failed,same⟩ := refused ran
      have idle : (Work.ed goal text).after p r = .idle := if_pos failed
      rw [idle]
      exact again same trivial
  | cp source dest =>
      cases next
      obtain ⟨failed,same⟩ := refused ran
      have idle : (Work.cp source dest).after p r = .idle := if_pos failed
      rw [idle]
      exact again same trivial
  | idle => cases next
  | _ => cases ready

-- A mount leaves the disk as it was and makes the volume the current one.
theorem runs_mounts (volume : Word) (s : Machine) :
    Runs (mountVolume volume) s (fun _ t => Same (s.on volume) t) (fun _ _ => True) := by
  unfold mountVolume loadSuper
  rw [runs_bind,runs_eq (readMbr_exact s),runs_bind,runs_modify,runs_bind,runs_bind,runs_modify,runs_bind]
  refine ((calm_readBloc (o := {s.read with currentVolume := volume}) 0).runs (.refl _)).mono ?_ (fun _ _ _ => trivial)
  intro buf t read
  obtain ⟨⟨_,same⟩,_,master,head,journal,equal⟩ := read
  subst same equal
  rw [runs_bind,runs_modify,runs_bind,runs_get,runs_bind,runs_ensure]
  split
  · rw [runs_pure,runs_ensure,if_pos rfl]
    exact ⟨master,head,journal,rfl⟩
  · trivial

theorem CommandStep.upright {a : CommandAct} (upright : Upright h) (spares : a.Spares h) (taken : CommandStep h a k) : Upright k := by
  have place : Place h.machine.cwd := by
    rcases upright with waiting | ⟨_,_,tended⟩
    · exact waiting.place
    · exact tended.place
  cases taken with
  | @order p o work idle typed begun =>
      have begins := Order.begins place typed begun
      have source : ∀ {q}, q ≠ p → h.cleared p (.fd q) = h.descs (.fd q) ∧ h.cleared p (.sfd q) = h.descs (.sfd q) := by
        intro q other
        exact ⟨if_neg (by simp [other]),if_neg (by simp [other])⟩
      rcases upright with waiting | ⟨role,free,tended⟩
      · refine .inl ⟨waiting.unmounted,fun q => ?_,place⟩
        dsimp only
        by_cases here : q = p
        · subst here
          rw [Function.update_self]
          exact begins
        · rw [Function.update_of_ne here]
          exact waiting.ready q
      · have kept : Retains (fun _ => True) h.machine h.machine role role free free := (Same.refl _).keeps tended.ordered tended.backed
        exact .inr ⟨role,free,tended.step kept (fun _ other => source other) trivial (fun _ _ _ => trivial) (.inl begins)⟩
  | overruns _ _ long => exact absurd long spares
  | returns next ran =>
      rcases upright with waiting | ⟨role,free,tended⟩
      · exact .inl (waiting.call next ran)
      · exact .inr (tended.call next (spares _ next) ran)
  | @mount p volume t idle ran =>
      obtain ⟨calm,role,free,ordered,backed,browses⟩ := spares
      have same := (runs_mounts volume h.machine).result ran
      have kept : Retains (fun _ => True) (h.machine.on volume) t role role free free := same.keeps ordered backed
      have cwd : t.cwd = h.machine.cwd := same.cwd
      refine .inr ⟨role,free,kept.ordered,kept.backs.backed backed,fun q => .inl ?_,?_,?_⟩
      · dsimp only
        rw [calm q]
        trivial
      · dsimp only
        rw [cwd]
        exact place
      · dsimp only
        rw [cwd]
        exact kept.browses ordered.tree.toBrowsable trivial browses

theorem Upright.homed (upright : Upright h) : Homed h.machine := by
  rcases upright with waiting | ⟨role,free,tended⟩
  · exact waiting.place.homed fun mounted => absurd mounted.magic waiting.unmounted.mbr
  · exact tended.place.homed fun _ => ⟨tended.browses,tended.ordered.lookup _⟩

theorem Booted.upright (booted : Booted s) : Upright (bootDesk s) := by
  have place : Place s.cwd := by
    rw [booted.cwd]
    exact ⟨rfl,rfl,by decide,by decide⟩
  rcases booted.volume with unmounted | ⟨role,free,ordered,backed,dir⟩
  · exact .inl ⟨unmounted,fun _ => trivial,place⟩
  · refine .inr ⟨role,free,ordered,backed,fun _ => .inl trivial,place,?_⟩
    have root : s.resolve s.cwd = s.super.rootInumber := by
      rw [booted.cwd]
      rfl
    show s.Browses s.cwd
    unfold Machine.Browses
    rw [root]
    exact ⟨ordered.tree.root_real ordered.layout,dir⟩

-- Runs of the commands, in any order and side by side, from a boot on.
theorem workdir_valid {past : List (Desk × CommandAct)} (booted : Booted s) (run : Run CommandStep (bootDesk s) past h)
    (met : Met (fun h a => CommandAct.Spares h a) past) : Homed h.machine ∧ ∀ entry ∈ past, Homed entry.1.machine := by
  obtain ⟨last,passed⟩ := run.keeps (fun h a => CommandAct.Spares h a) (fun _ _ _ upright spares taken => taken.upright upright spares)
    booted.upright met
  exact ⟨last.homed,fun entry member => (passed entry member).homed⟩

-- A single process.
theorem CommandStep.first (typed : o.Typed s) (begun : o.start s = some w) :
    CommandStep (bootDesk s) (.order 0 o) (soleDesk s (fun _ => none) w) := by
  have step := CommandStep.order (h := bootDesk s) (p := 0) rfl typed begun
  have cleared : (bootDesk s).cleared 0 = fun _ => none := funext fun _ => ite_self none
  rw [cleared] at step
  exact step

theorem CommandStep.after {descs' : Var → Option FileDesc} (next : w.call 0 = some c)
    (ran : c.run (soleDesk s descs w) s = (.ok (r,descs'),t)) :
    CommandStep (soleDesk s descs w) (.call 0) (soleDesk t descs' (w.after 0 r)) := by
  have here : (soleDesk s descs w).work 0 = w := by simp [soleDesk]
  have step := CommandStep.returns (h := soleDesk s descs w) (p := 0) (by rw [here]; exact next) ran
  rw [here] at step
  dsimp only [soleDesk] at step ⊢
  rw [Function.update_idem] at step
  exact step

-- A cd that finds something.
theorem cd_goes {arguments goal : List Byte} {i : Word} (cwd : s.cwd = [slash]) (typed : 0 ∉ arguments)
    (begun : (canonicalPath [slash] arguments).bind closed = some goal) (found : inumberOfPath goal s = (.ok i,t)) (some : i ≠ 0) :
    Run CommandStep (bootDesk s) [(bootDesk s,.order 0 (.cd arguments)),(soleDesk s (fun _ => none) (.cd goal),.call 0),
      (soleDesk t (fun _ => none) (.once (.chdir goal)),.call 0)] (soleDesk {t with cwd := goal} (fun _ => none) .idle) := by
  have start : (Order.cd arguments).start s = .some (.cd goal) := by
    obtain ⟨target,ran,closing⟩ := Option.bind_eq_some_iff.mp begun
    show (canonicalPath s.cwd arguments).bind (fun target => (closed target).map Work.cd) = _
    rw [cwd,ran]
    exact congrArg (Option.map Work.cd) closing
  have first : CommandStep (bootDesk s) (.order 0 (.cd arguments)) _ := .first typed start
  have looked : (FileCall.inumberOfPath goal).run (soleDesk s (fun _ => none) (.cd goal)) s = (.ok (i,fun _ => none),t) := bind_ok found
  have second : CommandStep (soleDesk s (fun _ => none) (.cd goal)) (.call 0) _ := .after rfl looked
  have goes : (Work.cd goal).after 0 i = .once (.chdir goal) := if_neg some
  rw [goes] at second
  exact ((Run.single first).next second).next (.after rfl rfl)

theorem Fresh.booted (fresh : Fresh s) (cwd : s.cwd = [slash]) : Booted s := by
  refine ⟨cwd,.inr ⟨_,_,fresh.ordered,.inl fresh.synced,?_⟩⟩
  rw [fresh.root]
  exact fresh.directory

-- To the root of a new volume.
theorem workdir_valid_root : ∃ s t past, initSuper 0 0 (zeros 8 32) (recordedDisk (volumeOf 64)) = (.ok (),s) ∧ Mounted t ∧
    Run CommandStep (bootDesk s) past (soleDesk t (fun _ => none) .idle) ∧ Homed t := by
  obtain ⟨s,equal,fresh,_⟩ := volumeOf_fresh (n := 64) (by decide) (by decide) 0 (zeros 8 32)
  have cwd := volumeOf_cwd (n := 64) (by decide) (by decide) equal
  have root : s.resolve [slash] = 1 := by
    unfold Machine.resolve
    rw [if_pos (by decide),show components [slash] = [] by decide,Machine.walk,fresh.root]
  obtain ⟨_,t,looked,number,still⟩ := returns_iff.mp (runs_inumberOfPath fresh.layout fresh.browsable [slash])
  rw [root] at number
  subst number
  have run := cd_goes cwd (show 0 ∉ [slash] by decide) (by decide) looked (by decide)
  have met : Met (fun h a => CommandAct.Spares h a) ([] ++ [(bootDesk s,.order 0 (.cd [slash]))] ++
      [(soleDesk s (fun _ => none) (.cd [slash]),.call 0)] ++ [(soleDesk t (fun _ => none) (.once (.chdir [slash])),.call 0)]) := by
    refine met_snoc.mpr ⟨met_snoc.mpr ⟨met_snoc.mpr ⟨met_nil,?_⟩,?_⟩,?_⟩
    · show (canonicalPath s.cwd [slash]).bind (fun target => (closed target).map Work.cd) ≠ none
      rw [cwd]
      decide
    · intro c next
      cases next
      intro i found _
      have here : (inumberOfPath [slash] s).1 = .ok i := found
      rw [looked] at here
      cases here
      exact fresh.directory
    · intro c next
      cases next
      trivial
  have layout := (fresh.layout.same still.same).chdir [slash]
  exact ⟨s,_,_,equal,layout.mounted,run,(workdir_valid (fresh.booted cwd) run met).1⟩

-- A new volume with one file, and what its root holds.
theorem booted_file : ∃ s role free, Booted s ∧ Ordered s role free ∧ s.super.rootInumber = 1 ∧ s.IsDir 1 ∧ s.slots 1 = 1 ∧
    s.slotAt 1 0 = newcomer 2 [97] ∧ s.entryAt 2 0 = FileType.file.code ∧ s.resolve [slash,97,slash] = 2 := by
  have plain : (newcomer 2 (lastBasename [slash,97])).Plain := by
    unfold Entry.Plain
    decide
  have absolute : Absolute [slash,97] := by decide
  obtain ⟨z,s,equal,fresh,size,head,parent,_,_,made,typed⟩ := first_typed absolute (by decide) [97] (by decide) plain
  obtain ⟨root,dir,slots,slot⟩ := first_entry fresh parent made
  have absent : z.resolve [slash,97] = 0 := by
    unfold Machine.resolve
    rw [if_pos absolute,show components [slash,97] = [[97]] by decide,Machine.walk,fresh.root,fresh.step,if_pos rfl]
  have ordered := fresh.ordered
  rw [size] at ordered
  obtain ⟨m,role,free,spares,edited,sound⟩ := made
  obtain ⟨after,found,_⟩ := ordered.grown (by decide) (by rw [parent]; decide) absent (by decide) spares edited sound
  have cwd : s.cwd = [slash] := by
    rw [edited.within.cwd,spares.within.cwd]
    exact volumeOf_cwd (n := 64) (by decide) (by decide) equal
  have booted : Booted s := ⟨cwd,.inr ⟨role,free,after,.inl (sound.synced fresh.synced),by rw [root]; exact dir⟩⟩
  rw [after.lookup,head] at found
  rw [head] at slot
  exact ⟨s,role,free,booted,after,root,dir,slots,slot,typed,Except.ok.inj found⟩

-- A file is found with a '/' behind it too, and becomes the working directory.
theorem workdir_file : ∃ s past h, Booted s ∧ Run CommandStep (bootDesk s) past h ∧
    past.map Prod.snd = [.order 0 (.cd [97]),.call 0,.call 0] ∧ ¬ Homed h.machine := by
  obtain ⟨s,role,free,booted,after,_,_,_,_,typed,there⟩ := booted_file
  obtain ⟨_,t,looked,number,still⟩ := returns_iff.mp (runs_inumberOfPath after.layout after.tree.toBrowsable [slash,97,slash])
  rw [there] at number
  subst number
  refine ⟨s,_,_,booted,cd_goes booted.cwd (show 0 ∉ [97] by decide) (by decide) looked (by decide),rfl,fun homed => ?_⟩
  have layout := (after.layout.same still.same).chdir [slash,97,slash]
  obtain ⟨i,here,_,wrong⟩ := homed.leads layout.mounted
  have ends : (inumberOfPath [slash,97,slash] {t with cwd := [slash,97,slash]}).1 = .ok 2 := by
    rw [((after.still still).chdir [slash,97,slash]).lookup,chdir_resolve,still.same.resolve,there]
  have same := ends.symm.trans here
  cases same
  have type : t.entryAt 2 0 = FileType.directory.code := wrong
  rw [still.same.entryAt,typed] at type
  exact absurd type (by decide)

end AsePlusPlus
