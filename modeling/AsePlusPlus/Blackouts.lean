import AsePlusPlus.Mounting
import AsePlusPlus.Salvage

namespace AsePlusPlus
open Words Program Trace Resumption

variable {role : Nat → Role} {free : List Nat} {s t w m : Machine} {arguments path : List Byte} {reads : Nat} {v volume : Word}
variable {found : Store.Files (List Byte) (List Byte) → Prop} {c : Builtin} {task rest : S Output}

-- The slot of a new entry lies in one bloc, or behind the entries.
def Snugly (s : Machine) (arguments : List Byte) : Prop := ∀ path, canonicalPath s.cwd arguments = some path →
  Rejected path s ∨ s.Snug (s.parent path).toNat (s.vacancy (s.parent path).toNat)

def Builtin.Snug (s : Machine) : Builtin → Prop
  | .compute _ (some path) => Snugly s path
  | .cp (_ :: dest :: _) => Snugly s dest
  | .ed arguments _ => Snugly s arguments
  | .mkdir arguments => Snugly s arguments
  | _ => True

-- What may be found where the power goes during a command.
def Builtin.Leaves (s : Machine) (c : Builtin) : Store.Files (List Byte) (List Byte) → Prop :=
  Store.Remains Broken s.session (c.act s.session.here)

theorem Settles.salvaged {act : Store.Act (List Byte) (List Byte)} {reply : Store.Reply (List Byte) (List Byte)}
    (settles : Settles s t act reply) : Salvaged s t (Store.Remains Broken s.session act) := by
  have same := settles.synced.cut
  refine ⟨by rw [same]; exact settles.ordered,by rw [same]; exact settles.framed,.whole ?_⟩
  rw [same,settles.answer]
  rfl

theorem Snugly.slot (snug : Snugly s arguments) (ordered : Ordered s role free) (addressed : Pathname path)
    (canonical : canonicalPath s.cwd arguments = some path) (vacant : Store.Vacant s.files (components path)) :
    s.Snug (s.parent path).toNat (s.vacancy (s.parent path).toNat) :=
  (snug path canonical).resolve_left fun rejected => (ordered.rejected_vacant addressed).mp rejected vacant

section watching
variable (tidied : Tidied s) {Q : Output → Prop} (watches : Watches s task Q)
include tidied watches

theorem throughout_looks : task.Throughout Access.perform (fun w => Salvaged s w (c.Leaves s)) s fun _ w => Salvaged s w (c.Leaves s) := by
  obtain ⟨⟨role,free,ordered⟩,synced,_⟩ := tidied
  have here : Salvaged s s (c.Leaves s) := synced.salvaged ordered (.refl s) (.nothing rfl)
  have blind := salvaged_blind s (c.Leaves s)
  exact (Stepwise.throughout_watches watches blind here).mono fun _ u post => blind _ _ post.2.level here

end watching

theorem watches_cd (begun : (Builtin.cd arguments).task reads s = some task) : Watches s task (fun _ => True) := by
  obtain ⟨command,first,rfl⟩ := Option.map_eq_some_iff.mp begun
  unfold Stepwise.doCd at first
  cases canonical : canonicalPath s.cwd arguments with
  | none =>
      rw [canonical] at first
      cases first
  | some path =>
      rw [canonical] at first
      replace first : (closed path).bind _ = some command := first
      cases closing : closed path with
      | none =>
          rw [closing] at first
          cases first
      | some target =>
          rw [closing] at first
          cases first
          exact Task.constant_bind (Stepwise.watches_inumberOfPath target) fun _ _ => Task.constant_pure trivial

-- A new file is found as a whole, or with its first byte at most, or not at all.
theorem leaves_made {text left : List Byte} (vacant : Store.Vacant s.files (components path))
    (meant : c.act s.session.here = .make (components path) (.file text)) (broken : Broken left text) :
    c.Leaves s (Store.write s.files (components path) (.file left)) := by
  refine .part vacant ?_ broken rfl
  rw [meant]
  exact congrArg (fun post => post.2.files) (Store.respond_make (k := s.session) vacant _)

theorem leaves_copied {source : List (List Byte)} (vacant : Store.Vacant s.files (components path))
    (meant : c.act s.session.here = .copy source (components path) [0]) : c.Leaves s (Store.write s.files (components path) (.file [0])) := by
  cases there : s.session.dataAt source with
  | none =>
      refine .whole ?_
      rw [meant]
      exact (congrArg (fun post => post.2.files) (Store.respond_blank (k := s.session) vacant there [0])).symm
  | some data =>
      have whole : (s.session.respond (c.act s.session.here)).2.files = Store.write s.files (components path) (.file data) := by
        rw [meant]
        exact congrArg (fun post => post.2.files) (Store.respond_copy (k := s.session) vacant there [0])
      exact .part vacant whole (.inl rfl) rfl

theorem leaves_copying {source : List (List Byte)} {left data : List Byte} (vacant : Store.Vacant s.files (components path))
    (meant : c.act s.session.here = .copy source (components path) [0]) (there : s.session.dataAt source = some data)
    (some : Broken left data ∨ left = data) : c.Leaves s (Store.write s.files (components path) (.file left)) := by
  have whole : (s.session.respond (c.act s.session.here)).2.files = Store.write s.files (components path) (.file data) := by
    rw [meant]
    exact congrArg (fun post => post.2.files) (Store.respond_copy (k := s.session) vacant there [0])
  rcases some with broken | rfl
  · exact .part vacant whole broken rfl
  · exact .whole whole.symm

section made
variable (tidied : Tidied s)
include tidied

theorem throughout_compute {max : Int} (fits : (Builtin.compute max (some arguments)).Fits s)
    (snug : (Builtin.compute max (some arguments)).Snug s) (begun : (Builtin.compute max (some arguments)).task reads s = some task) :
    task.Throughout Access.perform (fun w => Salvaged s w ((Builtin.compute max (some arguments)).Leaves s)) s fun _ _ => True := by
  obtain ⟨⟨role,free,ordered⟩,synced,lodged⟩ := tidied
  obtain ⟨command,first,rfl⟩ := Option.map_eq_some_iff.mp begun
  obtain ⟨plain,path,canonical,accepted,roomy⟩ := fits
  have here := lodged.located plain canonical
  rw [Stepwise.doCompute,canonical] at first
  cases first
  have vacant := not_not.mp ((not_congr (ordered.rejected_vacant here.toPathname)).mp accepted)
  have meant : (Builtin.compute max (some arguments)).act s.session.here =
      .make (components path) (.file (stored (rows 0 (max+1).toNat))) := by
    rw [here.meant]
    rfl
  refine Task.Throughout.bind (Q := fun _ _ => True) ?_ fun _ _ _ => Task.throughout_pure trivial
  refine throughout_stores ordered synced here.toPathname here.plain (.nothing rfl) (Stepwise.rowLoop_eq (max+1).toNat 0)
    (fun _ => ⟨roomy,?_⟩) ?_ ?_ ?_
  · exact Snugly.slot snug ordered here.toPathname canonical vacant
  · exact fun left vacant broken => leaves_made vacant meant broken
  · exact fun occupied => absurd vacant occupied
  · exact fun _ _ => rfl

theorem throughout_cp {source dest : List Byte} {more : List (List Byte)} (fits : (Builtin.cp (source :: dest :: more)).Fits s)
    (snug : (Builtin.cp (source :: dest :: more)).Snug s) (begun : (Builtin.cp (source :: dest :: more)).task reads s = some task) :
    task.Throughout Access.perform (fun w => Salvaged s w ((Builtin.cp (source :: dest :: more)).Leaves s)) s fun _ _ => True := by
  obtain ⟨⟨role,free,ordered⟩,synced,lodged⟩ := tidied
  obtain ⟨command,first,rfl⟩ := Option.map_eq_some_iff.mp begun
  obtain ⟨plain,source',canonical,plain',dest',canonical',fits⟩ := fits
  have here := lodged.located plain canonical
  have here' := lodged.located plain' canonical'
  have paths : cpPaths s (source :: dest :: more) = some (source',dest') := by
    rw [cpPaths,canonical,canonical']
    rfl
  unfold Stepwise.doCp at first
  rw [if_neg (List.cons_ne_nil _ _),paths] at first
  cases first
  have meant : (Builtin.cp (source :: dest :: more)).act s.session.here = .copy (components source') (components dest') [0] := by
    rw [here.meant,here'.meant]
    rfl
  refine Task.Throughout.bind (Q := fun _ _ => True) ?_ fun _ _ _ => Task.throughout_pure trivial
  refine throughout_copies ordered synced here'.toPathname here'.plain (.nothing rfl) here.toPathname fits ?_ ?_ ?_
  · exact fun vacant => Snugly.slot snug ordered here'.toPathname canonical' vacant
  · exact fun vacant => leaves_copied vacant meant
  · exact fun left data vacant there some => leaves_copying vacant meant there some

theorem throughout_ed {text : List Byte} (fits : (Builtin.ed arguments text).Fits s) (snug : (Builtin.ed arguments text).Snug s)
    (begun : (Builtin.ed arguments text).task reads s = some task) :
    task.Throughout Access.perform (fun w => Salvaged s w ((Builtin.ed arguments text).Leaves s)) s fun _ _ => True := by
  obtain ⟨⟨role,free,ordered⟩,synced,lodged⟩ := tidied
  obtain ⟨command,first,rfl⟩ := Option.map_eq_some_iff.mp begun
  obtain ⟨plain,path,canonical,fits⟩ := fits
  have here := lodged.located plain canonical
  rw [Stepwise.doEd,canonical] at first
  cases first
  refine Task.Throughout.bind (Q := fun _ _ => True) ?_ fun _ _ _ => Task.throughout_pure trivial
  have meant : (Builtin.ed arguments text).act s.session.here = .make (components path) (.file (stored text)) := by
    rw [here.meant]
    rfl
  have same : ∀ fd, Stepwise.textLoop text fd = Stepwise.textLoop text fd := fun _ => rfl
  refine throughout_stores ordered synced here.toPathname here.plain (.nothing rfl) same (fun vacant => ⟨?_,?_⟩) ?_ ?_ ?_
  · exact fits.resolve_left fun rejected => (ordered.rejected_vacant here.toPathname).mp rejected vacant
  · exact Snugly.slot snug ordered here.toPathname canonical vacant
  · exact fun left vacant broken => leaves_made vacant meant broken
  · exact fun _ => ⟨1,if_pos rfl⟩
  · exact fun inumber real => if_neg real

theorem throughout_mkdir (fits : (Builtin.mkdir arguments).Fits s) (snug : (Builtin.mkdir arguments).Snug s)
    (begun : (Builtin.mkdir arguments).task reads s = some task) :
    task.Throughout Access.perform (fun w => Salvaged s w ((Builtin.mkdir arguments).Leaves s)) s fun _ _ => True := by
  obtain ⟨⟨role,free,ordered⟩,synced,lodged⟩ := tidied
  obtain ⟨target,canonical,rfl⟩ := Option.map_eq_some_iff.mp begun
  obtain ⟨plain,path,canonical',fits⟩ := fits
  rw [canonical] at canonical'
  cases canonical'
  have here := lodged.located plain canonical
  refine Task.Throughout.bind (Q := fun _ _ => True) ?_ fun _ _ _ => Task.throughout_pure trivial
  refine throughout_createFile (n := 0) ordered synced here.toPathname here.plain .directory (fun vacant => ⟨?_,?_⟩) (.nothing rfl)
    fun vacant => .whole ?_
  · exact fits.resolve_left fun rejected => (ordered.rejected_vacant here.toPathname).mp rejected vacant
  · exact Snugly.slot snug ordered here.toPathname canonical vacant
  · have meant : (Builtin.mkdir arguments).act s.session.here = .make (components target) .directory := by
      rw [here.meant]
      rfl
    rw [meant]
    exact (congrArg (fun post => post.2.files) (Store.respond_make (k := s.session) vacant _)).symm

theorem throughout_rm (fits : (Builtin.rm arguments).Fits s) (begun : (Builtin.rm arguments).task reads s = some task) :
    task.Throughout Access.perform (fun w => Salvaged s w ((Builtin.rm arguments).Leaves s)) s fun _ _ => True := by
  obtain ⟨⟨role,free,ordered⟩,synced,lodged⟩ := tidied
  obtain ⟨target,canonical,rfl⟩ := Option.map_eq_some_iff.mp begun
  obtain ⟨plain,path,canonical',fits⟩ := fits
  rw [canonical] at canonical'
  cases canonical'
  have here := lodged.located plain canonical
  refine Task.Throughout.bind (Q := fun _ _ => True) ?_ fun _ _ _ => Task.throughout_pure trivial
  have below : components target ≠ [] := fun top => fits (here.top top)
  have meant : (Builtin.rm arguments).act s.session.here = .remove (components target) := by
    rw [here.meant]
    rfl
  by_cases there : s.files (components target) = none
  · refine throughout_deleteFile ordered synced here.toPathname below (.nothing rfl) (.nothing ?_)
    rw [files_text here.absolute,nodeAt_none] at there
    exact ordered.erase_missing here.absolute there
  · refine throughout_deleteFile ordered synced here.toPathname below (.nothing rfl) (.whole ?_)
    rw [meant]
    exact (congrArg (fun post => post.2.files) (Store.respond_remove (k := s.session) below there)).symm

theorem Builtin.throughout_made (fits : c.Fits s) (snug : c.Snug s) (begun : c.task reads s = some task) :
    task.Throughout Access.perform (fun w => Salvaged s w (c.Leaves s)) s fun _ _ => True := by
  cases c with
  | cat arguments =>
      have begun' : (Builtin.cat arguments).glance reads s = some task := begun
      exact (throughout_looks tidied (Builtin.watches tidied fits begun')).mono fun _ _ _ => trivial
  | ls arguments =>
      have begun' : (Builtin.ls arguments).glance reads s = some task := begun
      exact (throughout_looks tidied (Builtin.watches tidied fits begun')).mono fun _ _ _ => trivial
  | cd arguments => exact (throughout_looks tidied (watches_cd begun)).mono fun _ _ _ => trivial
  | compute max path =>
      obtain ⟨command,first,rfl⟩ := Option.map_eq_some_iff.mp begun
      cases path with
      | none =>
          cases first
          exact Task.throughout_pure trivial
      | some arguments => exact throughout_compute tidied fits snug begun
  | cp words =>
      cases words with
      | nil => exact fits.elim
      | cons source more =>
          cases more with
          | nil => exact fits.elim
          | cons dest more => exact throughout_cp tidied fits snug begun
  | ed arguments text => exact throughout_ed tidied fits snug begun
  | mkdir arguments => exact throughout_mkdir tidied fits snug begun
  | rm arguments => exact throughout_rm tidied fits begun

end made

theorem Builtin.throughout (tidied : Tidied s) (fits : c.Fits s) (snug : c.Snug s) (begun : c.task reads s = some task) :
    task.Throughout Access.perform (fun w => Salvaged s w (c.Leaves s)) s fun _ w => Salvaged s w (c.Leaves s) := by
  rcases task_run begun with whole | ⟨arguments,rfl⟩
  · obtain ⟨n,answers⟩ := c.answers tidied fits
    obtain ⟨p,begun',runs⟩ := answers reads
    rw [whole] at begun'
    cases begun'
    refine ((c.throughout_made tidied fits snug begun).ends runs).mono fun r u post => ?_
    obtain ⟨_,reply,settles,_⟩ := post
    exact settles.salvaged
  · exact throughout_looks tidied (watches_cd begun)

-- Episodes of a disk: a command, a mount, a new process or a formatting that comes to
-- its end, or a command during which the power goes, with the volume that the next
-- shell mounts.
inductive Episode where
  | call (call : DiskCall)
  | cut (c : Builtin) (volume : Word)

def Episode.Fits (known : Word → Prop) (s : Machine) : Episode → Prop
  | .call d => d.Fits known s
  | .cut c volume => c.Fits s ∧ c.Snug s ∧ known volume ∧ Usable s volume

variable {known : Word → Prop} {h : DiskShelf}

-- The disk behind the power cut.
theorem Working.salvaged (working : Working known s h) (salvaged : Salvaged s w found) (mounted : Word) (here : List (List Byte)) :
    Racked known w.cut ⟨Store.replace h.volumes h.mounted w.cut.files,mounted,here⟩ ∧ ∀ v, known v → Usable s v → Usable w.cut v := by
  have same := working.here_same
  have start : (s.on s.currentVolume).start = s.start := same.within.start
  have nsec : (s.on s.currentVolume).nsec = s.nsec := same.within.nsec
  obtain ⟨⟨role,free,ordered⟩,framed,_⟩ := salvaged
  have outside : ∀ p, p < (s.on s.currentVolume).start ∨ (s.on s.currentVolume).start + (s.on s.currentVolume).nsec ≤ p →
      w.cut.hda.sectors p = s.hda.sectors p := by
    rw [start,nsec]
    exact framed.outside
  have table := recorded_same (outside 0 (.inl (working.behind _ working.current)))
  have same' : Same w.cut (w.cut.on s.currentVolume) := by
    rw [← framed.volume]
    refine on_same ?_ (cut_synced w) ordered.layout.mounted.fits
    rw [table,framed.mbr]
    exact working.table.symm
  rw [working.mounted]
  exact working.changed working.current mounted here outside ⟨role,free,same'.ordered (cut_synced w) ordered⟩ same'.files

end AsePlusPlus
