import AsePlusPlus.Outage

namespace AsePlusPlus
open Words Program Resumption

variable {role role' role'' : Nat → Role} {free free' free'' rest : List Nat} {o s t u v w : Machine} {fd : FileDesc}
variable {b d f k p q : Nat} {path name : List Byte} {idir inumber i : Word} {I : Machine → Prop} {buf : Vector Byte 20}
variable {type : FileType} {found : Store.Files (List Byte) (List Byte) → Prop}

namespace Stepwise
open Task

theorem watches_newEntryLoop (fuel : Nat) (idle : Idle o fd) (entry : Vector Byte 20) (ientry : Word) :
    Watches o (newEntryLoop fuel fd entry ientry) (fun r => Idle o r.2) := by
  induction fuel generalizing fd entry ientry with
  | zero => exact constant_halt _
  | succ fuel ih =>
      refine constant_bind (watches_readIfile idle entry) fun r next => ?_
      exact constant_ite (fun _ => constant_pure next) fun _ => constant_ite (fun _ => constant_pure next) fun _ => ih next _ _

theorem watches_newEntry (idle : Idle o fd) : Watches o (newEntry fd) (fun r => Idle o r.2) :=
  constant_bind watches_frame fun _ _ => constant_bind (watches_seek2Ifile idle 0) fun _ moved =>
    watches_newEntryLoop scanFuel moved _ 0

theorem watches_dinumberOfPath (path : List Byte) : Watches o (dinumberOfPath path) (fun _ => True) := by
  refine constant_ite (fun _ => constant_pure trivial) fun _ => constant_bind (watches_inumberOfPath _) fun _ _ => ?_
  exact constant_ite (fun _ => constant_pure trivial) fun _ => constant_bind (watches_readInode _) fun _ _ => constant_pure trivial

-- A task that changes nothing, and what it is known to return.
theorem throughout_still {task : S α} {Q : α → Prop} {R : α → Machine → Prop} {E : Stop → Machine → Prop} (watches : Watches o task Q)
    (blind : Blind I) (here : I o) (same : Same o t) (runs : Runs (task.run Access.perform) t R E) :
    task.Throughout Access.perform I t fun a u => Q a ∧ Same o u ∧ R a u :=
  ((watches.throughout same fun _ after => blind _ _ after.level here).ends runs).mono fun _ _ post => ⟨post.1.1,post.1.2,post.2⟩

end Stepwise

-- A descriptor that stands on a slot, before the entry is written.
theorem Scan.inked (scan : Scan o t role role free free (o.byteAt d) (o.slots d) k fd) (file : fd.file = d) (room : k < 3174)
    (still : Still o t) (synced : Synced o) (enough : o.lacks d k ≤ free.length) (buf : Vector Byte 20) :
    Inked d o t role role free free fd (20*k) [] buf.toList := by
  have position := scan.position
  have length : buf.toList.length = 20 := Vector.length_toList
  have block : fd.block = 20*k/512 := by
    unfold FileDesc.block
    rw [position]
  refine ⟨file,scan.toWriting,position,?_,?_,still.same.synced synced,fun q => ?_,still.sound⟩
  · rw [length,List.length_nil]
    omega
  · refine Nat.le_trans ?_ enough
    have price := price_direct t scan.clean (by omega)
    unfold Machine.lacks
    rw [length,holes_succ]
    unfold FileDesc.cost
    rw [if_neg (by decide),price,file,block,position,still.same.lookup,show 20*k+20-1 = 20*k+19 by omega]
    exact Nat.add_le_add_left (holes_mono (fun g live => by rw [still.same.lookup]; exact live) _ _) _
  · rw [still.same.byteAt]
    split
    · rename_i early
      rw [List.length_nil] at early
      exact (splice_before _ _ (by omega)).symm
    · rfl

-- An entry is written and its directory closed.
theorem Inked.enters (inked : Inked d o t role role free free fd p [] buf.toList) (minds : Minds I d o role free p buf.toList) (f : Word → Word) :
    (do let (nbyte,fd) ← Stepwise.writeIfile fd buf; let _ ← Stepwise.closeIfile fd; return f nbyte).Throughout Access.perform I t
      fun _ _ => True := by
  have entered : (Stepwise.writeIfile fd buf).Throughout Access.perform I t fun r u =>
      ∃ role'' free'', Inked d o u role role'' free free'' r.2 p buf.toList [] := by
    unfold Stepwise.writeIfile
    refine (inked.chars minds).bind fun r u post => ?_
    obtain ⟨_,after⟩ := post
    exact Task.throughout_pure after
  refine entered.bind fun r u post => ?_
  obtain ⟨_,_,after⟩ := post
  exact (after.closes minds).bind fun _ _ _ => Task.throughout_pure trivial

section entry
variable (layout : Layout s role free) (ok : DirOk s idir.toNat) (node : role idir.toNat = .inode) (blind : Blind I) (here : I s)
include layout ok node blind here

-- add_entry and del_entry, up to where they look at the slots.
theorem throughout_entries {next : Word × FileDesc → S Word} (looks : ∀ r t,
      Scan s t role role free free (s.byteAt idir.toNat) (s.slots idir.toNat) 0 r.2 → Idle s r.2 → Quiet s t → r.2.file = idir.toNat →
      (next r).Throughout Access.perform I t fun _ _ => True) :
    (do
      let inode ← Stepwise.readInode idir
      if inode.type ≠ FileType.directory.code then
        return returnFailure
      else
        Stepwise.openIfile idir >>= next).Throughout Access.perform I s fun _ _ => True := by
  have inside := (layout.bound node (by simp)).2
  refine (Stepwise.throughout_still (E := fun _ _ => False) (R := fun _ u => u = s.load idir.toNat) (Stepwise.watches_readInode idir)
    blind here (.refl s) ?_).bind fun inode t post => ?_
  · rw [Stepwise.run_readInode,runs_readInode layout.mounted inside]
  obtain ⟨_,same,rfl⟩ := post
  refine Task.throughout_ite (fun _ => Task.throughout_pure trivial) fun _ => ?_
  refine (Stepwise.throughout_still (Stepwise.watches_openIfile idir) blind here same (by
    rw [Stepwise.run_openIfile]
    exact Scan.opened layout (Quiet.load s _) node ok.size ok.slotted)).bind fun r t post => ?_
  obtain ⟨idle,_,scan,quiet,number⟩ := post
  exact looks r t scan idle quiet (congrArg BitVec.toNat number)

theorem throughout_addEntry (synced : Synced s) (room : s.vacancy idir.toNat < 3174)
    (enough : s.lacks idir.toNat (s.vacancy idir.toNat) ≤ free.length)
    (minds : Minds I idir.toNat s role free (20*s.vacancy idir.toNat) (newcomer inumber name).encode.toList) :
    (Stepwise.addEntry idir inumber name).Throughout Access.perform I s fun _ _ => True := by
  have few := ok.slotted.few
  unfold Stepwise.addEntry
  refine throughout_entries layout ok node blind here fun r t scan idle quiet file => ?_
  obtain ⟨_,fd⟩ := r
  dsimp only at scan idle file ⊢
  refine (Stepwise.throughout_still (Stepwise.watches_newEntry idle) blind here quiet.same (by
    rw [Stepwise.run_newEntry]
    exact scan.vacant)).bind fun r u post => ?_
  obtain ⟨ientry,fd1⟩ := r
  obtain ⟨idle,same,n,first,found,quiet1,value,number1⟩ := post
  dsimp only at idle found value number1 ⊢
  have vacancy : s.vacancy idir.toNat = n := vacancy_first first
  have high := first.high
  have encoded : Entry.encode ⟨inumber,entryName name⟩ = (newcomer inumber name).encode := rfl
  generalize Entry.encode ⟨inumber,entryName name⟩ = buf at encoded ⊢
  rw [← encoded,vacancy] at minds
  rw [vacancy] at room enough
  refine (Stepwise.throughout_still (Stepwise.watches_seek2Ifile idle (ientry*20)) blind here same (by
    rw [Stepwise.seek2Ifile,Stepwise.run_seekIfile]
    exact found.seek2 (index_scaled value (by omega)) high)).bind fun fd2 v post => ?_
  obtain ⟨_,_,back,quiet2,number2⟩ := post
  have file2 : fd2.file = idir.toNat := (congrArg BitVec.toNat (number2.trans number1)).trans file
  have still := quiet.still.trans (quiet1.still.trans quiet2.still)
  exact (back.inked file2 room still synced enough buf).enters minds fun nbyte => if nbyte = 20 then returnSuccess else returnFailure

theorem throughout_delEntry (synced : Synced s)
    (minds : ∀ k, First (Entry.names name) (s.byteAt idir.toNat) 0 (s.slots idir.toNat) k → k < s.slots idir.toNat →
      Minds I idir.toNat s role free (20*k) (zeros 8 20).toList) :
    (Stepwise.delEntry idir name).Throughout Access.perform I s fun _ _ => True := by
  have few := ok.slotted.few
  unfold Stepwise.delEntry
  refine throughout_entries layout ok node blind here fun r t scan idle quiet file => ?_
  obtain ⟨_,fd⟩ := r
  dsimp only at scan idle file ⊢
  refine (Stepwise.throughout_still (Stepwise.watches_findEntry idle name) blind here quiet.same (by
    rw [Stepwise.run_findEntry]
    exact scan.find name)).bind fun r u post => ?_
  obtain ⟨status,fd1⟩ := r
  obtain ⟨idle,same,n,first,found,quiet1,value,number1⟩ := post
  dsimp only at idle found value number1 ⊢
  by_cases present : n < s.slots idir.toNat
  swap
  · rw [if_neg present] at value
    rw [if_pos value]
    exact ((Stepwise.watches_closeIfile idle).throughout same fun _ after => blind _ _ after.level here).bind fun _ _ _ =>
      Task.throughout_pure trivial
  rw [if_pos present] at value found
  rw [if_neg (index_ne_failure value (by omega))]
  refine (Stepwise.throughout_still (Stepwise.watches_seek2Ifile idle (status*20)) blind here same (by
    rw [Stepwise.seek2Ifile,Stepwise.run_seekIfile]
    exact found.seek2 (index_scaled value (by omega)) (Nat.le_of_lt present))).bind fun fd2 v post => ?_
  obtain ⟨_,_,back,quiet2,number2⟩ := post
  have file2 : fd2.file = idir.toNat := (congrArg BitVec.toNat (number2.trans number1)).trans file
  have still := quiet.still.trans (quiet1.still.trans quiet2.still)
  refine (back.inked file2 (by omega) still synced ?_ _).enters (minds n first present) fun status => status
  rw [lacks_mapped ok present]
  exact Nat.zero_le _

end entry

-- create_inode takes a bloc and writes the inode to it.
theorem throughout_createIfile (layout : Layout u role (b :: rest)) (blind : Blind I) (here : I u) (taken : ∀ x, I (u.claimed x)) (type : FileType) :
    (Stepwise.createIfile type).Throughout Access.perform I u fun r w =>
      r = u.super.premierLibre ∧ w = u.claimed (Inode.fresh type).encode := by
  have live := layout.chain.head_ne
  refine (Task.Throughout.ends (Q := fun _ _ => True) ?_ (E := fun _ _ => False) ?_).mono fun _ _ post => post.2
  swap
  · rw [Stepwise.run_createIfile,runs_createIfile type layout]
    exact ⟨rfl,rfl⟩
  have written : (Stepwise.createInode type).Throughout Access.perform I u fun r _ => r = u.super.premierLibre := by
    unfold Stepwise.createInode
    refine (Stepwise.throughout_newBloc blind layout here).bind fun r w post => ?_
    obtain ⟨rfl,rfl⟩ := post
    rw [if_neg live]
    refine Task.Throughout.bind (Q := fun _ _ => True) ?_ fun _ _ _ => Task.throughout_pure rfl
    exact (Stepwise.ends_writeInode _ _).throughout (blind _ _ layout.took_level (taken _)) blind.closed
  refine written.bind fun r w post => ?_
  subst post
  unfold Task.ensure
  rw [if_pos live]
  exact Task.throughout_pure trivial

-- A slot that is added at the end of its directory, or that lies in one bloc.
def Machine.Snug (s : Machine) (d k : Nat) : Prop := k = s.slots d ∨ 20*k/512 = (20*k+19)/512

-- Where the power goes while a file is made, it is there and empty, or it is not.
theorem throughout_createFile {n : Nat} (ordered : Ordered s role free) (synced : Synced s) (addressed : Pathname path) (text : 0 ∉ path)
    (type : FileType) (roomy : Store.Vacant s.files (components path) →
      Roomy s path n ∧ s.Snug (s.parent path).toNat (s.vacancy (s.parent path).toNat)) (old : found s.files)
    (grown : Store.Vacant s.files (components path) → found (Store.write s.files (components path) type.newborn)) :
    (Stepwise.createFile path type).Throughout Access.perform (fun w => Salvaged s w found) s fun _ _ => True := by
  have layout := ordered.layout
  have browsable := ordered.tree.toBrowsable
  have blind := salvaged_blind s found
  have here : Salvaged s s found := synced.salvaged ordered (.refl s) old
  unfold Stepwise.createFile
  refine (Stepwise.throughout_still (Stepwise.watches_dinumberOfPath path) blind here (.refl s) (by
    rw [Stepwise.run_dinumberOfPath]
    exact runs_dinumberOfPath layout browsable)).bind fun r t post => ?_
  obtain ⟨idir,basename⟩ := r
  obtain ⟨_,_,rfl,last,still⟩ := post
  dsimp only at last ⊢
  refine Task.throughout_ite (fun _ => Task.throughout_pure trivial) fun parent => ?_
  rw [last addressed.absolute]
  refine (Stepwise.throughout_still (Stepwise.watches_inumberOfPath path) blind here still.same (by
    rw [Stepwise.run_inumberOfPath]
    exact runs_inumberOfPath (layout.same still.same) (browsable.same still.same) path)).bind fun i u post => ?_
  obtain ⟨_,_,rfl,still'⟩ := post
  refine Task.throughout_ite (fun _ => Task.throughout_pure trivial) fun new => ?_
  have both := still.trans still'
  replace new : s.resolve path = 0 := by
    rw [still.same.resolve] at new
    exact not_not.mp new
  have vacant := (ordered.vacant_iff addressed).mpr ⟨parent,new⟩
  obtain ⟨room,snug⟩ := roomy vacant
  obtain ⟨b,rest,rfl,enough⟩ := room.chain layout
  have unused : role b ≠ .inode := by
    rw [(layout.vacant b).mpr (by simp)]
    exact fun wrong => by cases wrong
  have layout' := layout.same both.same
  have taken : ∀ x, Salvaged s (u.claimed x) found := by
    intro x
    refine (layout'.claimed_veiled x b).salvaged (both.same.ordered synced ordered) (.inl unused) both.same.within
      (claimed_synced u x layout'.chain.head_ne) ?_
    rw [both.same.files]
    exact old
  refine (throughout_createIfile layout' blind (blind _ _ both.same.level here) taken type).bind fun r m' post => ?_
  obtain ⟨rfl,rfl⟩ := post
  refine Task.throughout_ite (fun _ => Task.throughout_pure trivial) fun _ => ?_
  refine Task.Throughout.bind (Q := fun _ _ => True) ?_ fun r _ _ =>
    Task.throughout_ite (fun _ => Task.throughout_pure trivial) fun _ => Task.throughout_pure trivial
  obtain ⟨node,dir,_⟩ := parent_dir browsable parent
  have borne := both.borne layout type node
  have laid := both.laid layout type (s.parent path).toNat
  have vacancy := borne.spares.vacancy node dir
  have slots := borne.spares.slots node dir
  have files : (u.claimed (Inode.fresh type).encode).files = s.files := by
    refine ((layout'.claimed_veiled _ b).files (both.same.ordered synced ordered) (.inl unused)).trans both.same.files
  have here' := taken (Inode.fresh type).encode
  have settled := claimed_synced u (Inode.fresh type).encode layout'.chain.head_ne
  generalize u.claimed (Inode.fresh type).encode = m at *
  have ordered' := (ordered.spares borne.spares (.inl settled)).1
  have node' := borne.spares.node node
  have dir' := (borne.spares.isDir node).mpr dir
  have ok := ordered'.tree.dirs _ node' dir'
  have head : u.super.premierLibre = s.super.premierLibre := by rw [both.same.super]
  rw [head]
  refine throughout_addEntry ordered'.layout ok node' blind here' settled (by rw [vacancy]; exact room.slot)
    (by rw [vacancy,borne.lacks]; omega) ?_
  refine minds_slot ok node' dir' (vacancy_le m _) blind (fun t role' free' veiled synced' => ?_)
    fun t role' free' n inside written inscribed sound synced' => ?_
  · refine veiled.salvaged ordered' (.inr dir') borne.sound.confined.toWithin synced' ?_
    rw [files]
    exact old
  · rw [vacancy] at inside written inscribed
    rw [slots] at inside
    rw [halved_whole (snug.resolve_left (by omega)) written] at inscribed
    have edited := inscribed.edited node' ok (by rw [slots]; omega) room.slot room.plain
    rw [Entry.decode_encode] at edited
    have made : Made s t role b rest path := ⟨m,role',free',borne.spares,edited,borne.sound.trans sound⟩
    obtain ⟨after,_,role'',free'',ordered''⟩ := made.files (laid.edited layout node edited) ordered text parent new room.short
    refine synced'.salvaged ordered'' (borne.sound.confined.toWithin.trans sound.confined.toWithin) ?_
    rw [after]
    exact grown vacant

end AsePlusPlus
