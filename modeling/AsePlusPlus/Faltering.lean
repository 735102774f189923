import AsePlusPlus.Lib.Throughout
import AsePlusPlus.Suspended
import AsePlusPlus.Veiled

namespace AsePlusPlus
open Words Program Resumption

variable {role role' role'' : Nat → Role} {free free' free'' : List Nat} {o s t u v w : Machine} {fd : FileDesc}
variable {b c f p q : Nat} {text done rest : List Byte} {content new : Nat → Byte} {I : Machine → Prop} {inumber : Word}

-- Accesses that leave alone what mounting the volume depends on.
def Access.Silent : Access → Prop
  | .volume | .super | .frame | .setSuper _ | .read _ _ _ => True
  | .mbr | .setVolume _ | .writeBloc _ _ _ | .writeNbloc _ _ _ _ => False

theorem reads_readNbloc (vol nbloc : Word) (size : Nat) : Reads (readNbloc vol nbloc size) := by
  refine reads_bind ?_ fun _ => reads_bind ?_ fun _ => reads_bind (quiet_graded.ensure _ _) fun _ => reads_bind ?_ fun _ =>
    reads_bind ?_ fun _ => reads_bind quiet_graded.get fun _ => quiet_graded.pure _
  · exact reads_bind quiet_graded.get fun _ => reads_bind (quiet_graded.ensure _ _) fun _ =>
      reads_bind (quiet_graded.ensure _ _) fun _ => quiet_graded.pure _
  · exact reads_bind quiet_graded.get fun _ => reads_bind (quiet_graded.ensure _ _) fun _ =>
      reads_bind (quiet_graded.ensure _ _) fun _ => quiet_graded.pure _
  · exact reads_bind (quiet_graded.ensure _ _) fun _ s => ⟨_,_,rfl⟩
  · exact fun s => ⟨_,_,rfl⟩

theorem Access.Silent.level {a : Access} {x : a.Answer} (silent : a.Silent) (did : a.perform s = (.ok x,t)) : Level s t := by
  cases a with
  | volume => exact (reads_current.result did).same.level
  | super =>
      cases did
      exact .refl _
  | frame =>
      cases did
      exact .refl _
  | setSuper f =>
      cases did
      exact ⟨rfl,rfl,rfl,rfl,rfl⟩
  | read vol nbloc size => exact ((reads_readNbloc vol nbloc size).result did).same.level
  | mbr => exact silent.elim
  | setVolume => exact silent.elim
  | writeBloc => exact silent.elim
  | writeNbloc => exact silent.elim

-- What holds wherever the power may go cannot tell such states apart.
def Blind (I : Machine → Prop) : Prop := ∀ s t, Level s t → I s → I t

theorem Blind.closed (blind : Blind I) : ∀ (a : Access) s x u, a.Silent → a.perform s = (.ok x,u) → I s → I u :=
  fun _ s _ u silent did => blind s u (silent.level did)

namespace Stepwise
open Task

theorem hushed_current : Hushed Access.Silent current := tame_request trivial

theorem hushed_super : Hushed Access.Silent super := tame_request trivial

theorem hushed_setSuper (f : Super → Super) : Hushed Access.Silent (setSuper f) := tame_request trivial

theorem hushed_readNbloc (vol nbloc : Word) (size : Nat) : Hushed Access.Silent (readNbloc vol nbloc size) := tame_request trivial

theorem hushed_readBloc (vol nbloc : Word) : Hushed Access.Silent (readBloc vol nbloc) := tame_request trivial

theorem hushed_readInode (inumber : Word) : Hushed Access.Silent (readInode inumber) :=
  Tame.bind hushed_current fun _ => Tame.bind (hushed_readBloc _ _) fun _ => tame_pure _

theorem ends_writeBloc (nbloc : Word) (buffer : Sector) : Ends Access.Silent (do writeBloc (← current) nbloc buffer) :=
  hushed_current.bind fun _ => ends_request _

theorem ends_writeInode (inumber : Word) (inode : Inode) : Ends Access.Silent (writeInode inumber inode) := ends_writeBloc _ _

theorem ends_saveSuper : Ends Access.Silent saveSuper := by
  refine hushed_super.bind fun super => Hushed.bind ?_ fun _ => hushed_current.bind fun _ => ends_request _
  exact tame_ensure

-- new_bloc and initialize_bloc write once, at the end.
theorem ends_newBloc : Ends Access.Silent newBloc := by
  refine hushed_super.bind fun super => ends_ite (ends_pure _) ?_
  refine hushed_current.bind fun _ => (hushed_readNbloc _ _ _).bind fun _ => Hushed.bind ?_ fun _ => ends_ite ?_ ?_
  · exact tame_ensure
  · exact (hushed_setSuper _).bind fun _ => (hushed_setSuper _).bind fun _ => ends_saveSuper.returns _
  · exact (hushed_setSuper _).bind fun _ => (hushed_setSuper _).bind fun _ => ends_saveSuper.returns _

theorem ends_initializeBloc (adress : Word) : Ends Access.Silent (initializeBloc adress) :=
  hushed_current.bind fun _ => Hushed.bind (hushed_readBloc _ _) fun _ => (ends_writeBloc _ _).returns _

theorem throughout_newBloc (blind : Blind I) (layout : Layout t role (c :: free)) (here : I t) :
    newBloc.Throughout Access.perform I t fun v u => v = t.super.premierLibre ∧ u = t.took := by
  refine ((ends_newBloc.throughout here blind.closed).ends (E := fun _ _ => False) ?_).mono fun _ _ post => post.2
  rw [run_newBloc,layout.chain.runs_newBloc layout.mounted]
  exact ⟨rfl,rfl⟩

-- A bloc is taken, zeroed and linked: until it is linked nothing leads to it.
theorem throughout_blocOrAllocate {pointer : Word} {link : Word → S Unit} (blind : Blind I) (layout : Layout t role free) (here : I t)
    (linked : ∀ bloc, Ends Access.Silent (link bloc)) (claims : pointer = 0 → free ≠ [] ∧ ∀ x, I (t.claimed x)) :
    (blocOrAllocate pointer link).Throughout Access.perform I t fun _ _ => True := by
  unfold blocOrAllocate
  refine throughout_ite (fun null => ?_) fun _ => throughout_pure trivial
  obtain ⟨some,claimed⟩ := claims null
  obtain ⟨c,rest,rfl⟩ := List.exists_cons_of_ne_nil some
  refine (throughout_newBloc blind layout here).bind fun v u post => ?_
  obtain ⟨rfl,rfl⟩ := post
  have inside : t.super.premierLibre.toNat < t.took.nsec := by
    rw [layout.chain.head]
    exact layout.chain.inside c List.mem_cons_self
  refine (((ends_initializeBloc _).throughout (blind _ _ layout.took_level (claimed _)) blind.closed).ends (E := fun _ _ => False)
    (R := fun _ u => u = t.claimed (zeros 8 512)) ?_).bind fun v u post => ?_
  · rw [run_initializeBloc,runs_initializeBloc (took_mounted layout.mounted) inside]
    rfl
  · obtain ⟨_,rfl⟩ := post
    exact ((linked v).throughout (claimed _) blind.closed).bind fun _ _ _ => throughout_pure trivial

theorem throughout_vbloc {fbloc : Word} (blind : Blind I) (layout : Layout t role free) (node : role inumber.toNat = .inode)
    (direct : fbloc.toNat < 124) (here : I t) (claims : t.lookup inumber.toNat fbloc.toNat = 0 → free ≠ [] ∧ ∀ x, I (t.claimed x)) :
    (vblocOfFbloc inumber fbloc true).Throughout Access.perform I t fun v u =>
      Allocates t u role free inumber.toNat fbloc.toNat v := by
  have inside := (layout.bound node (by simp)).2
  have low : fbloc < 512/4-4 := by
    rw [BitVec.lt_def]
    exact direct
  refine (Throughout.ends (Q := fun _ _ => True) ?_ (E := fun _ _ => False) ?_).mono fun _ _ post => post.2
  · refine (((hushed_readInode inumber).throughout here blind.closed).ends (E := fun _ _ => False)
      (R := fun r u => r = t.inodeAt inumber.toNat ∧ u = t.load inumber.toNat) ?_).bind fun r u post => ?_
    · rw [run_readInode,runs_readInode layout.mounted inside]
      exact ⟨rfl,rfl⟩
    · obtain ⟨still,rfl,rfl⟩ := post
      rw [if_pos low]
      refine throughout_ite (fun wrong => absurd wrong.2 (by decide)) fun _ => ?_
      refine throughout_blocOrAllocate blind (layout.quiet (Quiet.load t _)) still (fun bloc => ends_writeInode _ _) fun null => ?_
      rw [inodeAt_direct _ _ direct,← lookup_direct _ _ direct] at null
      exact claims null
  · rw [run_vblocOfFbloc]
    exact runs_vbloc_allocate layout node (.inl direct)

end Stepwise

end AsePlusPlus
