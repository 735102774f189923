import Mathlib.Data.List.Perm.Subperm
import AsePlusPlus.Lib.Trace
import AsePlusPlus.Formatting

namespace AsePlusPlus
open Words Program Chain Trace

inductive BlocCall where
  | new
  | free (bloc : Word)
  | write (bloc : Word) (x : Sector)

-- The blocs that new_bloc returned and that were not freed since; their owner may
-- write anything into them.
structure Holding where
  machine : Machine
  held : List Nat

inductive BlocStep : Holding → BlocCall → Holding → Prop
  | new {s t : Machine} {held : List Nat} {b : Word} (ran : newBloc s = (.ok b,t)) : BlocStep ⟨s,held⟩ .new ⟨t,if b = 0 then held else b.toNat :: held⟩
  | free {s t : Machine} {held : List Nat} {b : Word} (owned : b.toNat ∈ held) (ran : freeBloc b s = (.ok (),t)) :
      BlocStep ⟨s,held⟩ (.free b) ⟨t,held.erase b.toNat⟩
  | write {s t : Machine} {held : List Nat} {b : Word} {x : Sector} (owned : b.toNat ∈ held) (ran : writeBloc s.currentVolume b x s = (.ok (),t)) :
      BlocStep ⟨s,held⟩ (.write b x) ⟨t,held⟩

variable {free held : List Nat} {s t u : Machine} {b : Word} {x : Sector}

-- The chain on disk is well formed and apart from the blocs in use, and the next
-- new_bloc answers from it: never a bloc in use, and 0 only when all are.
structure Integrity (h : Holding) : Prop where
  chain : ∃ free, FreeChain h.machine free ∧ free.Nodup ∧ ∀ c ∈ free, 1 ≤ c ∧ c < h.machine.nsec ∧ c ∉ h.held
  new : Returns newBloc h.machine fun b _ => b.toNat ∉ h.held ∧
    (b = 0 → ∀ c, 1 ≤ c → c < h.machine.nsec → c ∈ h.held)

-- free_bloc links the freed bloc right when the chain is empty and the bloc still
-- begins as a free bloc that ends a chain.
def Mergeable (s : Machine) (b : Word) : Prop :=
  s.super.premierLibre = 0 ∧ wordAt (s.blk b.toNat) 0 = blocMagic ∧ wordAt (s.blk b.toNat) 1 = 0

def BlocCall.Mergeable (h : Holding) : BlocCall → Prop
  | .free b => AsePlusPlus.Mergeable h.machine b
  | _ => True

-- Every bloc behind the superbloc is either free or held.
structure Parted (s : Machine) (free held : List Nat) : Prop where
  mounted : Mounted s
  chain : FreeChain s free
  nodup : held.Nodup
  apart : ∀ c ∈ free, c ∉ held
  all : ∀ c, 1 ≤ c ∧ c < s.nsec ↔ c ∈ free ∨ c ∈ held

theorem Parted.held_bound (parted : Parted s free held) (owned : b.toNat ∈ held) : b ≠ 0 ∧ b.toNat < s.nsec := by
  have bound := (parted.all _).mpr (Or.inr owned)
  refine ⟨?_,bound.2⟩
  intro same
  obtain rfl := same
  exact absurd bound.1 (by decide)

theorem Parted.head_bound (parted : Parted s free held) : s.super.premierLibre.toNat < s.nsec := by
  cases free with
  | nil =>
      rw [parted.chain.empty]
      exact Nat.lt_of_lt_of_le (by decide : 0 < 2) parted.mounted.room
  | cons c rest => rw [parted.chain.head]; exact parted.chain.inside c (by simp)

theorem Parted.integrity (parted : Parted s free held) : Integrity ⟨s,held⟩ := by
  refine ⟨⟨free,parted.chain,parted.chain.nodup,?_⟩,?_⟩
  · intro c member
    have bound := (parted.all c).mpr (Or.inl member)
    exact ⟨bound.1,bound.2,parted.apart c member⟩
  · cases free with
    | nil =>
        rw [Returns,runs_newBloc_full parted.chain.empty]
        refine ⟨?_,fun _ c low high => ((parted.all c).mp ⟨low,high⟩).resolve_left (by simp)⟩
        intro owned
        exact (parted.held_bound owned).1 rfl
    | cons c rest =>
        rw [Returns,parted.chain.runs_newBloc parted.mounted,parted.chain.head]
        exact ⟨parted.apart c (by simp),fun none => absurd none parted.chain.head_ne⟩

theorem Parted.new (parted : Parted s free held) (ran : newBloc s = (.ok b,t)) :
    ∃ free', Parted t free' (if b = 0 then held else b.toNat :: held) := by
  cases free with
  | nil =>
      obtain ⟨rfl,rfl⟩ := Runs.exact (fun _ => runs_newBloc_full parted.chain.empty) ran
      exact ⟨[],parted⟩
  | cons c rest =>
      obtain ⟨rfl,rfl⟩ := Runs.exact (fun _ => parted.chain.runs_newBloc parted.mounted) ran
      have fresh := List.nodup_cons.mp parted.chain.nodup
      rw [if_neg parted.chain.head_ne,parted.chain.head]
      refine ⟨rest,took_mounted parted.mounted,parted.chain.took,List.nodup_cons.mpr ⟨parted.apart c (by simp),parted.nodup⟩,?_,?_⟩
      · intro d member again
        rcases List.mem_cons.mp again with rfl | old
        · exact fresh.1 member
        · exact parted.apart d (List.mem_cons_of_mem _ member) old
      · intro d
        rw [took_nsec,parted.all,List.mem_cons,List.mem_cons]
        tauto

theorem Parted.write (parted : Parted s free held) (owned : b.toNat ∈ held)
    (ran : writeBloc s.currentVolume b x s = (.ok (),t)) : Parted t free held := by
  obtain ⟨_,inside⟩ := parted.held_bound owned
  obtain ⟨_,rfl⟩ := Runs.exact (fun _ => runs_writeBloc parted.mounted inside x) ran
  refine ⟨(store_mounted _ _ _ _).mpr parted.mounted,?_,parted.nodup,parted.apart,parted.all⟩
  refine parted.chain.congr ?_ rfl rfl rfl
  intro c member
  rw [store_blk,if_neg]
  intro same
  obtain rfl := same
  exact parted.apart _ member owned

theorem Parted.freed (parted : Parted s free held) (owned : b.toNat ∈ held)
    (ran : freeBloc b s = (.ok (),t)) : t = s.gave b := by
  obtain ⟨live,inside⟩ := parted.held_bound owned
  exact (Runs.exact (fun _ => runs_freeBloc parted.mounted live inside parted.head_bound) ran).2

theorem Parted.release (parted : Parted s free held) (owned : b.toNat ∈ held) (fit : Mergeable s b)
    (ran : freeBloc b s = (.ok (),t)) : Parted t [b.toNat] (held.erase b.toNat) := by
  obtain ⟨null,magic,last⟩ := fit
  obtain ⟨live,inside⟩ := parted.held_bound owned
  obtain rfl := parted.freed owned ran
  have empty : free = [] := by
    cases free with
    | nil => rfl
    | cons c rest => exact absurd null parted.chain.head_ne
  subst empty
  have positive : b.toNat ≠ 0 := fun zero => live (BitVec.eq_of_toNat_eq zero)
  have kept : (s.gave b).blk b.toNat = s.blk b.toNat := by
    rw [gave_blk s b positive,null,if_neg (show ¬ b.toNat = (0 : Word).toNat from positive)]
  refine ⟨gave_mounted parted.mounted b,⟨⟨rfl,positive,?_⟩,?_,?_,?_⟩,parted.nodup.erase _,?_,?_⟩
  · have next : (s.gave b).nextFree b.toNat = 0 := by
      unfold Machine.nextFree
      rw [kept,last]
      rfl
    rw [next]
    exact linked_nil
  · intro c member
    rw [List.mem_singleton.mp member,kept,magic]
  · intro c member
    rw [List.mem_singleton.mp member]
    exact inside
  · have count := parted.chain.count
    rw [gave_super,Super.gave]
    dsimp only
    rw [BitVec.toNat_add,count]
    rfl
  · intro c member
    rw [List.mem_singleton.mp member]
    exact fun again => absurd rfl (parted.nodup.mem_erase_iff.mp again).1
  · intro c
    rw [gave_nsec,parted.all,parted.nodup.mem_erase_iff,List.mem_singleton]
    by_cases same : c = b.toNat
    · simp [same,owned]
    · simp [same]

-- Conversely a chain that is intact after the release tells what was released:
-- had the chain not been empty, its old head would now link itself.
theorem Parted.mergeable (parted : Parted s free held) (owned : b.toNat ∈ held)
    (intact : Integrity ⟨s.gave b,held.erase b.toNat⟩) : Mergeable s b := by
  obtain ⟨⟨cells,chain,nodup,apart⟩,_⟩ := intact
  obtain ⟨live,inside⟩ := parted.held_bound owned
  have positive : b.toNat ≠ 0 := fun zero => live (BitVec.eq_of_toNat_eq zero)
  have small : ∀ c ∈ cells, c ∈ b.toNat :: free := by
    intro c member
    obtain ⟨low,high,loose⟩ := apart c member
    by_cases same : c = b.toNat
    · rw [same]; simp
    · refine List.mem_cons_of_mem _ (((parted.all c).mp ⟨low,high⟩).resolve_right fun holder => ?_)
      exact loose (parted.nodup.mem_erase_iff.mpr ⟨same,holder⟩)
  have fresh : (b.toNat :: free).Nodup :=
    List.nodup_cons.mpr ⟨fun member => parted.apart _ member owned,parted.chain.nodup⟩
  have few : free.length+1 < 2^32 := by
    have within : b.toNat :: free ⊆ List.range s.nsec := by
      intro c member
      rcases List.mem_cons.mp member with rfl | old
      · exact List.mem_range.mpr inside
      · exact List.mem_range.mpr (parted.chain.inside c old)
    have most := (fresh.subperm within).length_le
    rw [List.length_cons,List.length_range] at most
    exact Nat.lt_of_le_of_lt most s.vol.volNsectors.isLt
  have sizes : cells.length = (b.toNat :: free).length := by
    have count := chain.count
    have before := parted.chain.count
    rw [gave_super,Super.gave] at count
    dsimp only at count
    rw [BitVec.toNat_add,before] at count
    have one : (1 : Word).toNat = 1 := rfl
    rw [← count,List.length_cons]
    omega
  have permuted := (nodup.subperm small).perm_of_length_le (Nat.le_of_eq sizes.symm)
  have head : (s.gave b).super.premierLibre.toNat = b.toNat := rfl
  have empty : free = [] := by
    cases free with
    | nil => rfl
    | cons c rest =>
        have member : c ∈ cells := permuted.mem_iff.mpr (by simp)
        have first := parted.chain.head
        refine absurd member (linked_not_loop chain.linked ?_)
        unfold Machine.nextFree
        rw [gave_blk s b (parted.chain.positive c (by simp)),if_pos first.symm,wordAt_putWord _ _ (by decide),if_pos rfl]
        exact first
  subst empty
  have null := parted.chain.empty
  have kept : (s.gave b).blk b.toNat = s.blk b.toNat := by
    rw [gave_blk s b positive,null,if_neg (show ¬ b.toNat = (0 : Word).toNat from positive)]
  have single : cells = [b.toNat] := List.perm_singleton.mp permuted
  subst single
  refine ⟨null,?_,?_⟩
  · rw [← kept]
    exact chain.magic _ (by simp)
  · have last : (s.gave b).nextFree b.toNat = 0 := linked_empty_iff.mp chain.linked.2.2
    unfold Machine.nextFree at last
    rw [kept] at last
    exact BitVec.eq_of_toNat_eq last

def Sorted (h : Holding) : Prop := ∃ free, Parted h.machine free h.held

theorem BlocStep.keeps {h h' : Holding} {c : BlocCall} (sorted : Sorted h) (fit : c.Mergeable h)
    (step : BlocStep h c h') : Sorted h' := by
  obtain ⟨free,parted⟩ := sorted
  cases step with
  | new ran => exact parted.new ran
  | free owned ran => exact ⟨_,parted.release owned fit ran⟩
  | write owned ran => exact ⟨free,parted.write owned ran⟩

theorem BlocStep.forces {h h' : Holding} {c : BlocCall} (sorted : Sorted h) (step : BlocStep h c h')
    (intact : Integrity h') : c.Mergeable h := by
  obtain ⟨free,parted⟩ := sorted
  cases step with
  | new => trivial
  | free owned ran =>
      rw [parted.freed owned ran] at intact
      exact parted.mergeable owned intact
  | write => trivial

theorem Fresh.parted (fresh : Fresh s) : Parted s (List.range' 2 (s.nsec-2)) [1] := by
  have room := fresh.layout.mounted.room
  refine ⟨fresh.layout.mounted,fresh.layout.chain,by simp,?_,?_⟩
  · intro c member held
    have range := List.mem_range'_1.mp member
    have one := List.mem_singleton.mp held
    omega
  · intro c
    rw [List.mem_range'_1,List.mem_singleton]
    omega

-- From a formatted volume, on which only the root is in use, the chain stays
-- intact through a run exactly when each release could be linked right.
theorem free_chain_integrity_exact {m : Machine} {vol numSerie : Word} {nom : Vector Byte 32} {h : Holding}
    {past : List (Holding × BlocCall)} (sited : Sited m vol)
    (formatted : initSuper vol numSerie nom m = (.ok (),s)) (run : Run BlocStep ⟨s,[1]⟩ past h) :
    (Integrity h ∧ ∀ entry ∈ past, Integrity entry.1) ↔ ∀ entry ∈ past, entry.2.Mergeable entry.1 := by
  have fresh := ((runs_initSuper sited numSerie nom).result formatted).1
  exact run.exact (fun (h : Holding) (c : BlocCall) => c.Mergeable h) (P := Sorted)
    (fun _ _ _ sorted fit step => step.keeps sorted fit) ⟨_,fresh.parted⟩
    (fun _ sorted => sorted.elim fun _ parted => parted.integrity) fun _ _ _ sorted step intact => step.forces sorted intact

-- The first new_bloc of a volume answers 2.
theorem first_new {n : Word} (room : 3 ≤ n.toNat) (fits : n.toNat ≤ 32736) : ∃ s t,
    initSuper 0 0 (zeros 8 32) (recordedDisk (volumeOf n)) = (.ok (),s) ∧ BlocStep ⟨s,[1]⟩ .new ⟨t,[2,1]⟩ ∧
    Parted t (List.range' 3 (n.toNat-3)) [2,1] ∧ FreeChain s (List.range' 2 (n.toNat-2)) ∧ t.blk 2 = s.blk 2 := by
  obtain ⟨s,equal,fresh,size⟩ := volumeOf_fresh (n := n) (by omega) fits 0 (zeros 8 32)
  have parted := fresh.parted
  rw [size] at parted
  have whole := parted.chain
  have split : List.range' 2 (n.toNat-2) = 2 :: List.range' 3 (n.toNat-3) := by
    rw [show n.toNat-2 = (n.toNat-3)+1 by omega,List.range'_succ]
  rw [split] at parted
  have ran := Runs.equal fun _ => parted.chain.runs_newBloc parted.mounted
  have step : BlocStep ⟨s,[1]⟩ .new _ := .new ran
  obtain ⟨free,after⟩ := parted.new ran
  rw [if_neg parted.chain.head_ne,parted.chain.head] at step after
  have same := linked_unique after.chain.linked parted.chain.took.linked
  rw [same] at after
  exact ⟨s,s.took,equal,step,after,whole,took_blk s (by decide)⟩

-- The last bloc is taken and given back, and still ends a chain.
theorem free_chain_integrity_back : ∃ s h past, initSuper 0 0 (zeros 8 32) (recordedDisk (volumeOf 3)) = (.ok (),s) ∧
    Run BlocStep ⟨s,[1]⟩ past h ∧ past.map Prod.snd = [.new,.free 2] ∧ h.held = [1] ∧ Integrity h := by
  obtain ⟨s,t,equal,step,parted,chain,kept⟩ := first_new (n := 3) (by decide) (by decide)
  have owned : (2 : Word).toNat ∈ [2,1] := by simp
  obtain ⟨live,inside⟩ := parted.held_bound owned
  have ran := Runs.equal fun _ => runs_freeBloc parted.mounted live inside parted.head_bound
  have run := (Run.single step).next (.free owned ran)
  have fit : Mergeable t 2 := by
    refine ⟨parted.chain.empty,?_,?_⟩
    · rw [show (2 : Word).toNat = 2 from rfl,kept]
      exact chain.magic 2 (by decide)
    · rw [show (2 : Word).toNat = 2 from rfl,kept]
      exact BitVec.eq_of_toNat_eq (linked_empty_iff.mp chain.linked.2.2)
  have met : ∀ entry ∈ [(⟨s,[1]⟩,BlocCall.new)] ++ [(⟨t,[2,1]⟩,BlocCall.free 2)], entry.2.Mergeable entry.1 := by
    intro entry member
    rcases List.mem_append.mp member with first | second
    · rw [List.mem_singleton.mp first]
      trivial
    · rw [List.mem_singleton.mp second]
      exact fit
  exact ⟨s,_,_,equal,run,rfl,rfl,((free_chain_integrity_exact (volumeOf_sited (by decide) (by decide)) equal run).mpr met).1⟩

-- Releasing bloc 2 at once writes its content over bloc 3, the head of the chain.
theorem free_chain_breaks : ∃ s h past, initSuper 0 0 (zeros 8 32) (recordedDisk (volumeOf 64)) = (.ok (),s) ∧
    Run BlocStep ⟨s,[1]⟩ past h ∧ past.map Prod.snd = [.new,.free 2] ∧ ¬ Integrity h := by
  obtain ⟨s,t,equal,step,parted,_⟩ := first_new (n := 64) (by decide) (by decide)
  have owned : (2 : Word).toNat ∈ [2,1] := by simp
  obtain ⟨live,inside⟩ := parted.held_bound owned
  have ran := Runs.equal fun _ => runs_freeBloc parted.mounted live inside parted.head_bound
  have run := (Run.single step).next (.free owned ran)
  refine ⟨s,_,_,equal,run,rfl,fun intact => ?_⟩
  have empty := (parted.mergeable owned intact).1
  exact parted.chain.head_ne empty

end AsePlusPlus
