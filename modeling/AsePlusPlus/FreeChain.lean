import AsePlusPlus.Lib.Chain
import AsePlusPlus.Superbloc

namespace AsePlusPlus
open Words Program Chain

def Machine.withSuper (s : Machine) (x : Super) : Machine := {s with super := x}

@[simp] theorem withSuper_blk (s : Machine) (x : Super) (b : Nat) : (s.withSuper x).blk b = s.blk b := rfl
@[simp] theorem withSuper_super (s : Machine) (x : Super) : (s.withSuper x).super = x := rfl
@[simp] theorem withSuper_nsec (s : Machine) (x : Super) : (s.withSuper x).nsec = s.nsec := rfl
@[simp] theorem withSuper_start (s : Machine) (x : Super) : (s.withSuper x).start = s.start := rfl
@[simp] theorem withSuper_volume (s : Machine) (x : Super) : (s.withSuper x).currentVolume = s.currentVolume := rfl
@[simp] theorem withSuper_master (s : Machine) (x : Super) : (s.withSuper x).hda.master = s.hda.master := rfl

theorem withSuper_mounted (m : Mounted s) (magic : x.magic = superMagic) : Mounted (s.withSuper x) :=
  ⟨m.1,m.2,m.3,m.4,magic⟩

-- save_super leaves in bloc 0 the 56 bytes of the superbloc over whatever
-- MASTERBUFFER held.
def Machine.saved (s : Machine) : Machine :=
  s.store 0 (overlay s.super.encode s.hda.master) (.nbloc s.currentVolume 0 56)

@[simp] theorem saved_blk (s : Machine) (b : Nat) :
    s.saved.blk b = if b = 0 then overlay s.super.encode s.hda.master else s.blk b := store_blk _ _ _ _ _
@[simp] theorem saved_super (s : Machine) : s.saved.super = s.super := rfl
@[simp] theorem saved_nsec (s : Machine) : s.saved.nsec = s.nsec := rfl
@[simp] theorem saved_start (s : Machine) : s.saved.start = s.start := rfl
@[simp] theorem saved_volume (s : Machine) : s.saved.currentVolume = s.currentVolume := rfl
@[simp] theorem saved_mounted (s : Machine) : Mounted s.saved ↔ Mounted s := store_mounted _ _ _ _

theorem Confined.withSuper (s : Machine) (x : Super) : Confined s (s.withSuper x) :=
  ⟨⟨rfl,rfl,rfl,rfl,fun _ _ => rfl⟩,[],rfl,by simp⟩

theorem Confined.saved (m : Mounted s) : Confined s s.saved := by
  have inside : 0 < s.nsec := Nat.lt_of_lt_of_le (by decide) m.room
  exact ⟨.store inside _ _,[_],rfl,by simpa [WriteCall.Proper] using inside⟩

theorem runs_saveSuper {Q : Unit → Machine → Prop} {E : Stop → Machine → Prop} (m : Mounted s) :
    Runs saveSuper s Q E ↔ Q () s.saved := by
  have magic := m.super
  have inside : (0 : Word).toNat < s.nsec := Nat.lt_of_lt_of_le (by decide : 0 < 2) m.room
  simp only [saveSuper,runs_bind,runs_get,runs_ensure,if_pos magic,runs_current,
    runs_writeNbloc m inside (by decide : 56 ≠ 0)]
  rfl

-- The superbloc after an allocation and after a release.
def Super.took (x : Super) (next : Word) : Super :=
  {x with premierLibre := next,nbBlocLibre := x.nbBlocLibre-1}
def Super.gave (x : Super) (bloc : Word) : Super :=
  {x with premierLibre := bloc,nbBlocLibre := x.nbBlocLibre+1}

def Machine.took (s : Machine) : Machine :=
  ((s.load s.super.premierLibre.toNat).withSuper
    (s.super.took (wordAt (s.blk s.super.premierLibre.toNat) 1))).saved

def Machine.gave (s : Machine) (bloc : Word) : Machine :=
  (((s.load bloc.toNat).store s.super.premierLibre.toNat
    (putWord (s.blk bloc.toNat) 1 s.super.premierLibre) (.bloc s.currentVolume s.super.premierLibre)).withSuper
      (s.super.gave bloc)).saved

theorem took_mounted (m : Mounted s) : Mounted s.took :=
  (saved_mounted _).mpr (withSuper_mounted ((load_mounted _ _).mpr m) m.super)

theorem gave_mounted (m : Mounted s) (bloc : Word) : Mounted (s.gave bloc) :=
  (saved_mounted _).mpr (withSuper_mounted ((store_mounted _ _ _ _).mpr ((load_mounted _ _).mpr m)) m.super)

@[simp] theorem took_super (s : Machine) :
    s.took.super = s.super.took (wordAt (s.blk s.super.premierLibre.toNat) 1) := rfl
@[simp] theorem gave_super (s : Machine) (bloc : Word) : (s.gave bloc).super = s.super.gave bloc := rfl
@[simp] theorem took_nsec (s : Machine) : s.took.nsec = s.nsec := rfl
@[simp] theorem gave_nsec (s : Machine) (bloc : Word) : (s.gave bloc).nsec = s.nsec := rfl

theorem took_blk (s : Machine) (live : b ≠ 0) : s.took.blk b = s.blk b := by
  simp [Machine.took,live]

theorem took_blk_zero (s : Machine) : s.took.blk 0 =
    overlay s.took.super.encode (s.blk s.super.premierLibre.toNat) := by
  simp [Machine.took]

theorem gave_blk (s : Machine) (bloc : Word) (live : b ≠ 0) : (s.gave bloc).blk b =
    if b = s.super.premierLibre.toNat then putWord (s.blk bloc.toNat) 1 s.super.premierLibre else s.blk b := by
  simp [Machine.gave,live]

theorem Confined.took (m : Mounted s) : Confined s s.took := by
  refine ((Confined.load _ _).trans (Confined.withSuper _ _)).trans (Confined.saved ?_)
  exact withSuper_mounted ((load_mounted _ _).mpr m) m.super

theorem wordAt_leading (b : Sector) (h : 4*k+4 ≤ m) : wordAt (build m (cell b)) k = wordAt b k := by
  apply wordAt_congr
  intro j small
  exact cell_build _ (by omega)

theorem runs_newBloc_full {Q : Word → Machine → Prop} {E : Stop → Machine → Prop}
    (full : s.super.premierLibre = 0) : Runs newBloc s Q E ↔ Q 0 s := by
  have null : s.super.premierLibre = blocNull := full
  simp only [newBloc,runs_bind,runs_get,if_pos null,runs_pure]

theorem runs_newBloc {Q : Word → Machine → Prop} {E : Stop → Machine → Prop} (m : Mounted s)
    (live : s.super.premierLibre ≠ 0) (inside : s.super.premierLibre.toNat < s.nsec)
    (magic : wordAt (s.blk s.super.premierLibre.toNat) 0 = blocMagic) :
    Runs newBloc s Q E ↔ Q s.super.premierLibre s.took := by
  have some : s.super.premierLibre ≠ blocNull := live
  have decoded : FreeBloc.decode (build 8 (cell (s.blk s.super.premierLibre.toNat))) =
      ⟨blocMagic,wordAt (s.blk s.super.premierLibre.toNat) 1⟩ := by
    rw [FreeBloc.decode,wordAt_leading _ (by decide),wordAt_leading _ (by decide),magic]
  have after := took_mounted m
  have ready : Mounted ((s.load s.super.premierLibre.toNat).withSuper
      (s.super.took (wordAt (s.blk s.super.premierLibre.toNat) 1))) := (saved_mounted _).mp after
  simp only [newBloc,runs_bind,runs_get,if_neg some,runs_current,runs_readNbloc m inside (by decide : 8 ≠ 0),
    decoded,runs_ensure,if_true,runs_ite,runs_modify,runs_pure]
  by_cases last : wordAt (s.blk s.super.premierLibre.toNat) 1 = blocNull
  · rw [if_neg (not_not_intro last)]
    rw [last] at ready
    exact (runs_saveSuper ready).trans (by rw [Machine.took,last])
  · rw [if_pos last]
    exact (runs_saveSuper ready).trans Iff.rfl

theorem runs_freeBloc {Q : Unit → Machine → Prop} {E : Stop → Machine → Prop} (m : Mounted s) {bloc : Word}
    (live : bloc ≠ 0) (inside : bloc.toNat < s.nsec) (head : s.super.premierLibre.toNat < s.nsec) :
    Runs (freeBloc bloc) s Q E ↔ Q () (s.gave bloc) := by
  have loaded : Mounted (s.load bloc.toNat) := (load_mounted _ _).mpr m
  have ready := (saved_mounted _).mp (gave_mounted m bloc)
  have write := fun (P : Unit → Machine → Prop) buffer =>
    runs_writeBloc (b := s.super.premierLibre) (Q := P) (E := E) loaded head buffer
  simp only [freeBloc,if_neg live,runs_bind,runs_current,runs_readBloc m inside,runs_get,load_super,
    load_volume] at write ⊢
  rw [write]
  simp only [runs_modify]
  exact runs_saveSuper ready

def Machine.nextFree (s : Machine) (b : Nat) : Nat := (wordAt (s.blk b) 1).toNat

-- The free blocs, in the order of the chain that the superbloc starts and the
-- blocs themselves carry on.
structure FreeChain (s : Machine) (free : List Nat) : Prop where
  linked : Linked s.nextFree 0 s.super.premierLibre.toNat free
  magic : ∀ b ∈ free, wordAt (s.blk b) 0 = blocMagic
  inside : ∀ b ∈ free, b < s.nsec
  count : s.super.nbBlocLibre.toNat = free.length

theorem FreeChain.positive (chain : FreeChain s free) : ∀ b ∈ free, b ≠ 0 := linked_mem_ne chain.linked
theorem FreeChain.nodup (chain : FreeChain s free) : free.Nodup := linked_nodup chain.linked

theorem FreeChain.empty (chain : FreeChain s []) : s.super.premierLibre = 0 := by
  have head : s.super.premierLibre.toNat = 0 := chain.linked
  exact BitVec.eq_of_toNat_eq head

theorem FreeChain.head (chain : FreeChain s (b :: rest)) : s.super.premierLibre.toNat = b := chain.linked.1

theorem FreeChain.head_ne (chain : FreeChain s (b :: rest)) : s.super.premierLibre ≠ 0 := by
  intro null
  have head := chain.head
  rw [null] at head
  exact chain.positive b (by simp) head.symm

-- Only the free blocs and the superbloc matter to the chain.
theorem FreeChain.congr (chain : FreeChain s free) (same : ∀ b ∈ free, t.blk b = s.blk b)
    (first : t.super.premierLibre = s.super.premierLibre) (count : t.super.nbBlocLibre = s.super.nbBlocLibre)
    (nsec : t.nsec = s.nsec) : FreeChain t free := by
  refine ⟨?_,?_,?_,?_⟩
  · rw [first]
    exact linked_congr chain.linked fun b member => by unfold Machine.nextFree; rw [same b member]
  · intro b member; rw [same b member]; exact chain.magic b member
  · intro b member; rw [nsec]; exact chain.inside b member
  · rw [count]; exact chain.count

theorem FreeChain.runs_newBloc {Q : Word → Machine → Prop} {E : Stop → Machine → Prop} (m : Mounted s)
    (chain : FreeChain s (b :: rest)) : Runs newBloc s Q E ↔ Q s.super.premierLibre s.took := by
  have head := chain.head
  exact AsePlusPlus.runs_newBloc m chain.head_ne (by rw [head]; exact chain.inside b (by simp))
    (by rw [head]; exact chain.magic b (by simp))

theorem FreeChain.took (chain : FreeChain s (b :: rest)) : FreeChain s.took rest := by
  have head := chain.head
  have kept : ∀ c ∈ rest, s.took.blk c = s.blk c := fun c member =>
    took_blk s (chain.positive c (List.mem_cons_of_mem _ member))
  refine ⟨?_,?_,?_,?_⟩
  · have tail := chain.linked.2.2
    have next : s.took.super.premierLibre.toNat = s.nextFree b := by
      simp only [took_super,Super.took,head]; rfl
    rw [next]
    exact linked_congr tail fun c member => by unfold Machine.nextFree; rw [kept c member]
  · intro c member; rw [kept c member]; exact chain.magic c (List.mem_cons_of_mem _ member)
  · intro c member; exact chain.inside c (List.mem_cons_of_mem _ member)
  · have count := chain.count
    have bound := s.super.nbBlocLibre.isLt
    simp only [List.length_cons] at count
    simp only [took_super,Super.took,BitVec.toNat_sub]
    have one : (1 : Word).toNat = 1 := rfl
    omega

end AsePlusPlus
