import Mathlib.Logic.Function.Basic
import AsePlusPlus.FreeChain
import AsePlusPlus.Ifile

namespace AsePlusPlus
open Words Program

-- What a bloc of the volume is used for. Nothing on disk records it: the roles
-- are the ghost that ties inodes, index blocs and the free chain together.
inductive Role where
  | none
  | free
  | inode
  | double (inumber : Nat)
  | index (inumber slot : Nat)
  | data (inumber fbloc : Nat)
  deriving DecidableEq

-- What the w-th word of a bloc leads to; `none` for a word that is no pointer.
def Role.target : Role → Nat → Nat → Role
  | .inode,b,w => if 2 ≤ w ∧ w < 126 then .data b (w-2) else if w = 127 then .double b else .none
  | .double i,_,w => .index i w
  | .index i k,_,w => .data i (252+128*k+w)
  | _,_,_ => .none

variable {role : Nat → Role} {free : List Nat} {s t : Machine} {i f b : Nat}

theorem target_direct (i : Nat) (direct : f < 124) : Role.inode.target i (f+2) = .data i f := by
  have range : 2 ≤ f+2 ∧ f+2 < 126 := by omega
  simp [Role.target,range]

def Machine.inodeAt (s : Machine) (i : Nat) : Inode := Inode.decode (s.blk i)
def Machine.entryAt (s : Machine) (b k : Nat) : Word := wordAt (s.blk b) k

-- A bloc's content agrees with its role: each pointer it holds is null or leads
-- to the bloc of that position of that file, and of no other.
structure BlockOk (role : Nat → Role) (b : Nat) (x : Sector) : Prop where
  indirect : role b = .inode → wordAt x 126 = 0
  points : ∀ w, w < 128 → (role b).target b w ≠ .none → wordAt x w ≠ 0 →
    role (wordAt x w).toNat = (role b).target b w

structure Layout (s : Machine) (role : Nat → Role) (free : List Nat) : Prop where
  mounted : Mounted s
  chain : FreeChain s free
  vacant : ∀ b, role b = .free ↔ b ∈ free
  inside : ∀ b, role b ≠ .none → b ≠ 0 ∧ b < s.nsec
  blocks : ∀ b, BlockOk role b (s.blk b)

-- Bloc 0 on disk is the superbloc in memory.
def Synced (s : Machine) : Prop := Super.decode (s.blk 0) = s.super

theorem Synced.magic (synced : Synced s) (m : Mounted s) : s.entryAt 0 0 = superMagic := by
  have word := congrArg Super.magic synced
  exact word.trans m.super

-- The file positions that the direct and the double indirect branch reach.
def Supported (f : Nat) : Prop := f < 124 ∨ (252 ≤ f ∧ f < 888)

instance (f : Nat) : Decidable (Supported f) := by unfold Supported; infer_instance

def Machine.indexOf (s : Machine) (i f : Nat) : Word :=
  if s.entryAt i 127 = 0 then 0 else s.entryAt (s.entryAt i 127).toNat ((f-252)/128)

def Machine.lookup (s : Machine) (i f : Nat) : Word :=
  if f < 124 then s.entryAt i (f+2)
  else if Supported f then
    if s.indexOf i f = 0 then 0 else s.entryAt (s.indexOf i f).toNat ((f-252)%128)
  else 0

-- The content of a file position, zeros when it is not mapped.
def Machine.fblock (s : Machine) (i f : Nat) : Sector :=
  if s.lookup i f = 0 then zeros 8 512 else s.blk (s.lookup i f).toNat

theorem lookup_direct (s : Machine) (i : Nat) (direct : f < 124) : s.lookup i f = s.entryAt i (f+2) := if_pos direct

theorem lookup_far (s : Machine) (i : Nat) (far : 252 ≤ f) (bound : f < 888) : s.lookup i f =
    if s.indexOf i f = 0 then 0 else s.entryAt (s.indexOf i f).toNat ((f-252)%128) := by
  have reached : Supported f := Or.inr ⟨far,bound⟩
  unfold Machine.lookup
  rw [if_neg (by omega),if_pos reached]

theorem lookup_unsupported (s : Machine) (i : Nat) (outside : ¬ Supported f) : s.lookup i f = 0 := by
  unfold Machine.lookup
  rw [if_neg fun direct => outside (Or.inl direct),if_neg outside]

theorem inodeAt_direct (s : Machine) (i : Nat) (direct : f < 124) :
    cell (s.inodeAt i).blocsDirects f = s.entryAt i (f+2) := by
  unfold Machine.inodeAt Machine.entryAt Inode.decode
  rw [cell_build _ direct]
theorem inodeAt_double (s : Machine) (i : Nat) : (s.inodeAt i).blocsDoubleIndirect = s.entryAt i 127 := rfl
theorem inodeAt_type (s : Machine) (i : Nat) : (s.inodeAt i).type = s.entryAt i 0 := rfl

-- `t` is `s` after reads only.
def Quiet (s t : Machine) : Prop := ∃ master head, t = {s with hda := ⟨s.hda.sectors,master,head⟩}

theorem Quiet.refl (s : Machine) : Quiet s s := ⟨s.hda.master,s.hda.head,rfl⟩
theorem Quiet.trans (one : Quiet r s) (two : Quiet s t) : Quiet r t := by
  obtain ⟨_,_,rfl⟩ := one
  obtain ⟨master,head,rfl⟩ := two
  exact ⟨master,head,rfl⟩
theorem Quiet.load (s : Machine) (b : Nat) : Quiet s (s.load b) := ⟨_,_,rfl⟩
theorem Quiet.confined (quiet : Quiet s t) : Confined s t := by
  obtain ⟨_,_,rfl⟩ := quiet
  exact ⟨⟨rfl,rfl,rfl,rfl,fun _ _ => rfl⟩,[],rfl,by simp⟩
theorem Quiet.blk (quiet : Quiet s t) (b : Nat) : t.blk b = s.blk b := by obtain ⟨_,_,rfl⟩ := quiet; rfl
theorem Quiet.super (quiet : Quiet s t) : t.super = s.super := by obtain ⟨_,_,rfl⟩ := quiet; rfl
theorem Quiet.nsec (quiet : Quiet s t) : t.nsec = s.nsec := by obtain ⟨_,_,rfl⟩ := quiet; rfl
theorem Quiet.frame (quiet : Quiet s t) : t.frame = s.frame := by obtain ⟨_,_,rfl⟩ := quiet; rfl
theorem Quiet.lookup (quiet : Quiet s t) (i f : Nat) : t.lookup i f = s.lookup i f := by
  obtain ⟨_,_,rfl⟩ := quiet; rfl
theorem Quiet.fblock (quiet : Quiet s t) (i f : Nat) : t.fblock i f = s.fblock i f := by
  obtain ⟨_,_,rfl⟩ := quiet; rfl
theorem Quiet.inodeAt (quiet : Quiet s t) (i : Nat) : t.inodeAt i = s.inodeAt i := by
  obtain ⟨_,_,rfl⟩ := quiet; rfl
theorem Quiet.mounted (quiet : Quiet s t) (m : Mounted s) : Mounted t := by
  obtain ⟨_,_,rfl⟩ := quiet; exact ⟨m.1,m.2,m.3,m.4,m.5⟩
theorem Quiet.synced (quiet : Quiet s t) (synced : Synced s) : Synced t := by
  obtain ⟨_,_,rfl⟩ := quiet; exact synced

theorem Layout.quiet (layout : Layout s role free) (quiet : Quiet s t) : Layout t role free := by
  obtain ⟨_,_,rfl⟩ := quiet
  obtain ⟨m,⟨linked,magic,inside,count⟩,frees,bounds,blocks⟩ := layout
  exact ⟨⟨m.1,m.2,m.3,m.4,m.5⟩,⟨linked,magic,inside,count⟩,frees,bounds,blocks⟩

theorem Layout.bound (layout : Layout s role free) (used : role b = r) (real : r ≠ .none) :
    b ≠ 0 ∧ b < s.nsec := layout.inside b (by rw [used]; exact real)

theorem Layout.zero (layout : Layout s role free) : role 0 = .none := by
  cases named : role 0 with
  | none => rfl
  | _ => exact absurd rfl (layout.bound named (by simp)).1

theorem Layout.not_free (layout : Layout s role free) (used : role b = r) (real : r ≠ .free) :
    b ∉ free := fun member => real (used.symm.trans ((layout.vacant b).mpr member))

theorem Layout.points (layout : Layout s role free) (used : role b = r) (w : Nat) (small : w < 128)
    (pointer : r.target b w ≠ .none) (live : s.entryAt b w ≠ 0) : role (s.entryAt b w).toNat = r.target b w := by
  subst used
  exact (layout.blocks b).points w small pointer live

theorem Layout.double_role (layout : Layout s role free) (node : role i = .inode) (live : s.entryAt i 127 ≠ 0) :
    role (s.entryAt i 127).toNat = .double i :=
  layout.points node 127 (by decide) (by simp [Role.target]) live

theorem indexOf_ne (live : s.indexOf i f ≠ 0) : s.entryAt i 127 ≠ 0 ∧
    s.indexOf i f = s.entryAt (s.entryAt i 127).toNat ((f-252)/128) := by
  unfold Machine.indexOf at live ⊢
  split at live
  · exact absurd rfl live
  · rename_i some; exact ⟨some,if_neg some⟩

theorem Layout.index_role (layout : Layout s role free) (node : role i = .inode) (bound : f < 888)
    (live : s.indexOf i f ≠ 0) : role (s.indexOf i f).toNat = .index i ((f-252)/128) := by
  obtain ⟨some,equal⟩ := indexOf_ne live
  rw [equal] at live ⊢
  exact layout.points (layout.double_role node some) _ (by omega) (by simp [Role.target]) live

-- A mapped position leads to the bloc that is its own.
theorem Layout.lookup_role (layout : Layout s role free) (node : role i = .inode)
    (mapped : s.lookup i f ≠ 0) : role (s.lookup i f).toNat = .data i f := by
  by_cases direct : f < 124
  · rw [lookup_direct s i direct] at mapped ⊢
    have target := target_direct i direct
    rw [layout.points node (f+2) (by omega) (by simp [target]) mapped,target]
  by_cases far : Supported f
  · obtain ⟨low,high⟩ := far.resolve_left direct
    rw [lookup_far s i low high] at mapped ⊢
    split at mapped
    · exact absurd rfl mapped
    rename_i some
    rw [if_neg some]
    have leaf := layout.points (layout.index_role node high some) _ (by omega) (by simp [Role.target]) mapped
    have same : 252+128*((f-252)/128)+(f-252)%128 = f := by omega
    simp only [Role.target,same] at leaf
    exact leaf
  · exact absurd (lookup_unsupported s i far) mapped

theorem Layout.lookup_inside (layout : Layout s role free) (node : role i = .inode)
    (mapped : s.lookup i f ≠ 0) : (s.lookup i f).toNat ≠ 0 ∧ (s.lookup i f).toNat < s.nsec :=
  layout.bound (layout.lookup_role node mapped) (by simp)

-- Two positions never share a bloc.
theorem Layout.lookup_injective (layout : Layout s role free) (node : role i = .inode) (node' : role i' = .inode)
    (mapped : s.lookup i f ≠ 0) (same : s.lookup i f = s.lookup i' f') : i = i' ∧ f = f' := by
  have one := layout.lookup_role node mapped
  have two := layout.lookup_role node' (same ▸ mapped)
  rw [same,two] at one
  obtain ⟨file,block⟩ := Role.data.inj one
  exact ⟨file.symm,block.symm⟩

theorem BlockOk.zeros (role : Nat → Role) (b : Nat) : BlockOk role b (zeros 8 512) :=
  ⟨fun _ => wordAt_zeros 126,fun w _ _ live => absurd (wordAt_zeros w) live⟩

theorem target_ne_free (r : Role) (b w : Nat) : r.target b w ≠ .free ∧ r.target b w ≠ .inode := by
  unfold Role.target
  split
  · split
    · simp
    · split <;> simp
  all_goals simp

-- Giving a role to a free bloc disturbs no other bloc.
theorem BlockOk.update (ok : BlockOk role c x) (unused : role b = .free) (other : c ≠ b) (q : Role) :
    BlockOk (Function.update role b q) c x := by
  have same : Function.update role b q c = role c := Function.update_of_ne other _ _
  refine ⟨fun node => ok.indirect (same ▸ node),?_⟩
  intro w small pointer live
  rw [same] at pointer ⊢
  have old := ok.points w small pointer live
  have away : (wordAt x w).toNat ≠ b := by
    intro equal
    rw [equal,unused] at old
    exact (target_ne_free _ _ _).1 old.symm
  rw [Function.update_of_ne away]
  exact old

-- Rewriting one bloc, in accordance with its role.
theorem Layout.store (layout : Layout s role free) (kept : role c ≠ .free) (ok : BlockOk role c x)
    (call : WriteCall) : Layout (s.store c x call) role free := by
  refine ⟨(store_mounted _ _ _ _).mpr layout.mounted,?_,layout.vacant,layout.inside,?_⟩
  · refine layout.chain.congr ?_ rfl rfl rfl
    intro b member
    have away : b ≠ c := fun same => kept (same ▸ (layout.vacant b).mpr member)
    rw [store_blk,if_neg away]
  · intro b
    rw [store_blk]
    by_cases same : b = c
    · rw [if_pos same,same]; exact ok
    · rw [if_neg same]; exact layout.blocks b

-- Every bloc with a role below an inode is reached from it.
def Owned (s : Machine) (role : Nat → Role) : Prop :=
  ∀ b, role b ≠ .none → role b ≠ .free → role b ≠ .inode →
    ∃ c w, w < 128 ∧ (role c).target c w = role b ∧ (s.entryAt c w).toNat = b

end AsePlusPlus
