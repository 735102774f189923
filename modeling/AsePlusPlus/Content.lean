import AsePlusPlus.Vbloc

namespace AsePlusPlus
open Words Program

variable {role role' role'' : Nat → Role} {free free' free'' : List Nat} {s t u : Machine} {i j f g c : Nat}
variable {x : Sector} {call : WriteCall}

-- A bloc rewritten without touching a pointer or the type of an inode.
theorem Layout.store_extends (layout : Layout s role free) (busy : role c ≠ .free) (real : role c ≠ .none)
    (ok : BlockOk role c x) (same : ∀ v, v < 128 → (role c).target c v ≠ .none → wordAt x v = s.entryAt c v)
    (type : role c = .inode → wordAt x 0 = s.entryAt c 0) :
    Extends s (s.store c x call) role role free free := by
  have inside := (layout.inside c real).2
  have entry : ∀ d v, (d = c → wordAt x v = s.entryAt c v) → (s.store c x call).entryAt d v = s.entryAt d v := by
    intro d v equal
    unfold Machine.entryAt
    rw [store_blk]
    split
    · rename_i here; subst here; exact equal rfl
    · rfl
  have pointers : ∀ d v, v < 128 → (role d).target d v ≠ .none → (s.store c x call).entryAt d v = s.entryAt d v := by
    intro d v small target
    exact entry d v (by rintro rfl; exact same v small target)
  refine ⟨⟨layout.store busy ok _,.store inside _ _,⟨_,_,rfl⟩,⟨[],rfl⟩,fun _ _ => rfl,fun _ named => named,?_,
    fun d v small target _ => pointers d v small target,fun i f node _ => layout.lookup_same node pointers,?_⟩,
    fun _ node => node⟩
  · intro i node
    exact entry i 0 (by rintro rfl; exact type node)
  · intro owned b named taken leaf
    obtain ⟨d,v,small,target,reached⟩ := owned b named taken leaf
    exact ⟨d,v,small,target,by rw [pointers d v small (by rw [target]; exact named)]; exact reached⟩

-- The bloc of a mapped position rewritten.
def Machine.filled (s : Machine) (i f : Nat) (x : Sector) : Machine :=
  s.store (s.lookup i f).toNat x (.bloc s.currentVolume (s.lookup i f))

-- The size of an inode rewritten.
def Machine.resized (s : Machine) (i : Word) (size : Word) : Machine :=
  s.store i.toNat (putWord (s.blk i.toNat) 1 size) (.bloc s.currentVolume i)

section filled
variable (layout : Layout s role free) (node : role i = .inode) (mapped : s.lookup i f ≠ 0)
include layout node mapped

theorem runs_filled {Q : Unit → Machine → Prop} {E : Stop → Machine → Prop} (x : Sector) :
    Runs (writeBloc s.currentVolume (s.lookup i f) x) s Q E ↔ Q () (s.filled i f x) :=
  runs_writeBloc layout.mounted (layout.lookup_inside node mapped).2 x

theorem filled_extends (x : Sector) : Extends s (s.filled i f x) role role free free := by
  have used := layout.lookup_role node mapped
  refine layout.store_extends (by simp [used]) (by simp [used]) ⟨?_,?_⟩ ?_ ?_
  · rw [used]; simp
  · intro w _ target; simp [used,Role.target] at target
  · intro v _ target; simp [used,Role.target] at target
  · rw [used]; simp

theorem filled_sound (x : Sector) : Sound s (s.filled i f x) := by
  obtain ⟨live,inside⟩ := layout.lookup_inside node mapped
  refine ⟨Confined.store inside mapped x,fun synced => ?_⟩
  unfold Synced Machine.filled at *
  rw [store_blk,if_neg live.symm]
  exact synced

theorem filled_lookup (x : Sector) (other : role j = .inode) (g : Nat) : (s.filled i f x).lookup j g = s.lookup j g := by
  have used := layout.lookup_role node mapped
  refine layout.lookup_same other fun c v small target => ?_
  unfold Machine.entryAt Machine.filled
  rw [store_blk,if_neg]
  intro same
  obtain rfl := same
  simp [used,Role.target] at target

theorem filled_fblock (x : Sector) (other : role j = .inode) (g : Nat) :
    (s.filled i f x).fblock j g = if j = i ∧ g = f then x else s.fblock j g := by
  unfold Machine.fblock
  rw [filled_lookup layout node mapped x other]
  by_cases null : s.lookup j g = 0
  · rw [if_pos null,if_pos null,if_neg]
    intro post
    obtain ⟨rfl,rfl⟩ := post
    exact mapped null
  rw [if_neg null,if_neg null]
  unfold Machine.filled
  rw [store_blk]
  by_cases same : j = i ∧ g = f
  · obtain ⟨rfl,rfl⟩ := same
    rw [if_pos rfl,if_pos ⟨rfl,rfl⟩]
  · rw [if_neg same,if_neg]
    intro equal
    exact same (layout.lookup_injective other node null (BitVec.eq_of_toNat_eq equal))

theorem filled_size (x : Sector) (other : role j = .inode) (v : Nat) :
    (s.filled i f x).entryAt j v = s.entryAt j v := by
  have used := layout.lookup_role node mapped
  unfold Machine.entryAt Machine.filled
  rw [store_blk,if_neg]
  intro same
  obtain rfl := same
  rw [other] at used
  cases used

end filled

section resized
variable {inumber : Word} (layout : Layout s role free) (node : role inumber.toNat = .inode) (size : Word)
include layout node

theorem resized_extends : Extends s (s.resized inumber size) role role free free := by
  have ok := layout.blocks inumber.toNat
  have word : ∀ v, v < 128 → v ≠ 1 → wordAt (putWord (s.blk inumber.toNat) 1 size) v = s.entryAt inumber.toNat v := by
    intro v small other
    rw [wordAt_putWord _ _ (by omega),if_neg other]
    rfl
  have pointer : ∀ v, (role inumber.toNat).target inumber.toNat v ≠ .none → v ≠ 1 := by
    intro v target same
    obtain rfl := same
    rw [node] at target
    simp [Role.target] at target
  refine layout.store_extends (by simp [node]) (by simp [node]) ⟨?_,?_⟩ ?_ ?_
  · intro inode
    rw [word 126 (by decide) (by decide)]
    exact ok.indirect inode
  · intro w small target live
    rw [word w small (pointer w target)] at live ⊢
    exact ok.points w small target live
  · exact fun v small target => word v small (pointer v target)
  · exact fun _ => word 0 (by decide) (by decide)

theorem resized_sound : Sound s (s.resized inumber size) := by
  obtain ⟨live,inside⟩ := layout.bound node (by simp)
  have nonzero : inumber ≠ 0 := by rintro rfl; exact live rfl
  refine ⟨Confined.store inside nonzero _,fun synced => ?_⟩
  unfold Synced Machine.resized at *
  rw [store_blk,if_neg live.symm]
  exact synced

theorem resized_lookup (other : role j = .inode) (g : Nat) : (s.resized inumber size).lookup j g = s.lookup j g := by
  refine layout.lookup_same other fun c v small target => ?_
  unfold Machine.entryAt Machine.resized
  rw [store_blk]
  split
  · rename_i same
    subst same
    rw [wordAt_putWord _ _ (by omega),if_neg]
    intro same
    obtain rfl := same
    rw [node] at target
    simp [Role.target] at target
  · rfl

theorem resized_fblock (other : role j = .inode) (g : Nat) : (s.resized inumber size).fblock j g = s.fblock j g := by
  unfold Machine.fblock
  rw [resized_lookup layout node size other]
  by_cases null : s.lookup j g = 0
  · rw [if_pos null,if_pos null]
  rw [if_neg null,if_neg null]
  have used := layout.lookup_role other null
  unfold Machine.resized
  rw [store_blk,if_neg]
  intro same
  rw [same,node] at used
  cases used

omit layout node in
theorem resized_entry (s : Machine) (inumber size : Word) (j : Nat) (small : v < 128) :
    (s.resized inumber size).entryAt j v = if j = inumber.toNat ∧ v = 1 then size else s.entryAt j v := by
  unfold Machine.entryAt Machine.resized
  rw [store_blk]
  by_cases same : j = inumber.toNat
  · subst same
    rw [if_pos rfl,wordAt_putWord _ _ (by omega)]
    by_cases one : v = 1
    · simp [one]
    · rw [if_neg one,if_neg (fun both => one both.2)]
  · rw [if_neg same,if_neg (fun both => same both.1)]

end resized

end AsePlusPlus
