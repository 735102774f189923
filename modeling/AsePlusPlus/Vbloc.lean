import AsePlusPlus.BlockMap

namespace AsePlusPlus
open Words Program Chain

variable {role role' role'' : Nat → Role} {free free' free'' rest : List Nat} {s t u : Machine} {i f b : Nat}
variable {inumber fbloc : Word} {doAllocate : Bool}

-- The word arithmetic of the double indirect branch.
theorem far_index (low : 252 ≤ fbloc.toNat) (high : fbloc.toNat < 888) :
    ((fbloc-252) / (512/4) - 4 + 4).toNat = (fbloc.toNat-252)/128 ∧
    ((fbloc-252) % (512/4) - 4 + 4).toNat = (fbloc.toNat-252)%128 := by
  have width : (512/4 : Word) = 128 := by decide
  have constant : (252 : Word).toNat = 252 ∧ (128 : Word).toNat = 128 := ⟨rfl,rfl⟩
  have offset : (fbloc-252).toNat = fbloc.toNat-252 := by rw [BitVec.toNat_sub]; omega
  rw [width,BitVec.sub_add_cancel,BitVec.sub_add_cancel,BitVec.toNat_udiv,BitVec.toNat_umod,offset]
  exact ⟨rfl,rfl⟩

theorem table_entry (s : Machine) (b : Nat) (small : k < 128) : cell (Table.decode (s.blk b)) k = s.entryAt b k :=
  Table.cell_decode _ small

@[simp] theorem load_entryAt (s : Machine) (b c k : Nat) : (s.load b).entryAt c k = s.entryAt c k := rfl

theorem runs_directBloc_read (direct : fbloc.toNat < 124)
    (settled : doAllocate = false ∨ s.lookup inumber.toNat fbloc.toNat ≠ 0) :
    Returns (directBloc inumber (s.inodeAt inumber.toNat) fbloc doAllocate) s fun r t =>
      r = s.lookup inumber.toNat fbloc.toNat ∧ Quiet s t := by
  have lookup := lookup_direct s inumber.toNat direct
  rw [lookup] at settled ⊢
  unfold directBloc
  rw [inodeAt_direct _ _ direct]
  by_cases null : s.entryAt inumber.toNat (fbloc.toNat+2) = 0
  · have reading := settled.resolve_right (not_not_intro null)
    simp only [null,reading,and_self,if_true,Returns,runs_pure]
    exact ⟨rfl,Quiet.refl s⟩
  · simp only [null,false_and,if_false,Returns,runs_blocOrAllocate_kept null]
    exact ⟨trivial,Quiet.refl s⟩

-- The double and index blocs are read on the way down.
theorem runs_doubleIndirectBloc_read (layout : Layout s role free) (node : role inumber.toNat = .inode)
    (low : 252 ≤ fbloc.toNat) (high : fbloc.toNat < 888)
    (settled : doAllocate = false ∨ s.lookup inumber.toNat fbloc.toNat ≠ 0) :
    Returns (doubleIndirectBloc inumber (s.inodeAt inumber.toNat) (fbloc-252) doAllocate) s fun r t =>
      r = s.lookup inumber.toNat fbloc.toNat ∧ Quiet s t := by
  obtain ⟨slot,leaf⟩ := far_index low high
  have lookup := lookup_far s inumber.toNat low high
  unfold doubleIndirectBloc
  rw [inodeAt_double]
  by_cases null : s.entryAt inumber.toNat 127 = 0
  · have none : s.indexOf inumber.toNat fbloc.toNat = 0 := if_pos null
    rw [if_pos none] at lookup
    have reading := settled.resolve_right (not_not_intro lookup)
    simp only [null,reading,and_self,if_true,Returns,runs_pure,lookup]
    exact ⟨rfl,Quiet.refl s⟩
  have index : s.indexOf inumber.toNat fbloc.toNat = s.entryAt (s.entryAt inumber.toNat 127).toNat ((fbloc.toNat-252)/128) :=
    if_neg null
  have double := layout.double_role node null
  have inside := (layout.bound double (by simp)).2
  simp only [null,false_and,if_false,Returns,runs_bind,runs_blocOrAllocate_kept null,runs_current,
    runs_readBloc layout.mounted inside,slot,leaf]
  rw [table_entry _ _ (by omega),← index,runs_ite]
  by_cases hole : s.indexOf inumber.toNat fbloc.toNat = 0
  · rw [if_pos hole] at lookup
    have reading := settled.resolve_right (not_not_intro lookup)
    rw [if_pos ⟨hole,reading⟩,lookup]
    exact ⟨rfl,Quiet.load _ _⟩
  rw [if_neg hole] at lookup
  have bound := (layout.bound (layout.index_role node high hole) (by simp)).2
  have mounted : Mounted (s.load (s.entryAt inumber.toNat 127).toNat) := (load_mounted _ _).mpr layout.mounted
  have quiet := (Quiet.load s (s.entryAt inumber.toNat 127).toNat).trans
    (Quiet.load _ (s.indexOf inumber.toNat fbloc.toNat).toNat)
  rw [if_neg (fun both => hole both.1)]
  simp only [runs_bind,runs_blocOrAllocate_kept hole,runs_current,runs_readBloc mounted bound]
  rw [table_entry _ _ (by omega),runs_ite,load_entryAt,← lookup]
  by_cases last : s.lookup inumber.toNat fbloc.toNat = 0
  · have reading := settled.resolve_right (not_not_intro last)
    rw [if_pos ⟨last,reading⟩,last]
    exact ⟨rfl,quiet⟩
  · rw [if_neg (fun both => last both.1),runs_blocOrAllocate_kept last]
    exact ⟨rfl,quiet⟩

-- A lookup, and an allocation that finds the position mapped, only read.
theorem runs_vbloc_read (layout : Layout s role free) (node : role inumber.toNat = .inode)
    (reach : Supported fbloc.toNat) (settled : doAllocate = false ∨ s.lookup inumber.toNat fbloc.toNat ≠ 0) :
    Returns (vblocOfFbloc inumber fbloc doAllocate) s fun r t => r = s.lookup inumber.toNat fbloc.toNat ∧ Quiet s t := by
  have inside := (layout.bound node (by simp)).2
  have quiet := Quiet.load s inumber.toNat
  have loaded := layout.quiet quiet
  have onward : ∀ r t, r = (s.load inumber.toNat).lookup inumber.toNat fbloc.toNat ∧ Quiet (s.load inumber.toNat) t →
      r = s.lookup inumber.toNat fbloc.toNat ∧ Quiet s t := fun r t post => ⟨post.1,quiet.trans post.2⟩
  rw [vblocOfFbloc_eq,Returns,runs_bind,runs_readInode layout.mounted inside]
  rcases reach with direct | ⟨low,high⟩
  · rw [if_pos direct]
    exact (runs_directBloc_read (s := s.load inumber.toNat) direct settled).mono onward (fun _ _ => id)
  · rw [if_neg (by omega),if_neg (by omega),if_pos high]
    exact (runs_doubleIndirectBloc_read loaded node low high settled).mono onward (fun _ _ => id)

theorem needed_le (s : Machine) (i f : Nat) : needed s i f ≤ 3 := by
  unfold needed
  split
  · split <;> decide
  split
  · decide
  split
  · decide
  split <;> decide

-- The two ways in which an allocating call that lacks `need` blocs ends: the
-- position is mapped, or the chain runs dry and bloc 0 is lost.
inductive Ended (s t : Machine) (free free' : List Nat) (need : Nat) (v : Word) : Prop
  | mapped (live : v ≠ 0) (sound : Sound s t) (count : free.length = free'.length+need)
  | short (none : v = 0) (full' : free' = []) (lack : free.length < need) (lost : t.blk 0 = zeros 8 512)

def Allocates (s t : Machine) (role : Nat → Role) (free : List Nat) (i f : Nat) (v : Word) : Prop :=
  ∃ role' free', Grew s t role role' free free' ∧ v = t.lookup i f ∧ Ended s t free free' (needed s i f) v

-- One table on the way down, when allocation is asked for.
def tableLevel (table : Word) (k : Nat) : M Word := do
  let entries := Table.decode (← readBloc (← current) table)
  blocOrAllocate (cell entries k) fun bloc => do
    writeBloc (← current) table (Table.encode (put entries k bloc))

theorem runs_doubleIndirectBloc {Q : Word → Machine → Prop} {E : Stop → Machine → Prop} {inode : Inode}
    (low : 252 ≤ fbloc.toNat) (high : fbloc.toNat < 888) :
    Runs (doubleIndirectBloc inumber inode (fbloc-252) true) s Q E ↔
      Runs (blocOrAllocate inode.blocsDoubleIndirect fun bloc =>
          writeInode inumber {inode with blocsDoubleIndirect := bloc}) s
        (fun double t => Runs (tableLevel double ((fbloc.toNat-252)/128)) t
          (fun index u => Runs (tableLevel index ((fbloc.toNat-252)%128)) u Q E) E) E := by
  obtain ⟨slot,leaf⟩ := far_index low high
  simp only [doubleIndirectBloc,tableLevel,Bool.true_eq_false,and_false,if_false,runs_bind,runs_current,slot,leaf]

theorem runs_tableLevel {table : Word} {k : Nat} (layout : Layout s role free) (small : k < 128)
    (pointer : (role table.toNat).target table.toNat k ≠ .none) :
    Returns (tableLevel table k) s fun v t => ∃ role' free', Grew s t role role' free free' ∧
      v = t.entryAt table.toNat k ∧ Staged s t free free' table.toNat k v := by
  have real := pointer_real pointer
  have quiet := Quiet.load s table.toNat
  have stores := writeTable_stores (put (Table.decode (s.blk table.toNat)) k)
    (fun p => encode_table (s.blk table.toNat) p small) table s.currentVolume
  have stage := runs_stage (layout.quiet quiet) pointer small stores
  simp only [tableLevel,Returns,runs_bind,runs_current,runs_readBloc layout.mounted (layout.inside _ real).2]
  rw [table_entry _ _ small]
  refine stage.mono ?_ (fun _ _ => id)
  intro v t post
  obtain ⟨role',free',grew,value,ending⟩ := post
  refine ⟨role',free',(quiet.grew layout).trans grew,value,?_⟩
  cases ending with
  | kept live same still count => exact .kept live same (quiet.trans still) count
  | made null live sound count clear => exact .made null live (quiet.sound.trans sound) count clear
  | short null none full full' lost => exact .short null none full full' lost

-- Below a pointer that could not be created bloc 0 is taken for a table.
theorem runs_tableLevel_drained (m : Mounted s) (full : s.super.premierLibre = 0) (clear : s.blk 0 = zeros 8 512)
    (small : k < 128) :
    Returns (tableLevel 0 k) s fun v t => v = 0 ∧ Starved s t ∧ t.blk 0 = zeros 8 512 := by
  have inside : (0 : Word).toNat < s.nsec := Nat.lt_of_lt_of_le (by decide : 0 < 2) m.room
  have loaded : Mounted (s.load 0) := (load_mounted _ _).mpr m
  have cleared : Mounted (s.load 0).cleared := (store_mounted _ _ _ _).mpr loaded
  have stores := writeTable_stores (put (Table.decode (s.blk 0)) k)
    (fun p => encode_table (s.blk 0) p small) 0 s.currentVolume
  have null : cell (Table.decode (s.blk 0)) k = 0 := by
    rw [Table.cell_decode _ small,clear,wordAt_zeros]
  have empty : putWord (s.blk 0) k 0 = zeros 8 512 := by
    rw [putWord_same,clear]
    rw [clear,wordAt_zeros]
  simp only [tableLevel,Returns,runs_bind,runs_current,runs_readBloc m inside]
  rw [show (0 : Word).toNat = 0 from rfl,null,runs_blocOrAllocate_full loaded full,
    stores 0 _ _ _ cleared inside rfl,show (0 : Word).toNat = 0 from rfl,empty]
  refine ⟨rfl,⟨?_,rfl,?_⟩,(store_blk _ _ _ _ _).trans (if_pos rfl)⟩
  · exact ((Quiet.load s 0).starved.trans (cleared_starved loaded)).within.trans
      (.store (s := (s.load 0).cleared) inside _ _)
  · intro c live
    rw [store_blk,if_neg live]
    exact (cleared_starved loaded).kept c live

theorem runs_directBloc (layout : Layout s role free) (node : role inumber.toNat = .inode)
    (direct : fbloc.toNat < 124) :
    Returns (directBloc inumber (s.inodeAt inumber.toNat) fbloc true) s fun v t =>
      Allocates s t role free inumber.toNat fbloc.toNat v := by
  have stores := writeInode_stores
    (fun p => {s.inodeAt inumber.toNat with blocsDirects := put (s.inodeAt inumber.toNat).blocsDirects fbloc.toNat p})
    (fun p => encode_direct (s.blk inumber.toNat) p direct) inumber s.currentVolume
  have pointer : (role inumber.toNat).target inumber.toNat (fbloc.toNat+2) ≠ .none := by
    rw [node,target_direct _ direct]
    simp
  have stage := runs_stage layout pointer (by omega) stores
  have lookup := fun m : Machine => lookup_direct m inumber.toNat direct
  simp only [directBloc,inodeAt_direct _ _ direct,Bool.true_eq_false,and_false,if_false]
  refine stage.mono ?_ (fun _ _ => id)
  intro v t post
  obtain ⟨role',free',grew,value,ending⟩ := post
  refine ⟨role',free',grew,value.trans (lookup t).symm,?_⟩
  unfold needed
  rw [if_pos direct,lookup s]
  cases ending with
  | kept live same quiet count =>
      rw [if_neg live]
      exact .mapped (by rw [same]; exact live) quiet.sound (by rw [count]; rfl)
  | made null live sound count clear =>
      rw [if_pos null]
      exact .mapped live sound count
  | short null none full full' lost =>
      rw [if_pos null]
      exact .short none full' (by rw [full]; decide) lost

-- What a pointer leads to, one level down.
def below (s : Machine) (v : Word) (j : Nat) : Word := if v = 0 then 0 else s.entryAt v.toNat j

theorem runs_leaf {table : Word} {k j : Nat} (layout : Layout s role free) (small : j < 128)
    (owner : role table.toNat = .index i k) (live : table ≠ 0) :
    Returns (tableLevel table j) s fun v t => ∃ role' free', Grew s t role role' free free' ∧
      v = below t table j ∧ Ended s t free free' (if s.entryAt table.toNat j = 0 then 1 else 0) v := by
  refine (runs_tableLevel layout small (by simp [owner,Role.target])).mono ?_ (fun _ _ => id)
  intro v t post
  obtain ⟨role',free',grew,value,ending⟩ := post
  refine ⟨role',free',grew,by rw [below,if_neg live]; exact value,?_⟩
  cases ending with
  | kept live same quiet count =>
      rw [if_neg live]
      exact .mapped (by rw [same]; exact live) quiet.sound (by rw [count]; rfl)
  | made null live sound count clear =>
      rw [if_pos null]
      exact .mapped live sound count
  | short null none full full' lost =>
      rw [if_pos null]
      exact .short none full' (by rw [full]; decide) lost

theorem Ended.after (ended : Ended t u free' free'' need v) (sound : Sound s t)
    (count : free.length = free'.length+more) : Ended s u free free'' (more+need) v := by
  cases ended with
  | mapped live sound' count' => exact .mapped live (sound.trans sound') (by omega)
  | short none full lack lost => exact .short none full (by omega) lost

-- Once the chain is dry every level below is null as well.
theorem runs_drained (m : Mounted s) (full : s.super.premierLibre = 0) (clear : s.blk 0 = zeros 8 512)
    (small : k < 128) (small' : j < 128) :
    Returns (tableLevel 0 k >>= fun index => tableLevel index j) s fun v t =>
      v = 0 ∧ Starved s t ∧ t.blk 0 = zeros 8 512 := by
  rw [Returns,runs_bind]
  refine (runs_tableLevel_drained m full clear small).mono ?_ (fun _ _ => id)
  intro v t post
  obtain ⟨rfl,starved,clear'⟩ := post
  have mounted := starved.within.mounted m (by rw [starved.super]; exact m.super)
  refine (runs_tableLevel_drained mounted (by rw [starved.super]; exact full) clear' small').mono ?_ (fun _ _ => id)
  intro v u post
  obtain ⟨rfl,starved',clear''⟩ := post
  exact ⟨rfl,starved.trans starved',clear''⟩

theorem runs_path {double : Word} {k j : Nat} (layout : Layout s role free) (small : k < 128) (small' : j < 128)
    (owner : role double.toNat = .double i) :
    Returns (tableLevel double k >>= fun index => tableLevel index j) s fun v t => ∃ role' free',
      Grew s t role role' free free' ∧ v = below t (t.entryAt double.toNat k) j ∧
      Ended s t free free' (if s.entryAt double.toNat k = 0 then 2 else
        if s.entryAt (s.entryAt double.toNat k).toNat j = 0 then 1 else 0) v := by
  have live := (layout.bound owner (by simp)).1
  rw [Returns,runs_bind]
  refine (runs_tableLevel layout small (by simp [owner,Role.target])).mono ?_ (fun _ _ => id)
  intro index t post
  obtain ⟨role',free',grew,value,ending⟩ := post
  have owner' : role' double.toNat = .double i := by rw [grew.roles _ (by simp [owner]),owner]
  by_cases null : index = 0
  · cases ending with
    | kept some same => rw [null] at same; exact absurd same.symm some
    | made _ some => exact absurd null some
    | short hole none full full' lost =>
        subst full' null
        refine (runs_tableLevel_drained grew.layout.mounted grew.layout.chain.empty lost small').mono ?_ (fun _ _ => id)
        intro v u post
        obtain ⟨rfl,starved,lost'⟩ := post
        have still : u.entryAt double.toNat k = 0 :=
          (congrArg (wordAt · k) (starved.kept _ live)).trans value.symm
        refine ⟨role',[],grew.trans (starved.grew grew.layout),by rw [still]; rfl,?_⟩
        rw [if_pos hole,full]
        exact .short rfl rfl (by decide) lost'
  have some : t.entryAt double.toNat k ≠ 0 := by rw [← value]; exact null
  have indexed := grew.layout.points owner' k small (by simp [Role.target]) some
  rw [← value] at indexed
  refine (runs_leaf grew.layout small' indexed null).mono ?_ (fun _ _ => id)
  intro v u post
  obtain ⟨role'',free'',grew',value',ended⟩ := post
  have stays : u.entryAt double.toNat k = index := by
    rw [grew'.pointers _ _ small (by simp [owner',Role.target]) some,value]
  refine ⟨role'',free'',grew.trans grew',by rw [stays]; exact value',?_⟩
  cases ending with
  | kept live same quiet count =>
      have entry : t.entryAt index.toNat j = s.entryAt index.toNat j := congrArg (wordAt · j) (quiet.blk _)
      rw [if_neg live,← same,← entry,← Nat.zero_add (ite _ _ _)]
      exact ended.after quiet.sound (by rw [count]; rfl)
  | made hole some sound count clear =>
      have entry : t.entryAt index.toNat j = 0 := (congrArg (wordAt · j) clear).trans (wordAt_zeros j)
      rw [if_pos entry] at ended
      rw [if_pos hole]
      exact ended.after sound count
  | short hole none => exact absurd none null

theorem lookup_below (s : Machine) (i : Nat) (low : 252 ≤ f) (high : f < 888) : s.lookup i f =
    if s.entryAt i 127 = 0 then 0 else below s (s.entryAt (s.entryAt i 127).toNat ((f-252)/128)) ((f-252)%128) := by
  rw [lookup_far s i low high]
  unfold Machine.indexOf below
  by_cases null : s.entryAt i 127 = 0
  · rw [if_pos null,if_pos rfl,if_pos null]
  · rw [if_neg null,if_neg null]

theorem runs_far (layout : Layout s role free) (node : role inumber.toNat = .inode)
    (low : 252 ≤ fbloc.toNat) (high : fbloc.toNat < 888) :
    Returns (doubleIndirectBloc inumber (s.inodeAt inumber.toNat) (fbloc-252) true) s fun v t =>
      Allocates s t role free inumber.toNat fbloc.toNat v := by
  have stores := writeInode_stores
    (fun p => {s.inodeAt inumber.toNat with blocsDoubleIndirect := p})
    (fun p => encode_double (s.blk inumber.toNat) p) inumber s.currentVolume
  have small : (fbloc.toNat-252)/128 < 128 := by omega
  have small' : (fbloc.toNat-252)%128 < 128 := by omega
  have live := (layout.bound node (by simp)).1
  have lookup := fun m : Machine => lookup_below m inumber.toNat low high
  have need : needed s inumber.toNat fbloc.toNat = if s.entryAt inumber.toNat 127 = 0 then 3 else
      if s.entryAt (s.entryAt inumber.toNat 127).toNat ((fbloc.toNat-252)/128) = 0 then 2 else
      if s.entryAt (s.entryAt (s.entryAt inumber.toNat 127).toNat ((fbloc.toNat-252)/128)).toNat
        ((fbloc.toNat-252)%128) = 0 then 1 else 0 := by
    unfold needed
    rw [if_neg (by omega),lookup s]
    unfold Machine.indexOf below
    by_cases null : s.entryAt inumber.toNat 127 = 0
    · rw [if_pos null,if_pos null]
    · simp only [if_neg null]
      by_cases hole : s.entryAt (s.entryAt inumber.toNat 127).toNat ((fbloc.toNat-252)/128) = 0
      · rw [if_pos hole,if_pos hole]
      · simp only [if_neg hole]
  rw [Returns,runs_doubleIndirectBloc low high,inodeAt_double]
  refine (runs_stage layout (by rw [node]; simp [Role.target]) (by decide) stores).mono ?_ (fun _ _ => id)
  intro double t post
  obtain ⟨role',free',grew,value,ending⟩ := post
  have node' := grew.node node
  rw [← runs_bind]
  by_cases null : double = 0
  · cases ending with
    | kept some same => rw [null] at same; exact absurd same.symm some
    | made _ some => exact absurd null some
    | short hole none full full' lost =>
        subst full' null
        refine (runs_drained grew.layout.mounted grew.layout.chain.empty lost small small').mono ?_ (fun _ _ => id)
        intro v u post
        obtain ⟨rfl,starved,lost'⟩ := post
        have still : u.entryAt inumber.toNat 127 = 0 :=
          (congrArg (wordAt · 127) (starved.kept _ live)).trans value.symm
        refine ⟨role',[],grew.trans (starved.grew grew.layout),by rw [lookup u,if_pos still],?_⟩
        rw [need,if_pos hole,full]
        exact .short rfl rfl (by decide) lost'
  have some : t.entryAt inumber.toNat 127 ≠ 0 := by rw [← value]; exact null
  have owner := grew.layout.double_role node' some
  rw [← value] at owner
  refine (runs_path grew.layout small small' owner).mono ?_ (fun _ _ => id)
  intro v u post
  obtain ⟨role'',free'',grew',value',ended⟩ := post
  have stays : u.entryAt inumber.toNat 127 = double := by
    rw [grew'.pointers _ _ (by decide) (by simp [node',Role.target]) some,value]
  refine ⟨role'',free'',grew.trans grew',by rw [lookup u,stays,if_neg null]; exact value',?_⟩
  rw [need]
  cases ending with
  | kept live same quiet count =>
      have entry : ∀ b k, t.entryAt b k = s.entryAt b k := fun b k => congrArg (wordAt · k) (quiet.blk b)
      simp only [entry] at ended
      rw [if_neg live,← same,← Nat.zero_add (ite _ _ _)]
      exact ended.after quiet.sound (by rw [count]; rfl)
  | made hole some sound count clear =>
      have entry : ∀ k, t.entryAt double.toNat k = 0 := fun k => (congrArg (wordAt · k) clear).trans (wordAt_zeros k)
      rw [if_pos (entry _)] at ended
      rw [if_pos hole]
      exact ended.after sound count
  | short hole none => exact absurd none null

-- An allocation at any position that the map supports.
theorem runs_vbloc_allocate (layout : Layout s role free) (node : role inumber.toNat = .inode)
    (reach : Supported fbloc.toNat) :
    Returns (vblocOfFbloc inumber fbloc true) s fun v t => Allocates s t role free inumber.toNat fbloc.toNat v := by
  have inside := (layout.bound node (by simp)).2
  have quiet := Quiet.load s inumber.toNat
  have loaded := layout.quiet quiet
  have onward : ∀ v t, Allocates (s.load inumber.toNat) t role free inumber.toNat fbloc.toNat v →
      Allocates s t role free inumber.toNat fbloc.toNat v := by
    intro v t post
    obtain ⟨role',free',grew,value,ended⟩ := post
    refine ⟨role',free',(quiet.grew layout).trans grew,value,?_⟩
    have total := ended.after quiet.sound (Nat.add_zero free.length).symm
    rw [Nat.zero_add] at total
    exact total
  rw [vblocOfFbloc_eq,Returns,runs_bind,runs_readInode layout.mounted inside]
  rcases reach with direct | ⟨low,high⟩
  · rw [if_pos direct]
    exact (runs_directBloc loaded node direct).mono onward (fun _ _ => id)
  · rw [if_neg (by omega),if_neg (by omega),if_pos high]
    exact (runs_far loaded node low high).mono onward (fun _ _ => id)

def Inode.fresh (type : FileType) : Inode := ⟨type.code,0,zeros 32 124,0,0⟩

theorem fresh_word (type : FileType) (low : 0 < k) (small : k < 128) : wordAt (Inode.fresh type).encode k = 0 := by
  rw [word_encode _ small]
  unfold Inode.word Inode.fresh
  rw [if_neg (by omega)]
  split
  · rfl
  split
  · exact cell_zeros _
  split <;> rfl

theorem fresh_type (type : FileType) : wordAt (Inode.fresh type).encode 0 = type.code := word_encode _ (by decide)

theorem fresh_ok (role : Nat → Role) (b : Nat) (type : FileType) (node : role b = .inode) :
    BlockOk role b (Inode.fresh type).encode := by
  refine ⟨fun _ => fresh_word type (by decide) (by decide),fun w small pointer live => ?_⟩
  by_cases low : w = 0
  · subst w
    rw [node] at pointer
    simp [Role.target] at pointer
  · exact absurd (fresh_word type (by omega) small) live

theorem runs_createInode {Q : Word → Machine → Prop} {E : Stop → Machine → Prop} (type : FileType)
    (layout : Layout s role (b :: rest)) :
    Runs (createInode type) s Q E ↔ Q s.super.premierLibre (s.claimed (Inode.fresh type).encode) := by
  have live := layout.chain.head_ne
  have inside : s.super.premierLibre.toNat < s.took.nsec := by
    rw [layout.chain.head]
    exact layout.chain.inside b (by simp)
  have write := fun (P : Unit → Machine → Prop) => runs_writeBloc (Q := P) (E := E) (took_mounted layout.mounted) inside
  simp only [createInode,runs_bind,layout.chain.runs_newBloc layout.mounted,if_neg live,writeInode,runs_current,
    write,runs_pure]
  rfl

theorem runs_createInode_full {Q : Word → Machine → Prop} {E : Stop → Machine → Prop} (type : FileType)
    (full : s.super.premierLibre = 0) : Runs (createInode type) s Q E ↔ Q 0 s := by
  simp only [createInode,runs_bind,runs_newBloc_full full,if_true,runs_pure]
  rfl

theorem runs_createIfile {Q : Word → Machine → Prop} {E : Stop → Machine → Prop} (type : FileType)
    (layout : Layout s role (b :: rest)) :
    Runs (createIfile type) s Q E ↔ Q s.super.premierLibre (s.claimed (Inode.fresh type).encode) := by
  have live := layout.chain.head_ne
  rw [createIfile,runs_bind,runs_createInode type layout,runs_bind,runs_ensure,if_pos live,runs_pure]

theorem createInode_carries (type : FileType) (layout : Layout s role (b :: rest)) :
    Carries s (s.claimed (Inode.fresh type).encode) role (Function.update role b .inode) (b :: rest) rest :=
  layout.claimed_carries (fresh_ok _ _ _ (Function.update_self _ _ _))

theorem createInode_sound (type : FileType) (layout : Layout s role (b :: rest)) :
    Sound s (s.claimed (Inode.fresh type).encode) := by
  have bound := layout.bound ((layout.vacant b).mpr (by simp)) (by simp)
  have taken : s.super.premierLibre.toNat < s.took.nsec := by rw [layout.chain.head]; exact bound.2
  exact ⟨(Confined.took layout.mounted).trans (Confined.store taken layout.chain.head_ne _),
    fun _ => claimed_synced s _ layout.chain.head_ne⟩

theorem createInode_entry (type : FileType) (layout : Layout s role (b :: rest)) (k : Nat) :
    (s.claimed (Inode.fresh type).encode).entryAt b k = wordAt (Inode.fresh type).encode k := by
  have bound := layout.bound ((layout.vacant b).mpr (by simp)) (by simp)
  unfold Machine.entryAt
  rw [claimed_blk _ _ bound.1,if_pos layout.chain.head.symm]

-- The new file maps nothing.
theorem createInode_lookup (type : FileType) (layout : Layout s role (b :: rest)) (f : Nat) :
    (s.claimed (Inode.fresh type).encode).lookup b f = 0 := by
  have entry : ∀ k, 0 < k → k < 128 → (s.claimed (Inode.fresh type).encode).entryAt b k = 0 := fun k low small => by
    rw [createInode_entry type layout,fresh_word type low small]
  by_cases direct : f < 124
  · rw [lookup_direct _ _ direct,entry _ (by omega) (by omega)]
  by_cases far : Supported f
  · obtain ⟨low,high⟩ := far.resolve_left direct
    rw [lookup_below _ _ low high,if_pos (entry 127 (by decide) (by decide))]
  · exact lookup_unsupported _ _ far

end AsePlusPlus
