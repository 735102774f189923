import Mathlib.Data.List.Nodup
import Mathlib.Data.List.Perm.Subperm
import AsePlusPlus.Creation

namespace AsePlusPlus
open Words Program

variable {role role' : Nat → Role} {free free' rest : List Nat} {s t : Machine} {fd : FileDesc} {path name : List Byte}
variable {b d f g i k n x : Nat} {idir inumber : Word}

-- A bloc of the direct branch is the one that the inode names.
theorem Owned.direct (owned : Owned s role) (used : role x = .data i f) (near : f < 124) :
    role i = .inode ∧ (s.lookup i f).toNat = x := by
  obtain ⟨c,w,_,target,reached⟩ := owned x (by simp [used]) (by simp [used]) (by simp [used])
  rw [used] at target
  cases parent : role c with
  | inode =>
      rw [parent] at target
      simp only [Role.target] at target
      split at target
      · rename_i inside
        cases target
        rw [lookup_direct _ _ near,show w-2+2 = w by omega]
        exact ⟨parent,reached⟩
      · split at target <;> cases target
  | index j k =>
      rw [parent] at target
      cases target
      omega
  | none => rw [parent] at target; cases target
  | free => rw [parent] at target; cases target
  | double j => rw [parent] at target; cases target
  | data j g => rw [parent] at target; cases target

-- What a direct position gets is taken from the chain.
theorem Owned.taken (owned : Owned s role) (carries : Carries s t role role' free free')
    (node : role' i = .inode) (near : f < 124) (mapped : t.lookup i f ≠ 0) (hole : role i = .inode → s.lookup i f = 0) :
    role (t.lookup i f).toNat = .free := by
  have used := carries.layout.lookup_role node mapped
  by_contra busy
  rw [carries.roles _ busy] at used
  obtain ⟨old,same⟩ := owned.direct used near
  rw [hole old] at same
  exact mapped (BitVec.eq_of_toNat_eq same.symm)

-- Blocs that have got a role are gone from the chain.
theorem Carries.spent (carries : Carries s t role role' free free') (layout : Layout s role free) (L : List Nat) (distinct : L.Nodup)
    (taken : ∀ y ∈ L, role y = .free ∧ role' y ≠ .free) : free'.length+L.length ≤ free.length := by
  obtain ⟨used,split⟩ := carries.used
  have inside : L ⊆ used := by
    intro y member
    obtain ⟨was,is⟩ := taken y member
    have there := (layout.vacant y).mp was
    rw [split] at there
    exact (List.mem_append.mp there).resolve_right fun left => is ((carries.layout.vacant y).mpr left)
  have count := (distinct.subperm inside).length_le
  rw [split,List.length_append]
  omega

-- Mapped positions of files are mapped to different blocs: the roles tell.
theorem lookups_nodup {L : List (Nat × Nat)} (layout : Layout s role free) (distinct : L.Nodup)
    (mapped : ∀ p ∈ L, role p.1 = .inode ∧ s.lookup p.1 p.2 ≠ 0) : (L.map fun p => (s.lookup p.1 p.2).toNat).Nodup := by
  refine List.Nodup.of_map role ?_
  have roles : (L.map fun p => (s.lookup p.1 p.2).toNat).map role = L.map fun p => Role.data p.1 p.2 := by
    rw [List.map_map]
    refine List.map_congr_left fun p member => ?_
    obtain ⟨node,live⟩ := mapped p member
    exact layout.lookup_role node live
  rw [roles]
  refine distinct.map fun p q same => ?_
  obtain ⟨file,position⟩ := Role.data.inj same
  exact Prod.ext file position

-- A new file, and the direct positions of files that were holes before: each has
-- taken a bloc of its own.
theorem Owned.spent {L : List (Nat × Nat)} (owned : Owned s role) (layout : Layout s role free)
    (carries : Carries s t role role' free free') (unused : role b = .free) (new : role' b = .inode) (distinct : L.Nodup)
    (mapped : ∀ p ∈ L, p.2 < 124 ∧ role' p.1 = .inode ∧ t.lookup p.1 p.2 ≠ 0 ∧ (role p.1 = .inode → s.lookup p.1 p.2 = 0)) :
    free'.length+(1+L.length) ≤ free.length := by
  have reached : ∀ p ∈ L, role' (t.lookup p.1 p.2).toNat = .data p.1 p.2 := by
    intro p member
    obtain ⟨_,node,live,_⟩ := mapped p member
    exact carries.layout.lookup_role node live
  have different := lookups_nodup carries.layout distinct fun p member => ⟨(mapped p member).2.1,(mapped p member).2.2.1⟩
  have apart : b ∉ L.map fun p => (t.lookup p.1 p.2).toNat := by
    intro member
    obtain ⟨p,there,same⟩ := List.mem_map.mp member
    have role := reached p there
    rw [same,new] at role
    cases role
  have spent := carries.spent layout _ (List.nodup_cons.mpr ⟨apart,different⟩) (by
    intro y member
    rcases List.mem_cons.mp member with here | member
    · rw [here]
      exact ⟨unused,by rw [new]; decide⟩
    · obtain ⟨p,there,same⟩ := List.mem_map.mp member
      obtain ⟨near,node,live,hole⟩ := mapped p there
      rw [← same]
      exact ⟨owned.taken carries node near live hole,by rw [reached p there]; simp⟩)
  rw [List.length_cons,List.length_map] at spent
  omega

-- The holes of a directory are filled, and a new file gets its first blocs.
theorem Owned.spent_on (owned : Owned s role) (layout : Layout s role free) (carries : Carries s t role role' free free')
    (node : role d = .inode) (unused : role b = .free) (new : role' b = .inode) (near : f+n ≤ 124) (near' : k ≤ 124)
    (parent : ∀ g, f ≤ g → g < f+n → t.lookup d g ≠ 0) (file : ∀ g, g < k → t.lookup b g ≠ 0) :
    free'.length+(1+s.holes d f n+k) ≤ free.length := by
  have apart : b ≠ d := by
    intro same
    rw [same,node] at unused
    cases unused
  let holes := (List.range' f n).filter fun g => s.lookup d g = 0
  have distinct : (holes.map (d,·) ++ (List.range k).map (b,·)).Nodup := by
    rw [List.nodup_append]
    have injective : ∀ i : Nat, Function.Injective (fun g : Nat => (i,g)) := fun i g h same => (Prod.mk.inj same).2
    refine ⟨((List.nodup_range').filter _).map (injective d),List.nodup_range.map (injective b),?_⟩
    intro x here y there same
    obtain ⟨g,_,first⟩ := List.mem_map.mp here
    obtain ⟨h,_,second⟩ := List.mem_map.mp there
    rw [← first,← second] at same
    exact apart (congrArg Prod.fst same).symm
  have spent := owned.spent layout carries unused new distinct (by
    intro p member
    rcases List.mem_append.mp member with here | here
    · obtain ⟨g,inside,same⟩ := List.mem_map.mp here
      obtain ⟨within,null⟩ := List.mem_filter.mp inside
      obtain ⟨low,high⟩ := List.mem_range'_1.mp within
      subst same
      exact ⟨by dsimp only; omega,carries.node node,parent g low high,fun _ => of_decide_eq_true null⟩
    · obtain ⟨g,inside,same⟩ := List.mem_map.mp here
      have small := List.mem_range.mp inside
      subst same
      refine ⟨by dsimp only; omega,new,file g small,fun old => ?_⟩
      have old : role b = .inode := old
      rw [unused] at old
      cases old)
  have count : holes.length = s.holes d f n := by
    unfold Machine.holes
    rw [List.countP_eq_length_filter]
  rw [List.length_append,List.length_map,List.length_map,List.length_range,count] at spent
  omega

-- The chain is empty, and one of the blocs under the text is a hole.
theorem runs_writeChars_cut (layout : Layout s role []) (owned : Owned s role) (node : role fd.file = .inode)
    (coherent : Coherent s fd) (text : List Byte) (near : fd.fdsPos.toNat+text.length < 63488) (hole : s.lookup fd.file g = 0)
    (high : 512*g < fd.fdsPos.toNat+text.length) (low : fd.block < g ∨ fd.block = g ∧ fd.fdsDirty = false ∧ text ≠ []) :
    Returns (writeChars text fd) s fun r t => r.1 = false ∧ r.2.fdsDirty = false ∧ r.2.file = fd.file ∧
      ∃ role', Extends s t role role' [] [] := by
  induction text generalizing fd s role with
  | nil =>
      rcases low with low | ⟨_,_,wrong⟩
      · unfold FileDesc.block at low
        rw [List.length_nil] at high
        omega
      · exact absurd rfl wrong
  | cons c rest ih =>
      rw [List.length_cons] at near high
      have block : fd.block = fd.fdsPos.toNat/512 := rfl
      have direct : fd.block < 124 := by omega
      rw [writeChars,Returns,runs_bind]
      by_cases stuck : fd.fdsDirty = false ∧ s.lookup fd.file fd.block = 0
      · obtain ⟨clean,null⟩ := stuck
        have need : ([] : List Nat).length < needed s fd.file fd.block := by
          unfold needed
          rw [if_pos direct,if_pos null]
          decide
        refine (runs_writec_short layout node c (Or.inl direct) clean need).mono ?_ (fun _ _ => id)
        intro result t post
        obtain ⟨status,fd'⟩ := result
        obtain ⟨role',free',grew,rfl,_,_,equal⟩ := post
        obtain ⟨rfl,rfl⟩ := Prod.mk.inj equal
        dsimp only
        rw [if_pos rfl,runs_pure]
        exact ⟨rfl,clean,rfl,role',grew.toExtends⟩
      -- in front of the hole a byte takes nothing, and the hole is the same behind it
      have price : fd.price s = 0 := by
        cases flag : fd.fdsDirty with
        | true => unfold FileDesc.price; rw [flag]; rfl
        | false =>
            rw [price_direct s flag (by omega),if_neg fun null => stuck ⟨flag,null⟩]
      have writing : Writing s s role role [] [] fd (s.viewAt fd) :=
        ⟨(Grew.refl layout).toExtends,node,fun _ _ => rfl,fun _ _ _ _ => rfl,coherent,fun _ => rfl⟩
      refine (writing.byte c (by omega) (by rw [price]; exact Nat.zero_le _)).mono ?_ (fun _ _ => id)
      intro result t post
      obtain ⟨r,fd'⟩ := result
      obtain ⟨accepted,role',free',byted⟩ := post
      have stepped := byted.stepped
      have left := byted.left
      dsimp only at accepted ⊢
      rw [if_neg accepted]
      rw [price,List.length_nil] at left
      obtain rfl : free' = [] := List.eq_nil_of_length_eq_zero (by omega)
      have after : Writing s t role role' [] [] fd' _ := byted.writing
      have file : fd'.file = fd.file := stepped.file
      have next : fd'.fdsPos.toNat = fd.fdsPos.toNat+1 := stepped.position
      have block' : fd'.block = fd'.fdsPos.toNat/512 := rfl
      have beyond : fd.block < g := by
        rcases low with low | ⟨here,clean,_⟩
        · exact low
        · exact absurd ⟨clean,by rw [here]; exact hole⟩ stuck
      have some : rest ≠ [] := by
        intro same
        subst same
        rw [List.length_nil] at high
        omega
      have hole' : t.lookup fd'.file g = 0 := by
        rw [file]
        by_contra mapped
        have taken := owned.taken after.toCarries (after.toExtends.node node) (by omega) mapped fun _ => hole
        exact absurd ((layout.vacant _).mp taken) (by simp)
      refine (ih after.layout (after.owned owned) (by rw [file]; exact after.toExtends.node node) after.coherent (by omega) hole'
        (by omega) ?_).mono ?_ (fun _ _ => id)
      · by_cases here : fd'.block = g
        · refine .inr ⟨here,?_,some⟩
          by_contra dirty
          refine after.coherent.dirty (by simpa using dirty) ?_
          rw [here]
          exact hole'
        · exact .inl (by omega)
      · intro r u post
        obtain ⟨failed,clean,same,role'',more⟩ := post
        exact ⟨failed,clean,same.trans file,role'',after.toExtends.trans more⟩

-- No slot is given up for a bloc that is missing under its last bytes: the
-- directory grows by the bytes in front, and the inode stays taken.
theorem runs_addEntry_cut (layout : Layout s role []) (browsable : Browsable s role) (owned : Owned s role)
    (node : role idir.toNat = .inode) (dir : s.IsDir idir.toNat) (room : s.vacancy idir.toNat < 3174)
    (hole : s.lookup idir.toNat g = 0) (low : 20*s.vacancy idir.toNat/512 ≤ g) (high : g ≤ (20*s.vacancy idir.toNat+19)/512) :
    Returns (addEntry idir inumber name) s fun r t => r = returnFailure ∧ ∃ role', Carries s t role role' [] [] := by
  have ok := browsable.dirs _ node dir
  refine runs_addEntry_at layout ok node dir fun fd t scan file still => ?_
  have length : (newcomer inumber name).encode.toList.length = 20 := Vector.length_toList
  generalize (newcomer inumber name).encode = buf at length ⊢
  have position := scan.position
  have block : fd.block = 20*s.vacancy idir.toNat/512 := by unfold FileDesc.block; rw [position]
  have node' : role fd.file = .inode := by rw [file]; exact node
  have writing := scan.toWriting
  have null : t.lookup fd.file g = 0 := by rw [still.same.lookup,file]; exact hole
  unfold storeEntry writeIfile
  rw [runs_bind,runs_bind]
  refine Runs.of_returns (runs_writeChars_cut writing.layout (writing.owned owned) node' writing.coherent buf.toList (by omega) null
    (by omega) ?_) ?_
  · by_cases first : fd.block = g
    · exact .inr ⟨first,scan.clean,List.ne_nil_of_length_pos (by omega)⟩
    · exact .inl (by omega)
  intro result u post
  obtain ⟨written,fd'⟩ := result
  obtain ⟨failed,clean,file',role',more⟩ := post
  dsimp only at failed clean file' ⊢
  have node'' : role' fd'.file = .inode := by rw [file']; exact more.node node'
  have inside := (more.layout.bound node'' (by simp)).2
  have quiet := Quiet.load u fd'.file
  rw [failed,if_neg (by decide),runs_pure,runs_bind,runs_close_clean more.layout.mounted inside clean,runs_pure]
  have closed := (quiet.grew more.layout).toExtends.trans (resized_extends (more.layout.quiet quiet) node'' fd'.fdsSize)
  exact ⟨rfl,role',(writing.toExtends.trans (more.trans closed)).toCarries⟩

-- The first free slot lacks one bloc at most.
theorem lacks_vacancy (ok : DirOk s d) : s.lacks d (s.vacancy d) ≤ 1 := by
  by_cases hole : s.lookup d (20*s.vacancy d/512) = 0
  · exact Nat.le_of_eq (lacks_start ok hole)
  unfold Machine.lacks
  rw [holes_succ,if_neg hole,Nat.zero_add]
  unfold Machine.holes
  refine Nat.le_trans List.countP_le_length ?_
  rw [List.length_range']
  omega

-- add_entry finds less than it needs for the slot.
theorem runs_createFile_starved (type : FileType) (layout : Layout s role (b :: rest)) (browsable : Browsable s role)
    (owned : Owned s role) (parent : s.parent path ≠ 0) (new : s.resolve path = 0) (room : s.vacancy (s.parent path).toNat < 3174)
    (starved : rest.length < s.lacks (s.parent path).toNat (s.vacancy (s.parent path).toNat)) :
    Returns (createFile path type) s fun r t => r = returnFailure ∧ ∃ role', Carries s t role role' (b :: rest) [] := by
  obtain ⟨node,dir,_⟩ := parent_dir browsable parent
  have one := lacks_vacancy (browsable.dirs _ node dir)
  obtain rfl : rest = [] := List.eq_nil_of_length_eq_zero (by omega)
  have some : 0 < s.lacks (s.parent path).toNat (s.vacancy (s.parent path).toNat) := starved
  unfold Machine.lacks Machine.holes at some
  obtain ⟨g,within,null⟩ := List.countP_pos_iff.mp some
  obtain ⟨low,high⟩ := List.mem_range'_1.mp within
  refine runs_createFile_accepted type layout browsable parent new fun u still => ?_
  have borne := still.borne layout type node
  have vacancy := borne.spares.vacancy node dir
  have owned' := borne.spares.owned owned
  refine (runs_addEntry_cut borne.spares.layout (borne.spares.browsable browsable) owned' (borne.spares.node node)
    ((borne.spares.isDir node).mpr dir) (by rw [vacancy]; exact room) (g := g) ?_ ?_ ?_).mono ?_ (fun _ _ => id)
  · rw [borne.lookup]
    exact of_decide_eq_true null
  · rw [vacancy]
    exact low
  · rw [vacancy]
    omega
  · intro r t post
    obtain ⟨failed,role',carries⟩ := post
    rw [if_pos (by rw [failed]; decide)]
    exact ⟨rfl,role',borne.spares.toCarries.trans carries⟩

-- What has become of a creation that the lookups let through and that has come to
-- an end.
theorem createFile_ended {r : Word} (type : FileType) (layout : Layout s role free) (browsable : Browsable s role) (owned : Owned s role)
    (synced : Synced s ∨ free = []) (parent : s.parent path ≠ 0) (new : s.resolve path = 0)
    (ran : createFile path type s = (.ok r,t)) : s.vacancy (s.parent path).toNat < 3174 ∧ ∃ b rest, free = b :: rest ∧
      (s.lacks (s.parent path).toNat (s.vacancy (s.parent path).toNat) ≤ rest.length ∨
        r = returnFailure ∧ ∃ role', Carries s t role role' (b :: rest) []) := by
  cases free with
  | nil => exact ((create_full_exits type layout browsable parent new).result ran).elim
  | cons b rest =>
      have synced := synced.resolve_right (by simp)
      have room : s.vacancy (s.parent path).toNat < 3174 := by
        by_contra full
        exact (runs_createFile_lost type layout browsable synced parent new (Nat.le_of_not_lt full)).result ran
      refine ⟨room,b,rest,rfl,?_⟩
      by_cases enough : s.lacks (s.parent path).toNat (s.vacancy (s.parent path).toNat) ≤ rest.length
      · exact .inl enough
      · exact .inr ((runs_createFile_starved type layout browsable owned parent new room (Nat.lt_of_not_le enough)).result ran)

end AsePlusPlus
