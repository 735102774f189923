import AsePlusPlus.Atomic
import AsePlusPlus.Overrun
import AsePlusPlus.Tree

namespace AsePlusPlus
open Words Program Forest

variable {role role' role'' : Nat → Role} {free free' free'' rest : List Nat} {s t u m : Machine} {fd : FileDesc}
variable {b d k : Nat} {e x : Entry} {path name : List Byte} {idir inumber : Word} {type : FileType}

-- add_entry keeps the first fifteen characters of a name.
theorem entryName_toList (name : List Byte) :
    (entryName name).toList = name.take 15 ++ List.replicate (16-(name.take 15).length) 0 := by
  refine List.ext_getElem ?_ fun i low high => ?_
  · simp only [Vector.length_toList,List.length_append,List.length_replicate,List.length_take]
    omega
  rw [Vector.length_toList] at low
  have byte : cell (entryName name) i = if i = 15 then 0 else name[i]?.getD 0 := by
    unfold entryName strncpy
    rw [cell_put _ _ (by decide)]
    split
    · rfl
    · exact cell_build _ low
  rw [Vector.getElem_toList,← cell_eq_getElem _ low,byte,List.getElem_append]
  simp only [List.length_take,List.getElem_take,List.getElem_replicate]
  by_cases inside : i < min 15 name.length
  · rw [dif_pos inside,if_neg (by omega),List.getElem?_eq_getElem (by omega),Option.getD_some]
  · rw [dif_neg inside]
    split
    · rfl
    · rw [List.getElem?_eq_none (by omega),Option.getD_none]

theorem newcomer_name (text : 0 ∉ name) (n : Word) : (newcomer n name).name = name.take 15 := by
  unfold Entry.name newcomer cstring
  dsimp only
  rw [entryName_toList,List.takeWhile_append_of_pos]
  · obtain ⟨k,more⟩ : ∃ k, 16-(name.take 15).length = k+1 := ⟨15-(name.take 15).length,by rw [List.length_take]; omega⟩
    rw [more,List.replicate_succ,List.takeWhile_cons_of_neg (by simp),List.append_nil]
  · intro c member
    have live : c ≠ 0 := by
      intro same
      obtain rfl := same
      exact text (List.mem_of_mem_take member)
    simpa using live

-- The inode of a new file is empty, and no directory leads to it yet.
theorem newborn_spares (type : FileType) (layout : Layout s role (b :: rest)) :
    Spares s (s.claimed (Inode.fresh type).encode) role (Function.update role b .inode) (b :: rest) rest := by
  refine ⟨createInode_carries type layout,fun j node _ => ⟨?_,funext fun q => ?_⟩,fun j node new _ => ?_⟩
  · exact layout.claimed_entry _ 1 (by simp [node]) (by simp [node])
  · unfold Machine.byteAt
    rw [layout.claimed_fblock _ node]
  · by_cases equal : j = b
    · rw [equal,createInode_entry type layout,fresh_word type (by decide) (by decide)]
    · rw [Function.update_of_ne equal] at node
      exact absurd node new

theorem parent_dir (browsable : Browsable s role) (live : s.parent path ≠ 0) :
    role (s.parent path).toNat = .inode ∧ s.IsDir (s.parent path).toNat ∧ s.resolve (dirname path) = s.parent path := by
  unfold Machine.parent at live ⊢
  dsimp only at live ⊢
  split at live
  · rename_i dir
    rw [if_pos dir]
    exact ⟨resolve_node browsable live,dir,rfl⟩
  · exact absurd rfl live

theorem parent_absolute (live : s.parent path ≠ 0) : Absolute path := by
  by_contra relative
  exact live (parent_relative relative)

theorem runs_createFile_rejected (type : FileType) (layout : Layout s role free) (browsable : Browsable s role)
    (refused : s.parent path = 0 ∨ s.resolve path ≠ 0) :
    Returns (createFile path type) s fun r t => r = returnFailure ∧ Still s t := by
  unfold createFile
  rw [Returns,runs_bind]
  refine (runs_dinumberOfPath layout browsable).mono ?_ (fun _ _ => id)
  intro result t post
  obtain ⟨idir,basename⟩ := result
  obtain ⟨rfl,_,still⟩ := post
  dsimp only
  by_cases none : s.parent path = 0
  · rw [if_pos none]
    exact ⟨rfl,still⟩
  rw [if_neg none,runs_bind]
  refine (runs_inumberOfPath (layout.same still.same) (browsable.same still.same) path).mono ?_ (fun _ _ => id)
  intro i u post
  obtain ⟨rfl,still'⟩ := post
  rw [if_pos (by rw [still.same.resolve]; exact refused.resolve_left none)]
  exact ⟨rfl,still.trans still'⟩

-- A creation that the lookups let through is up to add_entry.
theorem runs_createFile_accepted {Q : Word → Machine → Prop} {E : Stop → Machine → Prop} (type : FileType)
    (layout : Layout s role (b :: rest)) (browsable : Browsable s role) (parent : s.parent path ≠ 0) (new : s.resolve path = 0)
    (added : ∀ u, Still s u →
      Runs (addEntry (s.parent path) s.super.premierLibre (lastBasename path)) (u.claimed (Inode.fresh type).encode)
        (fun r t => Q (if r ≠ returnSuccess then returnFailure else s.super.premierLibre) t) E) :
    Runs (createFile path type) s Q E := by
  unfold createFile
  rw [runs_bind]
  refine Runs.of_returns (runs_dinumberOfPath layout browsable) ?_
  intro result t post
  obtain ⟨idir,basename⟩ := result
  obtain ⟨rfl,last,still⟩ := post
  dsimp only at last ⊢
  rw [last (parent_absolute parent),if_neg parent,runs_bind]
  refine Runs.of_returns (runs_inumberOfPath (layout.same still.same) (browsable.same still.same) path) ?_
  intro i u post
  obtain ⟨rfl,still'⟩ := post
  have both := still.trans still'
  have head : u.super.premierLibre = s.super.premierLibre := by rw [both.same.super]
  rw [if_neg (by rw [still.same.resolve,new]; exact not_not_intro rfl),runs_bind,
    runs_createIfile type (layout.same both.same),head,if_neg layout.chain.head_ne,runs_bind]
  refine (added u both).mono ?_ (fun _ _ => id)
  intro r v post
  split
  · rename_i failed
    rw [if_pos failed] at post
    exact post
  · rename_i done
    rw [if_neg done] at post
    exact post

theorem Still.edited (still : Still s u) (layout : Layout s role free) (edited : Edited u t role role' free free' d k e) :
    Edited s t role role' free free' d k e := by
  have same := still.same
  refine ⟨(still.grew layout).toExtends.trans edited.toExtends,by rw [← same.slots]; exact edited.low,
    by rw [← same.slots]; exact edited.slots,edited.written,fun j other => ?_,edited.ok,fun j node other => ?_⟩
  · rw [edited.rest j other,same.slotAt]
  · obtain ⟨size,bytes⟩ := edited.others j node other
    exact ⟨size.trans (same.entryAt j 1),bytes.trans (funext fun q => same.byteAt j q)⟩

-- A deletion that does not find the name does nothing, and any other empties the
-- first slot that holds it.
theorem runs_deleteFile (layout : Layout s role free) (browsable : Browsable s role) :
    Returns (deleteFile path) s fun r t =>
      (r = returnFailure ∧ Still s t ∧ (s.parent path = 0 ∨ s.step (s.parent path) (lastBasename path) = 0)) ∨
      (r = 20 ∧ s.parent path ≠ 0 ∧ s.step (s.parent path) (lastBasename path) ≠ 0 ∧ ∃ k role' free',
      First (Entry.names (lastBasename path)) (s.byteAt (s.parent path).toNat) 0 (s.slots (s.parent path).toNat) k ∧
      k < s.slots (s.parent path).toNat ∧ Edited s t role role' free free' (s.parent path).toNat k vacated ∧ Sound s t) := by
  unfold deleteFile
  rw [Returns,runs_bind]
  refine (runs_dinumberOfPath layout browsable).mono ?_ (fun _ _ => id)
  intro result t post
  obtain ⟨idir,basename⟩ := result
  obtain ⟨rfl,last,still⟩ := post
  dsimp only at last ⊢
  by_cases none : s.parent path = 0
  · rw [if_pos none]
    exact Or.inl ⟨rfl,still,Or.inl none⟩
  have same := still.same
  have node := (parent_dir browsable none).1
  rw [last (parent_absolute none),if_neg none]
  refine (runs_delEntry (layout.same same) ((browsable.same same).dirs _ node) node).mono ?_ (fun _ _ => id)
  intro r u post
  rcases post with ⟨failed,still',missed⟩ | ⟨done,found,k,role',free',first,inside,edited,sound⟩
  · rw [same.step] at missed
    exact Or.inl ⟨failed,still.trans still',Or.inr missed⟩
  · rw [same.step] at found
    rw [same.slots] at first inside
    have bytes : t.byteAt (s.parent path).toNat = s.byteAt (s.parent path).toNat := funext fun q => same.byteAt _ q
    rw [bytes] at first
    exact Or.inr ⟨done,none,found,k,role',free',first,inside,still.edited layout edited,still.sound.trans sound⟩

-- No bloc is left for the first byte of the slot: the directory stays as it was.
theorem runs_addEntry_short (layout : Layout s role []) (browsable : Browsable s role) (node : role idir.toNat = .inode)
    (dir : s.IsDir idir.toNat) (room : s.vacancy idir.toNat < 3174)
    (hole : s.lookup idir.toNat (20*s.vacancy idir.toNat/512) = 0) :
    Returns (addEntry idir inumber name) s fun r t => r = returnFailure ∧ t.blk 0 = zeros 8 512 ∧
      ∃ role', Spares s t role role' [] [] := by
  have ok := browsable.dirs _ node dir
  refine runs_addEntry_at layout ok node dir fun fd t scan file still => ?_
  have length : (newcomer inumber name).encode.toList.length = 20 := Vector.length_toList
  generalize (newcomer inumber name).encode = buf at length ⊢
  obtain ⟨c,more,text⟩ := List.exists_cons_of_length_pos (by rw [length]; decide : 0 < buf.toList.length)
  have position := scan.position
  have near : fd.block < 124 := by unfold FileDesc.block; omega
  have block : fd.block = 20*s.vacancy idir.toNat/512 := by unfold FileDesc.block; rw [position]
  have null : t.lookup fd.file fd.block = 0 := by rw [still.same.lookup,file,block]; exact hole
  have need : ([] : List Nat).length < needed t fd.file fd.block := by
    unfold needed
    rw [if_pos near,if_pos null]
    decide
  have node' : role fd.file = .inode := by rw [file]; exact node
  unfold storeEntry writeIfile
  rw [text,writeChars,runs_bind,runs_bind,runs_bind]
  refine (runs_writec_short scan.layout node' c (Or.inl near) scan.clean need).mono ?_ (fun _ _ => id)
  intro result u post
  obtain ⟨status,fd'⟩ := result
  obtain ⟨role',free',grew,rfl,lost,_,equal⟩ := post
  obtain ⟨rfl,moved⟩ := Prod.mk.inj equal
  have clean : fd'.fdsDirty = false := by rw [moved]; exact scan.clean
  have recorded : fd'.fdsSize = fd.fdsSize := by rw [moved]
  have file' : fd'.file = fd.file := by rw [moved]; rfl
  have after := grew.layout
  have node'' : role' fd'.file = .inode := by rw [file']; exact grew.node node'
  have inside := (after.bound node'' (by simp)).2
  have size : fd'.fdsSize = u.entryAt fd'.file 1 := by
    refine BitVec.eq_of_toNat_eq ?_
    rw [recorded,file',grew.sizes _ node',still.same.entryAt,file,ok.size]
    exact scan.size
  have quiet := Quiet.load u fd'.file
  dsimp only
  rw [if_pos rfl,runs_pure,runs_pure,runs_bind,runs_close_clean after.mounted inside clean,runs_pure]
  have closed : Still u ((u.load fd'.file).resized fd'.fdsInumber fd'.fdsSize) := quiet.still.trans
    ⟨resized_same _ (by rw [quiet.same.entryAt]; exact size),(resized_sound (after.quiet quiet) node'' _).confined⟩
  exact ⟨rfl,(closed.same.blk 0).trans lost,role',((still.spares layout).trans (grew.spares scan.layout)).trans (closed.spares after)⟩

-- A directory of 3174 entries has no slot left: the write never comes to an end.
theorem runs_addEntry_lost (layout : Layout s role free) (browsable : Browsable s role) (synced : Synced s)
    (node : role idir.toNat = .inode) (dir : s.IsDir idir.toNat) (full : s.vacancy idir.toNat = 3174) :
    Runs (addEntry idir inumber name) s (fun _ _ => False) (fun _ t => Sound s t) := by
  have ok := browsable.dirs _ node dir
  have few := ok.slotted.few
  have low := vacancy_le s idir.toNat
  refine runs_addEntry_at layout ok node dir fun fd t scan file still => ?_
  have length : (newcomer inumber name).encode.toList.length = 20 := Vector.length_toList
  generalize (newcomer inumber name).encode = buf at length ⊢
  have position : fd.fdsPos.toNat = 63480 := by rw [scan.position,full]
  have block : fd.block = 123 := by unfold FileDesc.block; rw [position]
  have mapped : t.lookup fd.file fd.block ≠ 0 := by
    rw [still.same.lookup,file,block]
    exact ok.mapped 63479 (by omega)
  have free' : fd.cost t 8 = 0 := by
    unfold FileDesc.cost
    rw [if_neg (by decide),price_direct t scan.clean (by omega),if_neg mapped,position,block]
    rfl
  unfold storeEntry writeIfile
  rw [runs_bind,runs_bind]
  refine (scan.toWriting.writeChars_lost (still.same.synced synced) buf.toList (by omega) (by omega) ?_).mono
    (fun _ _ => False.elim) (fun _ _ both => still.sound.trans both.2)
  rw [position,show 63488-63480 = 8 from rfl,free']
  exact Nat.zero_le _

theorem vacancy_live (s : Machine) (role : Nat → Role) (d : Nat) : ¬ Live s role d (s.vacancy d) x := by
  intro live
  have length : (s.entries d).length = s.slots d := by simp [Machine.entries]
  have inside : (s.entries d).findIdx (·.entInumber = 0) < (s.entries d).length := by rw [length]; exact live.slot
  have null := List.findIdx_getElem (w := inside)
  have entry : (s.entries d)[(s.entries d).findIdx (·.entInumber = 0)] = s.slotAt d (s.vacancy d) := by
    simp only [Machine.entries,List.getElem_map,List.getElem_range]
    rfl
  rw [entry,live.entry] at null
  exact live.live (of_decide_eq_true null)

section spares
variable (spares : Spares s t role role' free free') (node : role d = .inode) (dir : s.IsDir d)
include spares node dir

theorem Spares.entries : t.entries d = s.entries d := by
  unfold Machine.entries
  rw [spares.slots node dir]
  exact List.map_congr_left fun k _ => spares.slotAt node dir k

theorem Spares.vacancy : t.vacancy d = s.vacancy d := by
  unfold Machine.vacancy
  rw [spares.entries node dir]

end spares

-- The slot for a new entry is not cut by the end of the free chain: it has its
-- blocs, or not even the one of its first byte.
def Machine.Whole (s : Machine) (d : Nat) : Prop :=
  s.lookup d (20*s.vacancy d/512) = 0 ∨ s.lacks d (s.vacancy d) < s.super.nbBlocLibre.toNat

-- A slot that starts a bloc does not reach into the next one.
theorem lacks_start (ok : DirOk s d) (hole : s.lookup d (20*s.vacancy d/512) = 0) : s.lacks d (s.vacancy d) = 1 := by
  have low := vacancy_le s d
  have last : ∀ q, q < 20*s.slots d → q/512 ≠ 20*s.vacancy d/512 := by
    intro q inside same
    rw [← same] at hole
    exact ok.mapped q inside hole
  have aligned : 20*s.vacancy d%512 = 0 := by
    by_contra offset
    exact last (20*s.vacancy d-1) (by omega) (by omega)
  have one : (20*s.vacancy d+19)/512-20*s.vacancy d/512+1 = 0+1 := by omega
  unfold Machine.lacks
  rw [one,holes_succ,if_pos hole]
  rfl

-- Where that is not enough, it is one bloc short.
theorem Machine.Whole.starved {n : Nat} (whole : s.Whole d) (ok : DirOk s d) (count : s.super.nbBlocLibre.toNat = n+1)
    (more : n < s.lacks d (s.vacancy d)) : s.lookup d (20*s.vacancy d/512) = 0 ∧ n = 0 := by
  have hole : s.lookup d (20*s.vacancy d/512) = 0 := by
    apply whole.resolve_right
    omega
  rw [lacks_start ok hole] at more
  exact ⟨hole,by omega⟩

-- A creation that succeeds: the inode is taken, then the slot is written.
def Made (s t : Machine) (role : Nat → Role) (b : Nat) (rest : List Nat) (path : List Byte) : Prop :=
  ∃ m role' free', Spares s m role (Function.update role b .inode) (b :: rest) rest ∧
    Edited m t (Function.update role b .inode) role' rest free' (s.parent path).toNat (s.vacancy (s.parent path).toNat)
      (newcomer s.super.premierLibre (lastBasename path)) ∧ Sound s t

-- What a creation does that the lookups let through, if it comes to an end.
inductive Created (s t : Machine) (role : Nat → Role) (b : Nat) (rest : List Nat) (path : List Byte) (r : Word) : Prop
  | short (failed : r = returnFailure) (role' : Nat → Role) (spares : Spares s t role role' (b :: rest) [])
  | made (done : r = s.super.premierLibre) (made : Made s t role b rest path)

-- add_entry meets the directory as it was before the inode was taken.
structure Borne (s m : Machine) (role : Nat → Role) (b : Nat) (rest : List Nat) (d : Nat) : Prop where
  spares : Spares s m role (Function.update role b .inode) (b :: rest) rest
  sound : Sound s m
  lookup : ∀ f, m.lookup d f = s.lookup d f

theorem Borne.lacks (borne : Borne s m role b rest d) (k : Nat) : m.lacks d k = s.lacks d k := by
  unfold Machine.lacks Machine.holes
  simp only [borne.lookup]

theorem Still.borne (still : Still s u) (layout : Layout s role (b :: rest)) (type : FileType) (node : role d = .inode) :
    Borne s (u.claimed (Inode.fresh type).encode) role b rest d := by
  have layout' := layout.same still.same
  exact ⟨(still.spares layout).trans (newborn_spares type layout'),still.sound.trans (createInode_sound type layout'),
    fun f => (layout'.claimed_lookup _ node f).trans (still.same.lookup d f)⟩

-- The new file is of the type that was asked for and empty, and besides its
-- parent no other changes.
structure Laid (s t : Machine) (role : Nat → Role) (type : FileType) (b d : Nat) : Prop where
  type : t.entryAt b 0 = type.code
  size : t.entryAt b 1 = 0
  blank : t.byteAt b = fun _ => 0
  others : ∀ j, role j = .inode → j ≠ d → t.entryAt j 1 = s.entryAt j 1 ∧ t.byteAt j = s.byteAt j

theorem Still.laid (still : Still s u) (layout : Layout s role (b :: rest)) (type : FileType) (d : Nat) :
    Laid s (u.claimed (Inode.fresh type).encode) role type b d := by
  have layout' := layout.same still.same
  have word := createInode_entry type layout'
  refine ⟨(word 0).trans (fresh_type type),(word 1).trans (fresh_word type (by decide) (by decide)),funext fun q => ?_,
    fun j node _ => ⟨?_,funext fun q => ?_⟩⟩
  · unfold Machine.byteAt Machine.fblock
    rw [createInode_lookup type layout',if_pos rfl,cell_zeros]
  · rw [layout'.claimed_entry _ 1 (by simp [node]) (by simp [node]),still.same.entryAt]
  · rw [← still.same.byteAt]
    unfold Machine.byteAt
    rw [layout'.claimed_fblock _ node]

-- The entry of the new file is all that is written then.
theorem Laid.edited (laid : Laid s m role type b d) (layout : Layout s role (b :: rest)) (node : role d = .inode)
    (edited : Edited m t (Function.update role b .inode) role' rest free' d k e) : Laid s t role type b d := by
  have unused : role b = .free := (layout.vacant b).mpr (by simp)
  have apart : b ≠ d := by
    intro same
    obtain rfl := same
    rw [unused] at node
    cases node
  have here : Function.update role b .inode b = .inode := Function.update_self _ _ _
  obtain ⟨size,bytes⟩ := edited.others b here apart
  refine ⟨(edited.types b here).trans laid.type,size.trans laid.size,bytes.trans laid.blank,fun j node' other => ?_⟩
  have old : Function.update role b .inode j = .inode := by
    by_cases equal : j = b
    · rw [equal,here]
    · rw [Function.update_of_ne equal,node']
  obtain ⟨size',bytes'⟩ := edited.others j old other
  obtain ⟨size'',bytes''⟩ := laid.others j node' other
  exact ⟨size'.trans size'',bytes'.trans bytes''⟩

theorem runs_createFile_laid (type : FileType) (layout : Layout s role (b :: rest)) (browsable : Browsable s role)
    (parent : s.parent path ≠ 0) (new : s.resolve path = 0) (plain : (newcomer s.super.premierLibre (lastBasename path)).Plain)
    (room : s.vacancy (s.parent path).toNat < 3174)
    (enough : s.lacks (s.parent path).toNat (s.vacancy (s.parent path).toNat) ≤ rest.length) :
    Returns (createFile path type) s fun r t => r = s.super.premierLibre ∧ Made s t role b rest path ∧
      Laid s t role type b (s.parent path).toNat ∧
      rest.length ≤ t.super.nbBlocLibre.toNat+s.lacks (s.parent path).toNat (s.vacancy (s.parent path).toNat) := by
  obtain ⟨node,dir,_⟩ := parent_dir browsable parent
  refine runs_createFile_accepted type layout browsable parent new fun u still => ?_
  have borne := still.borne layout type node
  have vacancy := borne.spares.vacancy node dir
  have laid := still.laid layout type (s.parent path).toNat
  generalize u.claimed (Inode.fresh type).encode = m at *
  have node' := borne.spares.node node
  have dir' := (borne.spares.isDir node).mpr dir
  have ok := (borne.spares.browsable browsable).dirs _ node' dir'
  refine (runs_addEntry borne.spares.layout ok node' dir' (by rw [vacancy]; exact room) plain
    (by rw [vacancy,borne.lacks]; exact enough)).mono ?_ (fun _ _ => id)
  intro r t post
  obtain ⟨rfl,role',free',edited,sound,spent⟩ := post
  rw [vacancy] at edited spent
  rw [borne.lacks,← edited.layout.chain.count] at spent
  exact ⟨rfl,⟨m,role',free',borne.spares,edited,borne.sound.trans sound⟩,laid.edited layout node edited,spent⟩

theorem runs_createFile_typed (type : FileType) (layout : Layout s role (b :: rest)) (browsable : Browsable s role)
    (parent : s.parent path ≠ 0) (new : s.resolve path = 0) (plain : (newcomer s.super.premierLibre (lastBasename path)).Plain)
    (room : s.vacancy (s.parent path).toNat < 3174)
    (enough : s.lacks (s.parent path).toNat (s.vacancy (s.parent path).toNat) ≤ rest.length) :
    Returns (createFile path type) s fun r t => r = s.super.premierLibre ∧ Made s t role b rest path ∧
      t.entryAt b 0 = type.code :=
  (runs_createFile_laid type layout browsable parent new plain room enough).mono
    (fun _ _ all => ⟨all.1,all.2.1,all.2.2.1.type⟩) (fun _ _ => id)

theorem runs_createFile_made (type : FileType) (layout : Layout s role (b :: rest)) (browsable : Browsable s role)
    (parent : s.parent path ≠ 0) (new : s.resolve path = 0) (plain : (newcomer s.super.premierLibre (lastBasename path)).Plain)
    (room : s.vacancy (s.parent path).toNat < 3174)
    (enough : s.lacks (s.parent path).toNat (s.vacancy (s.parent path).toNat) ≤ rest.length) :
    Returns (createFile path type) s fun r t => r = s.super.premierLibre ∧ Made s t role b rest path :=
  (runs_createFile_typed type layout browsable parent new plain room enough).mono (fun _ _ all => ⟨all.1,all.2.1⟩) (fun _ _ => id)

-- The last bloc goes to the inode and leaves none for the entry: the superbloc is
-- lost.
theorem runs_createFile_short (type : FileType) (layout : Layout s role [b]) (browsable : Browsable s role)
    (parent : s.parent path ≠ 0) (new : s.resolve path = 0) (room : s.vacancy (s.parent path).toNat < 3174)
    (hole : s.lookup (s.parent path).toNat (20*s.vacancy (s.parent path).toNat/512) = 0) :
    Returns (createFile path type) s fun r t => r = returnFailure ∧ t.blk 0 = zeros 8 512 ∧ ∃ role', Spares s t role role' [b] [] := by
  obtain ⟨node,dir,_⟩ := parent_dir browsable parent
  refine runs_createFile_accepted type layout browsable parent new fun u still => ?_
  have borne := still.borne layout type node
  have vacancy := borne.spares.vacancy node dir
  refine (runs_addEntry_short borne.spares.layout (borne.spares.browsable browsable) (borne.spares.node node)
    ((borne.spares.isDir node).mpr dir) (by rw [vacancy]; exact room) (by rw [vacancy,borne.lookup]; exact hole)).mono ?_ (fun _ _ => id)
  intro r t post
  obtain ⟨failed,lost,role',spares⟩ := post
  rw [if_pos (by rw [failed]; decide)]
  exact ⟨rfl,lost,role',borne.spares.trans spares⟩

-- The parent has 3174 entries: the call never comes to an end.
theorem runs_createFile_lost (type : FileType) (layout : Layout s role (b :: rest)) (browsable : Browsable s role)
    (synced : Synced s) (parent : s.parent path ≠ 0) (new : s.resolve path = 0)
    (full : 3174 ≤ s.vacancy (s.parent path).toNat) :
    Runs (createFile path type) s (fun _ _ => False) (fun _ t => Sound s t) := by
  obtain ⟨node,dir,_⟩ := parent_dir browsable parent
  have few := (browsable.dirs _ node dir).slotted.few
  have low := vacancy_le s (s.parent path).toNat
  refine runs_createFile_accepted type layout browsable parent new fun u still => ?_
  have borne := still.borne layout type node
  have vacancy := borne.spares.vacancy node dir
  generalize u.claimed (Inode.fresh type).encode = m at *
  refine (runs_addEntry_lost borne.spares.layout (borne.spares.browsable browsable) (borne.sound.synced synced)
    (borne.spares.node node) ((borne.spares.isDir node).mpr dir) (by rw [vacancy]; omega)).mono (fun _ _ => False.elim) ?_
  exact fun _ t sound => borne.sound.trans sound

theorem runs_createFile (type : FileType) (layout : Layout s role (b :: rest)) (browsable : Browsable s role) (synced : Synced s)
    (parent : s.parent path ≠ 0) (new : s.resolve path = 0) (plain : (newcomer s.super.premierLibre (lastBasename path)).Plain)
    (whole : s.Whole (s.parent path).toNat) :
    Runs (createFile path type) s (fun r t => Created s t role b rest path r) (fun _ _ => True) := by
  obtain ⟨node,dir,_⟩ := parent_dir browsable parent
  have ok := browsable.dirs _ node dir
  have count := layout.chain.count
  rcases Nat.lt_or_ge (s.vacancy (s.parent path).toNat) 3174 with room | full
  swap
  · exact (runs_createFile_lost type layout browsable synced parent new full).mono (fun _ _ => False.elim) (fun _ _ _ => trivial)
  by_cases enough : s.lacks (s.parent path).toNat (s.vacancy (s.parent path).toNat) ≤ rest.length
  · exact Runs.of_returns (runs_createFile_made type layout browsable parent new plain room enough) fun r t both => .made both.1 both.2
  obtain ⟨hole,none⟩ := whole.starved ok count (Nat.lt_of_not_le enough)
  obtain rfl := List.length_eq_zero_iff.mp none
  refine Runs.of_returns (runs_createFile_short type layout browsable parent new room hole) ?_
  intro r t post
  obtain ⟨failed,_,role',spares⟩ := post
  exact .short failed role' spares

end AsePlusPlus
