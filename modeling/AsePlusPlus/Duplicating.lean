import AsePlusPlus.Copying
import AsePlusPlus.Leaks
import AsePlusPlus.Starving
import AsePlusPlus.Workdir

namespace AsePlusPlus
open Words Program

-- The bytes of a file up to the recorded size, as they lie on the disk.
def Machine.contents (s : Machine) (i : Nat) : List Byte := span (s.byteAt i) 0 ((s.entryAt i 1).toNat+1)

-- The destination is a new file that holds what the source held, and the source
-- holds it still.
structure Duplicates (s t : Machine) (source dest : List Byte) (i d : Word) : Prop where
  new : (inumberOfPath dest s).1 = .ok 0
  made : (inumberOfPath dest t).1 = .ok d ∧ d ≠ 0
  type : t.entryAt d.toNat 0 = FileType.file.code
  found : (inumberOfPath source s).1 = .ok i ∧ i ≠ 0
  stays : (inumberOfPath source t).1 = .ok i
  copied : t.contents d.toNat = s.contents i.toNat
  kept : t.contents i.toNat = s.contents i.toNat

-- do_cp comes to an end: with 0 there is a copy, and otherwise no path leads
-- elsewhere and no bloc is taken.
def CopiesOrNothing (s : Machine) (words : List (List Byte)) : Prop :=
  ∃ reads command r t, doCp reads s words = some command ∧ command s = (.ok r,t) ∧
    (r = 0 → 1 < words.length ∧ ∃ source dest i d, cpPaths s words = some (source,dest) ∧ Duplicates s t source dest i d) ∧
    (r ≠ 0 → (∀ q, (inumberOfPath q t).1 = (inumberOfPath q s).1) ∧ t.super.nbBlocLibre = s.super.nbBlocLibre)

-- The lookups let the destination through, its name is kept and its entry is
-- read as it is written, the source is there and not the directory that gets the
-- entry, no byte of it reads as READ_EOF, it ends before the last direct byte,
-- and there are blocs for all of it. A single NUL is what an empty file holds.
structure Copies (s : Machine) (source dest : List Byte) : Prop where
  accepted : ¬ Rejected dest s
  short : (lastBasename dest).length ≤ 15
  plain : (newcomer s.super.premierLibre (lastBasename dest)).Plain
  slot : s.vacancy (s.parent dest).toNat < 3174
  room : 1+s.lacks (s.parent dest).toNat (s.vacancy (s.parent dest).toNat) ≤ s.super.nbBlocLibre.toNat
  found : s.resolve source ≠ 0
  other : s.resolve source ≠ s.parent dest
  legible : eofByte ∉ s.contents (s.resolve source).toNat
  near : (s.contents (s.resolve source).toNat).length < 63488
  enough : s.contents (s.resolve source).toNat = [0] ∨
    1+s.lacks (s.parent dest).toNat (s.vacancy (s.parent dest).toNat)+((s.contents (s.resolve source).toNat).length+511)/512 ≤
      s.super.nbBlocLibre.toNat

-- There is nothing to parse, or the lookups refuse the destination, or there are
-- two words and all goes well.
def Copyable (s : Machine) (words : List (List Byte)) : Prop :=
  words = [] ∨ ∃ source dest, cpPaths s words = some (source,dest) ∧
    (Rejected dest s ∨ 1 < words.length ∧ Copies s source dest)

-- The entry of the destination, if it gets one, is read as it is written.
def Enters (s : Machine) (words : List (List Byte)) : Prop :=
  ∀ source dest, cpPaths s words = some (source,dest) → Rejected dest s ∨ (newcomer s.super.premierLibre (lastBasename dest)).Plain

variable {role role' : Nat → Role} {free free' rest : List Nat} {o s t u : Machine} {text source dest : List Byte}
variable {words : List (List Byte)} {b d f i k n x : Nat} {r inumber : Word}

theorem contents_length (s : Machine) (i : Nat) : (s.contents i).length = (s.entryAt i 1).toNat+1 := span_length _ _ _

theorem contents_same (size : t.entryAt i 1 = s.entryAt i 1) (bytes : t.byteAt i = s.byteAt i) : t.contents i = s.contents i := by
  unfold Machine.contents
  rw [size,bytes]

theorem Filed.contents (filed : Filed s t role role' free free' b) (node : role i = .inode) (other : i ≠ b) :
    t.contents i = s.contents i := by
  refine contents_same (filed.sizes i node other) (funext fun q => ?_)
  unfold Machine.byteAt
  rw [filed.files i _ node other]

theorem Pasted.contents (pasted : Pasted b s t role role' free free' text) : t.contents b = if text = [] then [0] else text := by
  unfold Machine.contents
  rw [pasted.content,pasted.size]
  by_cases none : text = []
  · subst none
    rfl
  · have long := List.length_pos_iff.mpr none
    rw [if_neg none,show text.length-1+1 = text.length by omega]
    exact span_splice _ 0 text

theorem Pasted.ordered (pasted : Pasted b s t role role' free free' text) (ordered : Ordered s role free) (plain : ¬ s.IsDir b) :
    Ordered t role' free' ∧ ∀ q, t.resolve q = s.resolve q :=
  ordered.spares (pasted.toFiled.spares plain) pasted.settled

theorem span_same {content content' : Nat → Byte} (same : span content 0 n = span content' 0 k) :
    n = k ∧ ∀ q, q < n → content q = content' q := by
  have length := congrArg List.length same
  rw [span_length,span_length] at length
  subst length
  refine ⟨rfl,fun q inside => ?_⟩
  have one := span_getD content 0 0 inside
  rw [same,span_getD content' 0 0 inside] at one
  rw [Nat.zero_add] at one
  exact one.symm

-- A new entry shows in its directory.
theorem Made.rewrites (made : Made s t role b rest dest) (layout : Layout s role (b :: rest)) (browsable : Browsable s role)
    (parent : s.parent dest ≠ 0) : t.contents (s.parent dest).toNat ≠ s.contents (s.parent dest).toNat := by
  obtain ⟨m,role',free',spares,edited,_⟩ := made
  obtain ⟨node,dir,_⟩ := parent_dir browsable parent
  have ok := browsable.dirs _ node dir
  have slots := edited.slots
  rw [spares.slots node dir] at slots
  intro same
  obtain ⟨sizes,bytes⟩ := span_same same
  have equal : t.slots (s.parent dest).toNat = s.slots (s.parent dest).toNat := by
    unfold Machine.slots
    omega
  have inside : s.vacancy (s.parent dest).toNat < s.slots (s.parent dest).toNat := by omega
  have size := ok.size
  have entry : t.slotAt (s.parent dest).toNat (s.vacancy (s.parent dest).toNat) =
      s.slotAt (s.parent dest).toNat (s.vacancy (s.parent dest).toNat) := by
    refine congrArg Entry.decode (ext_cell fun i small => ?_)
    rw [cell_build _ small,cell_build _ small]
    exact bytes _ (by omega)
  rw [edited.written] at entry
  have live : (newcomer s.super.premierLibre (lastBasename dest)).entInumber ≠ 0 := layout.chain.head_ne
  exact vacancy_live s role _ ⟨node,dir,inside,entry.symm,live⟩

-- Nowhere is a name of more than fifteen characters, and a longer one is not found.
theorem hidden (browsable : Browsable s role) (real : s.super.rootInumber ≠ 0) (few : ∀ {d k e}, Live s role d k e → e.name.length ≤ 15)
    (long : 15 < (lastBasename dest).length) : s.resolve dest = 0 := by
  have some : lastBasename dest ≠ [] := List.ne_nil_of_length_pos (by omega)
  unfold Machine.resolve
  by_cases absolute : Absolute dest
  swap
  · exact if_neg absolute
  rw [if_pos absolute,components_dirname absolute some,walk_snoc s real]
  by_cases none : s.walk s.super.rootInumber (components (dirname dest)) = 0
  · exact if_pos none
  rw [if_neg none]
  by_contra found
  obtain ⟨k,e,live,name,_⟩ := step_live (walk_node browsable browsable.root _ none) found
  have short := few live
  rw [name,List.length_take] at short
  omega

-- A new file can be looked up, but its name may be cut.
theorem Made.listed (made : Made s t role b rest dest) (ordered : Ordered s role (b :: rest)) (text : 0 ∉ dest) (parent : s.parent dest ≠ 0) :
    ∃ role' free', Carries s t role role' (b :: rest) free' ∧ Browsable t role' ∧ Synced t ∧ role' b = .inode ∧
      ∀ {d k e}, Live t role' d k e → e.name.length ≤ 15 := by
  obtain ⟨m,role',free',spares,edited,sound⟩ := made
  have layout := ordered.layout
  have browsable := ordered.tree.toBrowsable
  obtain ⟨node,dir,_⟩ := parent_dir browsable parent
  have number : (newcomer s.super.premierLibre (lastBasename dest)).entInumber.toNat = b := layout.chain.head
  have here : role' b = .inode := edited.node (Function.update_self _ _ _)
  have plain : 0 ∉ lastBasename dest := fun member => text (by
    rw [← dirname_append dest]
    exact List.mem_append_right _ member)
  refine ⟨role',free',spares.toCarries.trans edited.toExtends.toCarries,
    edited.browsable (spares.browsable browsable) fun _ => by rw [number]; exact here,
    sound.synced (ordered.synced.resolve_right (by simp)),here,fun live => ?_⟩
  rcases (edited.live (spares.node node) ((spares.isDir node).mpr dir)).mp live with ⟨old,_⟩ | ⟨_,_,rfl,_⟩
  · exact ordered.tree.short (spares.live.mp old)
  · rw [newcomer_name plain,List.length_take]
    exact Nat.min_le_left _ _

theorem Laid.plain (laid : Laid s t role .file b d) : ¬ t.IsDir b := by
  intro dir
  have type : t.entryAt b 0 = FileType.directory.code := dir
  rw [laid.type] at type
  exact absurd type (by decide)

-- The new file of a copy that has not begun to read.
structure Begun (s t : Machine) (role role' : Nat → Role) (b : Nat) (rest free' : List Nat) (dest : List Byte) : Prop
    extends Laid s t role .file b (s.parent dest).toNat, Carries s t role role' (b :: rest) free' where
  ordered : Ordered t role' free'
  synced : Synced t
  made : Made s t role b rest dest
  here : role' b = .inode
  leads : ∀ q, s.resolve q ≠ 0 → t.resolve q = s.resolve q
  opens : t.resolve dest = s.super.premierLibre
  spent : rest.length ≤ free'.length+s.lacks (s.parent dest).toNat (s.vacancy (s.parent dest).toNat)

theorem runs_createFile_begins (ordered : Ordered s role (b :: rest)) (text : 0 ∉ dest) (parent : s.parent dest ≠ 0)
    (new : s.resolve dest = 0) (short : (lastBasename dest).length ≤ 15)
    (plain : (newcomer s.super.premierLibre (lastBasename dest)).Plain) (room : s.vacancy (s.parent dest).toNat < 3174)
    (enough : s.lacks (s.parent dest).toNat (s.vacancy (s.parent dest).toNat) ≤ rest.length) :
    Returns (createFile dest .file) s fun r t => r = s.super.premierLibre ∧ ∃ role' free', Begun s t role role' b rest free' dest := by
  refine (runs_createFile_laid .file ordered.layout ordered.tree.toBrowsable parent new plain room enough).mono ?_ (fun _ _ => id)
  intro r t post
  obtain ⟨done,made,laid,spent⟩ := post
  have synced : Synced t := by
    obtain ⟨_,_,_,_,_,sound⟩ := made
    exact sound.synced (ordered.synced.resolve_right (by simp))
  obtain ⟨_,_,after,opens,_⟩ := ordered.made text parent new short made
  rw [after.lookup] at opens
  have keeps : ∃ role' free', Retains (fun _ => True) s t role role' (b :: rest) free' ∧ role' b = .inode :=
    made.keeps ordered text parent new short
  obtain ⟨role',free',kept,here⟩ := keeps
  rw [kept.ordered.layout.chain.count] at spent
  exact ⟨done,role',free',laid,kept.toCarries,kept.ordered,synced,made,here,fun q => kept.leads q trivial,
    Except.ok.inj opens,spent⟩

-- A path that leads somewhere does not lead to a bloc of the chain.
theorem Ordered.found_old (ordered : Ordered s role (b :: rest)) (found : s.resolve source ≠ 0) :
    role (s.resolve source).toNat = .inode ∧ (s.resolve source).toNat ≠ b := by
  have node := resolve_node ordered.tree.toBrowsable found
  refine ⟨node,fun same => ?_⟩
  rw [same,(ordered.layout.vacant b).mpr (by simp)] at node
  cases node

section begun
variable {reads : Nat} (begun : Begun s t role role' b rest free' dest) (before : Ordered s role (b :: rest))
include begun before

theorem Begun.blank_file : role' s.super.premierLibre.toNat = .inode ∧ t.entryAt s.super.premierLibre.toNat 1 = 0 ∧
    t.byteAt s.super.premierLibre.toNat = fun _ => 0 := by
  rw [before.layout.chain.head]
  exact ⟨begun.here,begun.size,begun.blank⟩

theorem Begun.contents (found : s.resolve source ≠ 0) (other : s.resolve source ≠ s.parent dest) :
    t.contents (s.resolve source).toNat = s.contents (s.resolve source).toNat := by
  obtain ⟨size,bytes⟩ := begun.others _ (before.found_old found).1 fun same => other (BitVec.eq_of_toNat_eq same)
  exact contents_same size bytes

-- What the copy leaves is what it is meant to leave, if the text is the source.
theorem Begun.duplicates {u : Machine} {role'' : Nat → Role} {free'' : List Nat} (new : s.resolve dest = 0)
    (found : s.resolve source ≠ 0) (other : s.resolve source ≠ s.parent dest) (pasted : Pasted b t u role' role'' free' free'' text)
    (whole : (if text = [] then [0] else text) = s.contents (s.resolve source).toNat) :
    Duplicates s u source dest (s.resolve source) s.super.premierLibre := by
  have head := before.layout.chain.head
  obtain ⟨node,apart⟩ := before.found_old found
  have plain := begun.toLaid.plain
  obtain ⟨after,same⟩ := pasted.ordered begun.ordered plain
  refine ⟨?_,⟨?_,before.layout.chain.head_ne⟩,?_,⟨before.lookup source,found⟩,?_,?_,?_⟩
  · rw [before.lookup,new]
  · rw [after.lookup,same,begun.opens]
  · rw [head,pasted.types b begun.here]
    exact begun.type
  · rw [after.lookup,same,begun.leads source found]
  · rw [head,pasted.contents]
    exact whole
  · rw [pasted.toFiled.contents (begun.toCarries.node node) apart]
    exact begun.contents before found other

theorem Begun.copies (copies : Copies s source dest) :
    Returns (copyInto ((s.contents (s.resolve source).toNat).length+1) source s.super.premierLibre) t fun r u =>
      r = 0 ∧ Duplicates s u source dest (s.resolve source) s.super.premierLibre := by
  have head := before.layout.chain.head
  have count := before.layout.chain.count
  have found := copies.found
  have there := begun.leads source found
  obtain ⟨node,apart⟩ := before.found_old found
  obtain ⟨here,size,blank⟩ := begun.blank_file before
  have same := begun.contents before found copies.other
  have length := contents_length t (s.resolve source).toNat
  rw [same] at length
  have near := copies.near
  have run := copyInto_copies begun.ordered.layout begun.ordered.tree.toBrowsable begun.synced here size blank
    ((s.contents (s.resolve source).toNat).length+1) (by rw [there]; exact found) (by rw [there,head]; exact apart)
    (by rw [there]; omega)
  refine run.mono ?_ ?_
  · intro r u post
    obtain ⟨done,role'',free'',q,text,pasted,abreast,ended⟩ := post
    rw [there] at abreast ended
    rw [head] at pasted
    have new : s.resolve dest = 0 := by
      by_contra exists_
      exact copies.accepted ((rejected_iff before.layout before.tree.toBrowsable).mpr (.inr exists_))
    refine ⟨done,begun.duplicates before new found copies.other pasted ?_⟩
    rw [← same] at length near ⊢
    have last : q = (t.contents (s.resolve source).toNat).length := by
      rcases ended with ended | ⟨inside,stop⟩
      · omega
      · refine absurd ?_ copies.legible
        rw [← same]
        exact (mem_span _ _ _).mpr ⟨q,Nat.zero_le q,by omega,stop⟩
    rcases abreast.level with level | ⟨less,aligned,few⟩
    · have whole : text = t.contents (s.resolve source).toNat := by
        have full := abreast.whole
        rw [level,last,length] at full
        exact full
      rw [if_neg fun none => ?_]
      · exact whole
      · rw [none,List.length_nil] at level
        omega
    · rcases copies.enough with one | room
      · rw [← same] at one
        rw [one,List.length_singleton] at last
        rw [one,if_pos (List.eq_nil_of_length_eq_zero (by omega))]
      · have spent := begun.spent
        rw [← same,count,List.length_cons] at room
        omega
  · intro _ _ few
    rw [there] at few
    omega

-- The slot of the new entry has its blocs.
theorem Begun.slot_mapped {g : Nat} (parent : s.parent dest ≠ 0) (low : 20*s.vacancy (s.parent dest).toNat/512 ≤ g)
    (high : g < 20*s.vacancy (s.parent dest).toNat/512+
      ((20*s.vacancy (s.parent dest).toNat+19)/512-20*s.vacancy (s.parent dest).toNat/512+1)) :
    t.lookup (s.parent dest).toNat g ≠ 0 := by
  obtain ⟨node,dir,_⟩ := parent_dir before.tree.toBrowsable parent
  obtain ⟨m,role1,free1,spares,edited,_⟩ := begun.made
  have ok := edited.ok
  have slots := edited.slots
  obtain ⟨q,inside,rfl⟩ : ∃ q, q < 20*t.slots (s.parent dest).toNat ∧ q/512 = g := by
    by_cases first : g = 20*s.vacancy (s.parent dest).toNat/512
    · exact ⟨20*s.vacancy (s.parent dest).toNat,by omega,first.symm⟩
    · exact ⟨20*s.vacancy (s.parent dest).toNat+19,by omega,by omega⟩
  exact ok.mapped q inside

-- A text in the new file has found its blocs, and so has the entry.
theorem Begun.paid {u : Machine} {role'' : Nat → Role} {free'' : List Nat} (owned : Owned s role) (parent : s.parent dest ≠ 0)
    (room : s.vacancy (s.parent dest).toNat < 3174) (pasted : Pasted b t u role' role'' free' free'' text) (more : text ≠ []) :
    1+s.lacks (s.parent dest).toNat (s.vacancy (s.parent dest).toNat)+(text.length+511)/512 ≤ s.super.nbBlocLibre.toNat := by
  have near := pasted.near
  have long := List.length_pos_iff.mpr more
  have old := (parent_dir before.tree.toBrowsable parent).1
  have unused : role b = .free := (before.layout.vacant b).mpr (by simp)
  have entry : ∀ g, 20*s.vacancy (s.parent dest).toNat/512 ≤ g → g < 20*s.vacancy (s.parent dest).toNat/512+
      ((20*s.vacancy (s.parent dest).toNat+19)/512-20*s.vacancy (s.parent dest).toNat/512+1) → u.lookup (s.parent dest).toNat g ≠ 0 := by
    intro g low high
    have live := begun.slot_mapped before parent low high
    rw [pasted.kept _ g (begun.toCarries.node old) live]
    exact live
  have file : ∀ g, g < (text.length+511)/512 → u.lookup b g ≠ 0 := by
    intro g low
    have live := pasted.mapped (512*g) (by omega)
    rwa [show 512*g/512 = g by omega] at live
  have spent := owned.spent_on before.layout (begun.toCarries.trans pasted.toCarries) old unused (pasted.node begun.here)
    (by omega) (by omega) entry file
  have count := before.layout.chain.count
  unfold Machine.lacks
  omega

-- Which files a copy has been made of, and that the entry has not touched its source.
theorem Begun.identified {u : Machine} {role'' : Nat → Role} {free'' : List Nat} {i d : Word} (found : s.resolve source ≠ 0)
    (pasted : Pasted b t u role' role'' free' free'' text) (copied : Duplicates s u source dest i d) :
    u.contents b = s.contents (s.resolve source).toNat ∧
    t.contents (s.resolve source).toNat = s.contents (s.resolve source).toNat := by
  have head := before.layout.chain.head
  obtain ⟨node,apart⟩ := before.found_old found
  obtain ⟨after,leads⟩ := pasted.ordered begun.ordered begun.toLaid.plain
  obtain rfl : s.resolve source = i := by
    have first := copied.found.1
    rw [before.lookup] at first
    exact Except.ok.inj first
  obtain rfl : s.super.premierLibre = d := by
    have made := copied.made.1
    rw [after.lookup,leads,begun.opens] at made
    exact Except.ok.inj made
  have copy := copied.copied
  rw [head] at copy
  exact ⟨copy,(pasted.toFiled.contents (begun.toCarries.node node) apart).symm.trans copied.kept⟩

-- A copy is only what it is meant to be where the source stays away from what
-- the code takes for its end, and all of it has found its blocs.
theorem Begun.exact {i d : Word} (owned : Owned s role) (parent : s.parent dest ≠ 0) (found : s.resolve source ≠ 0)
    (room : s.vacancy (s.parent dest).toNat < 3174) (ran : copyInto reads source s.super.premierLibre t = (.ok r,u))
    (copied : Duplicates s u source dest i d) :
    s.resolve source ≠ s.parent dest ∧ eofByte ∉ s.contents (s.resolve source).toNat ∧
    (s.contents (s.resolve source).toNat).length < 63488 ∧ (s.contents (s.resolve source).toNat = [0] ∨
      1+s.lacks (s.parent dest).toNat (s.vacancy (s.parent dest).toNat)+((s.contents (s.resolve source).toNat).length+511)/512 ≤
        s.super.nbBlocLibre.toNat) := by
  have head := before.layout.chain.head
  have there := begun.leads source found
  obtain ⟨_,apart⟩ := before.found_old found
  obtain ⟨here,size,blank⟩ := begun.blank_file before
  have found' : t.resolve source ≠ 0 := by rw [there]; exact found
  have apart' : (t.resolve source).toNat ≠ s.super.premierLibre.toNat := by rw [there,head]; exact apart
  have browsable := begun.ordered.tree.toBrowsable
  obtain ⟨_,role1,free1,text1,pasted1⟩ := (copyInto_pastes begun.ordered.layout browsable begun.synced here size blank reads found'
    apart').result ran
  rw [head] at pasted1
  obtain ⟨copy,stays⟩ := begun.identified before found pasted1 copied
  have other : s.resolve source ≠ s.parent dest := by
    intro same
    rw [same] at stays
    exact begun.made.rewrites before.layout before.tree.toBrowsable parent stays
  have near : (s.contents (s.resolve source).toNat).length < 63488 := by
    rw [← copy,pasted1.contents]
    have bound := pasted1.near
    split
    · decide
    · exact bound
  have length := contents_length t (s.resolve source).toNat
  rw [stays] at length
  -- a source of that size has been read to its end, or to a byte 0xFE
  obtain ⟨_,role2,free2,q,text,pasted,abreast,_⟩ := (copyInto_copies begun.ordered.layout browsable begun.synced here size blank
    reads found' apart' (by rw [there]; omega)).result ran
  rw [head] at pasted
  rw [pasted.contents] at copy
  by_cases none : text = []
  · rw [if_pos none] at copy
    rw [← copy]
    exact ⟨other,by decide,by decide,.inl rfl⟩
  rw [if_neg none] at copy
  rw [← copy] at near ⊢
  exact ⟨other,abreast.plain,near,.inr (begun.paid before owned parent room pasted none)⟩

end begun

-- The head of the chain has been taken, and the count shows it.
theorem Carries.counted (carries : Carries s t role role' (b :: rest) free') (layout : Layout s role (b :: rest))
    (taken : role' b ≠ .free) : t.super.nbBlocLibre ≠ s.super.nbBlocLibre := by
  intro same
  have spent := carries.spent layout [b] (List.nodup_singleton b) (by
    intro y member
    obtain rfl := List.mem_singleton.mp member
    exact ⟨(layout.vacant y).mpr (by simp),taken⟩)
  rw [← layout.chain.count,← carries.layout.chain.count,same,List.length_singleton] at spent
  omega

-- Whatever do_cp reports behind a creation that went through, the count shows it,
-- and a name that is too long leads nowhere.
theorem Made.copied (made : Made s t role b rest dest) (laid : Laid s t role .file b (s.parent dest).toNat)
    (ordered : Ordered s role (b :: rest)) (text : 0 ∉ dest) (parent : s.parent dest ≠ 0)
    (ran : copyInto reads source s.super.premierLibre t = (.ok r,u)) :
    u.super.nbBlocLibre ≠ s.super.nbBlocLibre ∧ (15 < (lastBasename dest).length → (inumberOfPath dest u).1 = .ok 0) := by
  have layout := ordered.layout
  have head := layout.chain.head
  have listed : ∃ role' free', Carries s t role role' (b :: rest) free' ∧ Browsable t role' ∧ Synced t ∧ role' b = .inode ∧
      ∀ {d k e}, Live t role' d k e → e.name.length ≤ 15 := made.listed ordered text parent
  obtain ⟨role',free',carries,browsable,synced,here,few⟩ := listed
  obtain ⟨role'',free'',filed⟩ := (copyInto_filed carries.layout browsable synced (by rw [head]; exact here)
    (by rw [head]; exact laid.size) (by rw [head]; exact laid.blank) reads).result ran
  rw [head] at filed
  have plain := laid.plain
  have spares := filed.spares plain
  have both := carries.trans filed.toCarries
  refine ⟨both.counted layout (by rw [filed.node here]; decide),fun long => ?_⟩
  have browsable' := spares.browsable browsable
  rw [inumberOfPath_eq spares.layout browsable',hidden browsable' ?_ (fun live => few (spares.live.mp live)) long]
  rw [both.root]
  exact ordered.tree.root_real layout

theorem cpPaths_plain (typed : (Order.cp words).Typed s) (home : 0 ∉ s.cwd) (paths : cpPaths s words = some (source,dest)) :
    0 ∉ dest := by
  obtain ⟨stack,given⟩ := typed
  have pair : ∀ one two, 0 ∉ two → (do
      let canonicalSource ← canonicalPath s.cwd one
      let canonicalDest ← canonicalPath s.cwd two
      return (canonicalSource,canonicalDest)) = some (source,dest) → 0 ∉ dest := by
    intro one two plain equal
    simp only [Option.bind_eq_bind,Option.bind_eq_some_iff] at equal
    obtain ⟨x,_,y,second,same⟩ := equal
    cases same
    exact canonicalPath_plain second home plain
  match words,paths,given with
  | [one],paths,_ => exact pair one _ stack paths
  | one :: two :: _,paths,given => exact pair one two (given two (by simp)) paths

theorem doCp_paths (reads : Nat) (paths : cpPaths s words = some (source,dest)) : doCp reads s words = some (copyFile reads source dest) := by
  unfold doCp
  rw [if_neg fun none => ?_,paths]
  · rfl
  · subst none
    cases paths

theorem doCp_started {reads : Nat} {command : M Word} (given : words ≠ []) (started : doCp reads s words = some command) :
    ∃ source dest, cpPaths s words = some (source,dest) ∧ command = copyFile reads source dest := by
  unfold doCp at started
  rw [if_neg given] at started
  obtain ⟨⟨source,dest⟩,paths,same⟩ := Option.map_eq_some_iff.mp started
  exact ⟨source,dest,paths,same.symm⟩

-- No inode has the number that stands for a failure.
theorem Ordered.head_number (ordered : Ordered s role (b :: rest)) : s.super.premierLibre ≠ returnFailure := by
  intro same
  have layout := ordered.layout
  have bound := (layout.bound ((layout.vacant b).mpr (by simp)) (by simp)).2
  have value : s.super.premierLibre.toNat = b := layout.chain.head
  rw [same] at value
  have fits := layout.mounted.fits
  have constant : returnFailure.toNat = 4294967295 := by decide
  unfold Machine.start at fits
  omega

-- Where the words can be copied they are, or nothing happens.
theorem Copyable.copies (ordered : Ordered s role free) (typed : (Order.cp words).Typed s) (home : 0 ∉ s.cwd)
    (copyable : Copyable s words) : CopiesOrNothing s words := by
  rcases copyable with rfl | ⟨source,dest,paths,why⟩
  · exact ⟨0,_,1,s,rfl,rfl,fun wrong => absurd wrong (by decide),fun _ => ⟨fun _ => rfl,rfl⟩⟩
  have layout := ordered.layout
  have browsable := ordered.tree.toBrowsable
  by_cases refused : Rejected dest s
  · obtain ⟨i,t,ran,failed,still⟩ := returns_iff.mp
      (runs_createFile_rejected .file layout browsable ((rejected_iff layout browsable).mp refused))
    subst failed
    have unchanged := still.same.unchanged
    refine ⟨0,_,1,t,doCp_paths 0 paths,?_,fun wrong => absurd wrong (by decide),fun _ => ⟨unchanged.paths,unchanged.count⟩⟩
    unfold copyFile
    rw [bind_ok ran,if_pos rfl]
    rfl
  obtain ⟨two,copies⟩ := why.resolve_left refused
  obtain ⟨parent,exists_⟩ := not_or.mp fun wrong => refused ((rejected_iff layout browsable).mpr wrong)
  have new := not_not.mp exists_
  have count := layout.chain.count
  have room := copies.room
  obtain ⟨b,rest,rfl⟩ := List.exists_cons_of_length_pos (show 0 < free.length by omega)
  rw [List.length_cons] at count
  obtain ⟨i,m,created,done,role',free',begun⟩ := returns_iff.mp (runs_createFile_begins ordered (cpPaths_plain typed home paths)
    parent new copies.short copies.plain copies.slot (by omega))
  subst done
  obtain ⟨r,t,ran,zero,copied⟩ := returns_iff.mp (begun.copies ordered copies)
  refine ⟨(s.contents (s.resolve source).toNat).length+1,_,r,t,doCp_paths _ paths,?_,
    fun _ => ⟨two,source,dest,_,_,paths,copied⟩,fun wrong => absurd zero wrong⟩
  unfold copyFile
  rw [bind_ok created,if_neg ordered.head_number]
  exact ran

-- What do_cp has done where it has copied, or has done nothing.
theorem CopiesOrNothing.copyable (ordered : Ordered s role free) (owned : Owned s role) (typed : (Order.cp words).Typed s)
    (home : 0 ∉ s.cwd) (enters : Enters s words) (good : CopiesOrNothing s words) : Copyable s words := by
  by_cases none : words = []
  · exact .inl none
  obtain ⟨reads,command,r,u,started,ran,zero,other⟩ := good
  obtain ⟨source,dest,paths,rfl⟩ := doCp_started none started
  refine .inr ⟨source,dest,paths,?_⟩
  by_cases refused : Rejected dest s
  · exact .inl refused
  have layout := ordered.layout
  have browsable := ordered.tree.toBrowsable
  have plain := (enters source dest paths).resolve_left refused
  obtain ⟨parent,exists_⟩ := not_or.mp fun wrong => refused ((rejected_iff layout browsable).mpr wrong)
  have new := not_not.mp exists_
  have text := cpPaths_plain typed home paths
  unfold copyFile at ran
  obtain ⟨i,t,created,ran⟩ := bind_returned ran
  obtain ⟨slot,b,rest,rfl,enough | ⟨failed,role',carries⟩⟩ :=
    createFile_ended .file layout browsable owned ordered.synced parent new created
  swap
  -- add_entry reports its failure, but the inode has been taken
  · rw [if_pos failed] at ran
    cases ran
    have changed := carries.counted layout fun wrong => absurd ((carries.layout.vacant b).mp wrong) (by simp)
    exact absurd (other (by decide)).2 changed
  obtain ⟨done,made,laid,_⟩ := (runs_createFile_laid .file layout browsable parent new plain slot enough).result created
  subst done
  rw [if_neg ordered.head_number] at ran
  obtain ⟨changed,cut⟩ := made.copied laid ordered text parent ran
  have success : r = 0 := by
    by_contra failed
    exact changed (other failed).2
  obtain ⟨two,source',dest',j,d,paths',copied⟩ := zero success
  obtain ⟨rfl,rfl⟩ := Prod.mk.inj (Option.some.inj (paths.symm.trans paths'))
  have short : (lastBasename dest).length ≤ 15 := by
    by_contra long
    have found := copied.made.1
    rw [cut (Nat.lt_of_not_le long)] at found
    exact copied.made.2 (Except.ok.inj found).symm
  have found : s.resolve source ≠ 0 := by
    have there := copied.found.1
    rw [ordered.lookup] at there
    rw [Except.ok.inj there]
    exact copied.found.2
  obtain ⟨_,role',free',begun⟩ := (runs_createFile_begins ordered text parent new short plain slot enough).result created
  obtain ⟨apart,legible,near,whole⟩ := begun.exact ordered owned parent found slot ran copied
  have count := layout.chain.count
  rw [List.length_cons] at count
  exact .inr ⟨two,refused,short,plain,slot,by omega,found,apart,legible,near,whole⟩

-- do_cp copies or does nothing exactly where it can.
theorem cp_copies_or_nothing (ordered : Ordered s role free) (owned : Owned s role) (typed : (Order.cp words).Typed s)
    (home : 0 ∉ s.cwd) : (Copyable s words → CopiesOrNothing s words) ∧
      (Enters s words → CopiesOrNothing s words → Copyable s words) :=
  ⟨Copyable.copies ordered typed home,CopiesOrNothing.copyable ordered owned typed home⟩

-- A new volume, and the words of `cp /a /b` on it.
theorem fresh_cp : ∃ s, initSuper 0 0 (zeros 8 32) (recordedDisk (volumeOf 64)) = (.ok (),s) ∧ Fresh s ∧ s.nsec = 64 ∧
    s.cwd = [47] ∧ s.frame.text = [] ∧ ∀ c : Byte, c = 97 ∨ c = 98 → s.parent [47,c] = 1 ∧ s.resolve [47,c] = 0 := by
  obtain ⟨s,equal,fresh,size⟩ := volumeOf_fresh (n := 64) (by decide) (by decide) 0 (zeros 8 32)
  have frame := volumeOf_frame (n := 64) (by decide) (by decide) equal
  refine ⟨s,equal,fresh,size,volumeOf_cwd (n := 64) (by decide) (by decide) equal,by rw [frame]; rfl,fun c either => ?_⟩
  have shape : Absolute (dirname [47,c]) ∧ components (dirname [47,c]) = [] ∧ Absolute [47,c] ∧ components [47,c] = [[c]] := by
    rcases either with rfl | rfl <;> decide
  obtain ⟨absolute,rooted,absolute',single⟩ := shape
  have root : s.resolve (dirname [47,c]) = 1 := by
    unfold Machine.resolve
    rw [if_pos absolute,rooted]
    exact fresh.root
  have directory : s.IsDir (1 : Word).toNat := fresh.directory
  constructor
  · unfold Machine.parent
    dsimp only
    rw [root,if_pos directory]
  · unfold Machine.resolve
    rw [if_pos absolute',single,Machine.walk,fresh.root,fresh.step,if_pos rfl]

theorem cp_typed (frame : s.frame.text = []) : (Order.cp [[47,97],[47,98]]).Typed s := by
  refine ⟨by rw [frame]; simp,?_⟩
  decide

theorem cp_paths (cwd : s.cwd = [47]) : cpPaths s [[47,97],[47,98]] = some ([47,97],[47,98]) := by
  have one : canonicalPath [47] [47,97] = some [47,97] := by decide
  have two : canonicalPath [47] [47,98] = some [47,98] := by decide
  unfold cpPaths
  dsimp only
  rw [cwd,one,two]
  rfl

-- The first file of a new volume.
theorem fresh_begins (fresh : Fresh s) (size : s.nsec = 64) {c : Byte} (either : c = 97 ∨ c = 98) (parent : s.parent [47,c] = 1)
    (new : s.resolve [47,c] = 0) : ∃ t role' free', createFile [47,c] .file s = (.ok 2,t) ∧
      Begun s t (freshRole 64) role' 2 (List.range' 3 61) free' [47,c] := by
  have ordered := fresh.ordered
  have vacancy := fresh.vacancy
  have lacks := fresh.lacks
  have one : (1 : Word).toNat = 1 := rfl
  rw [size] at ordered
  have head : s.super.premierLibre = 2 := BitVec.eq_of_toNat_eq ordered.layout.chain.head
  have name : 0 ∉ [47,c] ∧ (lastBasename [47,c]).length ≤ 15 ∧ (newcomer 2 (lastBasename [47,c])).Plain := by
    unfold Entry.Plain
    rcases either with rfl | rfl <;> decide
  obtain ⟨text,short,plain⟩ := name
  have room : s.vacancy (s.parent [47,c]).toNat < 3174 := by
    rw [parent,one,vacancy]
    decide
  have enough : s.lacks (s.parent [47,c]).toNat (s.vacancy (s.parent [47,c]).toNat) ≤ (List.range' 3 61).length := by
    rw [parent,one,vacancy,lacks]
    decide
  obtain ⟨r,t,created,done,role',free',begun⟩ := returns_iff.mp (runs_createFile_begins ordered text (by rw [parent]; decide) new short
    (by rw [head]; exact plain) room enough)
  rw [done,head] at created
  exact ⟨t,role',free',created,begun⟩

-- The root has taken one bloc at most, and the next is the head of the chain.
theorem begun_head (fresh : Fresh s) (parent : s.parent dest = 1) (begun : Begun s t (freshRole 64) role' 2 (List.range' 3 61) free' dest) :
    60 ≤ t.super.nbBlocLibre.toNat ∧ (t.super.premierLibre = 2 ∨ t.super.premierLibre = 3 ∨ t.super.premierLibre = 4) := by
  have one : (1 : Word).toNat = 1 := rfl
  have chain := begun.ordered.layout.chain
  have spent := begun.spent
  rw [parent,one,fresh.vacancy,fresh.lacks,List.length_range'] at spent
  obtain ⟨used,split⟩ := begun.used
  have count := congrArg List.length split
  rw [List.length_cons,List.length_append,List.length_range'] at count
  have rest : free' = List.range' (2+used.length) (62-used.length) := by
    have dropped := congrArg (List.drop used.length) split
    rw [List.drop_left] at dropped
    rw [← dropped,show 2 :: List.range' 3 61 = List.range' 2 62 from rfl,List.drop_range',Nat.mul_one]
  have few := chain.count
  refine ⟨by omega,?_⟩
  have head : t.super.premierLibre.toNat = 2+used.length := by
    rw [rest,show 62-used.length = (61-used.length)+1 by omega,List.range'_succ] at chain
    exact chain.head
  have two : (2 : Word).toNat = 2 := rfl
  have three : (3 : Word).toNat = 3 := rfl
  have four : (4 : Word).toNat = 4 := rfl
  simp only [← BitVec.toNat_inj,two,three,four]
  omega

-- There is nothing in /a then, and `cp /a /b` copies that.
theorem copyable_file (fresh : Fresh s) (size : s.nsec = 64) (cwd : s.cwd = [47]) (parent : s.parent [47,97] = 1) (new : s.resolve [47,97] = 0)
    (absent : s.resolve [47,98] = 0) (begun : Begun s t (freshRole 64) role' 2 (List.range' 3 61) free' [47,97]) :
    Copyable t [[47,97],[47,98]] := by
  have before := fresh.ordered
  have one : (1 : Word).toNat = 1 := rfl
  have two : (2 : Word).toNat = 2 := rfl
  rw [size] at before
  have head : s.super.premierLibre = 2 := BitVec.eq_of_toNat_eq before.layout.chain.head
  have ordered := begun.ordered
  have layout := ordered.layout
  have browsable := ordered.tree.toBrowsable
  obtain ⟨root,dir,slots,_⟩ := first_entry fresh parent begun.made
  have parent' : t.parent [47,98] = 1 := by
    have here : t.resolve (dirname [47,98]) = 1 := by
      unfold Machine.resolve
      rw [if_pos (by decide),show components (dirname [47,98]) = [] by decide]
      exact root
    unfold Machine.parent
    dsimp only
    rw [here,if_pos (show t.IsDir (1 : Word).toNat from dir)]
  have new' : t.resolve [47,98] = 0 := by
    have made : ∃ role free, Ordered t role free ∧ _ ∧ Elsewhere [47,97] s t :=
      before.made (by decide) (by rw [parent]; decide) new (by decide) begun.made
    obtain ⟨_,_,after,_,others⟩ := made
    have same := others [47,98] (by decide)
    rw [after.lookup,before.lookup,absent] at same
    exact Except.ok.inj same
  have found : t.resolve [47,97] = 2 := by
    rw [begun.opens,head]
  have node := browsable.root
  rw [root,one] at node
  have low := vacancy_le t 1
  have lacks := lacks_vacancy (browsable.dirs 1 node dir)
  obtain ⟨more,first⟩ := begun_head fresh parent begun
  have plain : (newcomer t.super.premierLibre (lastBasename [47,98])).Plain := by
    unfold Entry.Plain
    rcases first with h | h | h <;> (rw [h]; decide)
  have contents : t.contents 2 = [0] := by
    unfold Machine.contents
    rw [begun.size,begun.blank]
    rfl
  have cwd' : t.cwd = [47] := begun.within.cwd.trans cwd
  refine .inr ⟨[47,97],[47,98],cp_paths cwd',.inr ⟨by decide,?_,by decide,plain,?_,?_,?_,?_,?_,?_,.inl ?_⟩⟩
  · rw [rejected_iff layout browsable,parent',new']
    decide
  · rw [parent',one]
    omega
  · rw [parent',one]
    omega
  · rw [found]
    decide
  · rw [found,parent']
    decide
  · rw [found,two,contents]
    decide
  · rw [found,two,contents]
    decide
  · rw [found,two,contents]

-- With /a it is copied, and without it nothing can be.
theorem cp_copies_or_nothing_file : ∃ s t, initSuper 0 0 (zeros 8 32) (recordedDisk (volumeOf 64)) = (.ok (),s) ∧
    createFile [47,97] .file s = (.ok 2,t) ∧ CopiesOrNothing t [[47,97],[47,98]] ∧ ¬ CopiesOrNothing s [[47,97],[47,98]] := by
  obtain ⟨s,equal,fresh,size,cwd,frame,paths⟩ := fresh_cp
  obtain ⟨parent,new⟩ := paths 97 (.inl rfl)
  obtain ⟨parent',absent⟩ := paths 98 (.inr rfl)
  obtain ⟨t,role',free',created,begun⟩ := fresh_begins fresh size (.inl rfl) parent new
  have before := fresh.ordered
  have owned := fresh.housed.owned
  rw [size] at before owned
  have head : s.super.premierLibre = 2 := BitVec.eq_of_toNat_eq before.layout.chain.head
  have home : ∀ {m : Machine}, m.cwd = [47] → 0 ∉ m.cwd := by
    intro m same
    rw [same]
    decide
  refine ⟨s,t,equal,created,?_,fun good => ?_⟩
  · have frame' : t.frame.text = [] := by rw [begun.within.frame,frame]
    exact (cp_copies_or_nothing begun.ordered (begun.toCarries.owned owned) (cp_typed frame')
      (home (begun.within.cwd.trans cwd))).1 (copyable_file fresh size cwd parent new absent begun)
  · have enters : Enters s [[47,97],[47,98]] := by
      intro source dest given
      rw [cp_paths cwd] at given
      obtain ⟨rfl,rfl⟩ := Prod.mk.inj (Option.some.inj given)
      refine .inr ?_
      rw [head]
      unfold Entry.Plain
      decide
    rcases (cp_copies_or_nothing before owned (cp_typed frame) (home cwd)).2 enters good with wrong | ⟨source,dest,given,why⟩
    · cases wrong
    rw [cp_paths cwd] at given
    obtain ⟨rfl,rfl⟩ := Prod.mk.inj (Option.some.inj given)
    rcases why with refused | ⟨_,copies⟩
    · rw [rejected_iff before.layout before.tree.toBrowsable,parent',absent] at refused
      exact refused.elim (fun wrong => absurd wrong (by decide)) fun wrong => wrong rfl
    · exact copies.found new

-- A source that is not there: do_cp reports that, and leaves /b behind.
theorem cp_leaves_file : ∃ s t, initSuper 0 0 (zeros 8 32) (recordedDisk (volumeOf 64)) = (.ok (),s) ∧
    (inumberOfPath [47,97] s).1 = .ok 0 ∧ (inumberOfPath [47,98] s).1 = .ok 0 ∧ copyFile 0 [47,97] [47,98] s = (.ok 1,t) ∧
    (inumberOfPath [47,98] t).1 = .ok 2 ∧ t.super.nbBlocLibre ≠ s.super.nbBlocLibre ∧ ¬ CopiesOrNothing s [[47,97],[47,98]] := by
  obtain ⟨s,equal,fresh,size,cwd,_,paths⟩ := fresh_cp
  obtain ⟨_,missing⟩ := paths 97 (.inl rfl)
  obtain ⟨parent,new⟩ := paths 98 (.inr rfl)
  obtain ⟨m,role',free',created,begun⟩ := fresh_begins fresh size (.inr rfl) parent new
  have before := fresh.ordered
  rw [size] at before
  have head : s.super.premierLibre = 2 := BitVec.eq_of_toNat_eq before.layout.chain.head
  have gone : m.resolve [47,97] = 0 := by
    have made : ∃ role free, Ordered m role free ∧ _ ∧ Elsewhere [47,98] s m :=
      before.made (by decide) (by rw [parent]; decide) new (by decide) begun.made
    obtain ⟨_,_,after,_,others⟩ := made
    have same := others [47,97] (by decide)
    rw [after.lookup,before.lookup,missing] at same
    exact Except.ok.inj same
  obtain ⟨here,empty,blank⟩ := begun.blank_file before
  rw [head] at here empty blank
  -- however often the loop could read, it is not reached
  have run : ∀ reads, ∃ t, copyFile reads [47,97] [47,98] s = (.ok 1,t) ∧ Still m t := by
    intro reads
    obtain ⟨r,t,ran,failed,still⟩ := returns_iff.mp (copyInto_missing begun.ordered.layout begun.ordered.tree.toBrowsable begun.synced
      here empty blank reads gone)
    subst failed
    refine ⟨t,?_,still⟩
    unfold copyFile
    rw [bind_ok created,if_neg (by decide)]
    exact ran
  have changed : m.super.nbBlocLibre ≠ s.super.nbBlocLibre :=
    begun.toCarries.counted before.layout (by rw [begun.here]; decide)
  obtain ⟨t,ran,still⟩ := run 0
  refine ⟨s,t,equal,?_,?_,ran,?_,?_,?_⟩
  · rw [before.lookup,missing]
  · rw [before.lookup,new]
  · rw [(begun.ordered.still still).lookup,still.same.resolve,begun.opens,head]
  · rw [still.same.super]
    exact changed
  intro post
  obtain ⟨reads,command,r,u,started,ended,_,other⟩ := post
  obtain ⟨source,dest,given,rfl⟩ := doCp_started (by simp) started
  rw [cp_paths cwd] at given
  obtain ⟨rfl,rfl⟩ := Prod.mk.inj (Option.some.inj given)
  obtain ⟨v,ran',still'⟩ := run reads
  rw [ran'] at ended
  cases ended
  have same := (other (by decide)).2
  rw [still'.same.super] at same
  exact changed same

end AsePlusPlus
