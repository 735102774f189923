import AsePlusPlus.Lib.Slots
import AsePlusPlus.Lib.Trace
import AsePlusPlus.Creation
import AsePlusPlus.Overwrite

namespace AsePlusPlus
open Words Program Trace

variable {role role' : Nat → Role} {free free' : List Nat} {s t u : Machine} {fd : FileDesc} {content : Nat → Byte}
variable {d k m n : Nat} {e : Entry} {idir inumber : Word} {name : List Byte}

-- The name that an entry is found under; a free slot has none.
def Entry.key (e : Entry) : Option (List Byte) := if e.entInumber = 0 then none else some e.name

theorem key_none : e.key = none ↔ e.entInumber = 0 := by
  unfold Entry.key
  split
  · rename_i null
    exact ⟨fun _ => null,fun _ => rfl⟩
  · rename_i live
    exact ⟨fun wrong => (nomatch wrong),fun null => absurd null live⟩

theorem key_some : e.key = some name ↔ Entry.names name e := by
  unfold Entry.key Entry.names
  split
  · rename_i null
    exact ⟨fun wrong => (nomatch wrong),fun both => absurd null both.1⟩
  · rename_i live
    exact ⟨fun same => ⟨live,Option.some.inj same⟩,fun both => congrArg some both.2⟩

theorem vacated_key : vacated.key = none := key_none.mpr vacated_null

theorem entries_length (s : Machine) (d : Nat) : (s.entries d).length = s.slots d := by simp [Machine.entries]

theorem entries_get (s : Machine) (d k : Nat) : (s.entries d)[k]? = if k < s.slots d then some (s.slotAt d k) else none := by
  unfold Machine.entries
  split
  · rename_i inside
    rw [List.getElem?_map,List.getElem?_range inside]
    rfl
  · rename_i outside
    rw [List.getElem?_eq_none]
    simpa using outside

theorem vacancy_slots (s : Machine) (d : Nat) : Slots.vacancy Entry.key (s.entries d) = s.vacancy d := by
  unfold Slots.vacancy Machine.vacancy
  congr 1
  funext e
  exact decide_eq_decide.mpr key_none

theorem child_slots (s : Machine) (d : Nat) (name : List Byte) :
    s.child d name = (Slots.find Entry.key (s.entries d) name).elim 0 (·.entInumber) := by
  have same : (fun e => decide (Entry.names name e)) = fun e => decide (Entry.key e = some name) :=
    funext fun e => decide_eq_decide.mpr key_some.symm
  unfold Machine.child Slots.find
  rw [same]

-- What add_entry and del_entry do to the array of slots.
theorem Edited.added (edited : Edited s t role role' free free' d (s.vacancy d) e) :
    t.entries d = Slots.add Entry.key (s.entries d) e := by
  refine List.ext_getElem? fun i => ?_
  have low := edited.low
  rw [Slots.getElem?_add,vacancy_slots,entries_get,entries_get,edited.slots]
  by_cases here : i = s.vacancy d
  · subst here
    rw [if_pos (by omega),if_pos rfl,edited.written]
  · rw [if_neg here,edited.rest i here]
    by_cases inside : i < s.slots d
    · rw [if_pos (by omega),if_pos inside]
    · rw [if_neg (by omega),if_neg inside]

theorem first_place (first : First (Entry.names name) (s.byteAt d) 0 (s.slots d) k) :
    Slots.place Entry.key (s.entries d) name = k := by
  have same : (fun e => decide (Entry.key e = some name)) = fun e => decide (Entry.names name e) :=
    funext fun e => decide_eq_decide.mpr key_some
  unfold Slots.place
  rw [same]
  exact first_index first

theorem Edited.dropped (edited : Edited s t role role' free free' d k vacated) (inside : k < s.slots d)
    (first : First (Entry.names name) (s.byteAt d) 0 (s.slots d) k) :
    t.entries d = Slots.drop Entry.key (s.entries d) name vacated := by
  refine List.ext_getElem? fun i => ?_
  rw [Slots.getElem?_drop,first_place first,entries_length,entries_get,entries_get,edited.slots]
  by_cases here : i = k
  · subst here
    rw [if_pos (by omega),if_pos ⟨rfl,inside⟩,edited.written]
  · rw [if_neg (c := i = k ∧ i < s.slots d) (fun both => here both.1),edited.rest i here]
    by_cases within : i < s.slots d
    · rw [if_pos (by omega),if_pos within]
    · rw [if_neg (by omega),if_neg within]

-- The loop of new_entry and find_entry, run to the end with every entry kept.
def scanEntries : Nat → FileDesc → Vector Byte 20 → M (List Entry)
  | 0,_,_ => stop .loop
  | fuel+1,fd,entry => do
    let (status,entry,fd) ← readIfile fd entry
    if status = readEof then
      return []
    else
      let rest ← scanEntries fuel fd entry
      return Entry.decode entry :: rest

def scanDir (idir : Word) : M (List Entry) := do
  let (_,fd) ← openIfile idir
  let m ← get
  let fd ← seek2Ifile fd 0
  scanEntries scanFuel fd m.frame.entry

theorem Scan.rest {fuel : Nat} (scan : Scan s t role role' free free' content m k fd) (buf : Vector Byte 20) (inside : k ≤ m)
    (enough : m-k < fuel) :
    Returns (scanEntries fuel fd buf) t fun entries _ => entries = (List.range' k (m-k)).map (slotOf content) := by
  induction fuel generalizing fd t k buf with
  | zero => exact absurd enough (Nat.not_lt_zero _)
  | succ fuel ih =>
      rw [scanEntries,Returns,runs_bind]
      rcases Nat.lt_or_ge k m with before | after
      swap
      · obtain rfl : k = m := Nat.le_antisymm inside after
        refine (scan.end buf).mono ?_ (fun _ _ => id)
        intro r u ended
        obtain ⟨rfl,rfl⟩ := ended
        dsimp only
        rw [if_pos rfl,runs_pure,Nat.sub_self]
        rfl
      refine (scan.entry buf before).mono ?_ (fun _ _ => id)
      intro result u post
      obtain ⟨status,entry,fd'⟩ := result
      obtain ⟨next,_,goes,slot,_⟩ := post
      dsimp only at next goes slot ⊢
      obtain ⟨j,count⟩ : ∃ j, m-k = j+1 := ⟨m-k-1,by omega⟩
      rw [if_neg goes,slot,runs_bind]
      refine (ih next entry before (by omega)).mono ?_ (fun _ _ => id)
      intro entries v rest
      rw [runs_pure,rest,count,List.range'_succ,List.map_cons,show m-(k+1) = j by omega]

theorem runs_scanDir (layout : Layout s role free) (node : role idir.toNat = .inode) (ok : DirOk s idir.toNat) :
    Returns (scanDir idir) s fun entries _ => entries = s.entries idir.toNat := by
  have few := ok.slotted.few
  unfold scanDir
  rw [Returns,runs_bind]
  refine (Scan.opened layout (Quiet.refl s) node ok.size ok.slotted).mono ?_ (fun _ _ => id)
  intro result t post
  obtain ⟨_,fd⟩ := result
  obtain ⟨scan,_,_⟩ := post
  dsimp only at scan ⊢
  rw [runs_bind,runs_get,runs_bind]
  refine (scan.seek2 (show (0 : Word).toNat = 20*0 from rfl) (Nat.zero_le _)).mono ?_ (fun _ _ => id)
  intro fd' u post
  obtain ⟨start,_,_⟩ := post
  refine (start.rest t.frame.entry (Nat.zero_le _) (by unfold scanFuel; omega)).mono ?_ (fun _ _ => id)
  intro entries v all
  rw [all,Nat.sub_zero,← List.range_eq_range']
  rfl

inductive DirCall where
  | add (inumber : Word) (name : List Byte)
  | del (name : List Byte)

def DirCall.run (d : Word) : DirCall → M Word
  | .add inumber name => addEntry d inumber name
  | .del name => delEntry d name

-- The calls that callers make: names are C strings, and a new one is not in use
-- and not longer than an entry holds; the slot it needs can be had.
def DirCall.Asked (d : Word) (s : Machine) : DirCall → Prop
  | .add inumber name => inumber ≠ 0 ∧ 0 ∉ name ∧ name.length ≤ 15 ∧ s.child d.toNat name = 0 ∧
      s.lacks d.toNat (s.vacancy d.toNat) ≤ s.super.nbBlocLibre.toNat
  | .del name => 0 ∉ name

structure DirStep (d : Word) (s : Machine) (c : DirCall) (t : Machine) : Prop where
  asked : c.Asked d s
  ran : ∃ r, c.run d s = (.ok r,t)

-- No byte of the entry is taken for READ_EOF, and its slot lies in the blocs
-- that the direct pointers map.
def DirCall.Fits (d : Word) (s : Machine) : DirCall → Prop
  | .add inumber name => (newcomer inumber name).Plain ∧ s.vacancy d.toNat < 3174
  | .del _ => True

-- What a call makes of the slots, and of the inumber last added for each name.
def DirCall.act (entries : List Entry) : DirCall → List Entry
  | .add inumber name => Slots.add Entry.key entries (newcomer inumber name)
  | .del name => Slots.drop Entry.key entries name vacated

def DirCall.note (last : List Byte → Word) : DirCall → List Byte → Word
  | .add inumber name => Function.update last name inumber
  | .del name => Function.update last name 0

def slotsAfter (past : List (Machine × DirCall)) : List Entry := (past.map Prod.snd).foldl DirCall.act []
def lastAdded (past : List (Machine × DirCall)) : List Byte → Word := (past.map Prod.snd).foldl DirCall.note fun _ => 0

variable {past : List (Machine × DirCall)} {c : DirCall}

theorem slotsAfter_snoc (past : List (Machine × DirCall)) (s : Machine) (c : DirCall) :
    slotsAfter (past ++ [(s,c)]) = c.act (slotsAfter past) := by simp [slotsAfter]

theorem lastAdded_snoc (past : List (Machine × DirCall)) (s : Machine) (c : DirCall) :
    lastAdded (past ++ [(s,c)]) = c.note (lastAdded past) := by simp [lastAdded]

theorem DirOk.same (ok : DirOk s d) (same : Same s t) : DirOk t d := by
  obtain ⟨_,_,_,rfl⟩ := same
  exact ⟨ok.1,ok.2,ok.3⟩

theorem child_zero : s.child d name = 0 ↔ Slots.find Entry.key (s.entries d) name = none := by
  rw [child_slots]
  cases found : Slots.find Entry.key (s.entries d) name with
  | none => exact ⟨fun _ => rfl,fun _ => rfl⟩
  | some e =>
      have named : e.key = some name := of_decide_eq_true (List.find?_some (p := fun e => decide (Entry.key e = some name)) found)
      exact ⟨fun null => absurd null (key_some.mp named).1,fun wrong => (nomatch wrong)⟩

theorem newcomer_key (real : inumber ≠ 0) (text : 0 ∉ name) (short : name.length ≤ 15) : (newcomer inumber name).key = some name := by
  have whole : (newcomer inumber name).name = name := by rw [newcomer_name text,List.take_of_length_le short]
  exact key_some.mpr ⟨real,whole⟩

-- The directory is what its history says.
structure Indexed (d : Word) (past : List (Machine × DirCall)) (s : Machine) (role : Nat → Role) (free : List Nat) : Prop where
  layout : Layout s role free
  node : role d.toNat = .inode
  dir : s.IsDir d.toNat
  ok : DirOk s d.toNat
  entries : s.entries d.toNat = slotsAfter past
  distinct : Slots.Distinct Entry.key (slotsAfter past)
  last : ∀ name, s.child d.toNat name = lastAdded past name

section indexed
variable {d : Word} (indexed : Indexed d past s role free)
include indexed

theorem Indexed.same (same : Same s t) : Indexed d past t role free :=
  ⟨indexed.layout.same same,indexed.node,(same.isDir _).mpr indexed.dir,indexed.ok.same same,
    (same.entries _).trans indexed.entries,indexed.distinct,fun name => by
      rw [child_slots,same.entries,← child_slots]
      exact indexed.last name⟩

theorem Indexed.add (asked : (DirCall.add inumber name).Asked d s) (fits : (DirCall.add inumber name).Fits d s) :
    Returns (addEntry d inumber name) s fun r t => r = returnSuccess ∧
      ∃ role' free', Indexed d (past ++ [(s,.add inumber name)]) t role' free' := by
  obtain ⟨real,text,short,new,enough⟩ := asked
  obtain ⟨plain,room⟩ := fits
  rw [indexed.layout.chain.count] at enough
  refine (runs_addEntry indexed.layout indexed.ok indexed.node indexed.dir room plain enough).mono ?_ (fun _ _ => id)
  intro r t post
  obtain ⟨done,role',free',edited,_⟩ := post
  have named := newcomer_key real text short
  have absent := child_zero.mp new
  have entries := edited.added
  rw [indexed.entries] at absent entries
  have after := slotsAfter_snoc past s (.add inumber name)
  refine ⟨done,role',free',edited.layout,edited.node indexed.node,(edited.isDir indexed.node).mpr indexed.dir,edited.ok,
    entries.trans after.symm,?_,fun other => ?_⟩
  · rw [after]
    exact Slots.distinct_add indexed.distinct named absent
  · have last := indexed.last other
    rw [child_slots,indexed.entries] at last
    rw [child_slots,entries,Slots.find_add indexed.distinct named absent,lastAdded_snoc]
    by_cases same : other = name
    · subst same
      rw [if_pos rfl,DirCall.note,Function.update_self]
      rfl
    · rw [if_neg same,DirCall.note,Function.update_of_ne same]
      exact last

theorem Indexed.del (name : List Byte) :
    Returns (delEntry d name) s fun r t => r = (if lastAdded past name = 0 then returnFailure else 20) ∧
      ∃ role' free', Indexed d (past ++ [(s,.del name)]) t role' free' := by
  have step : s.step d name = lastAdded past name := by
    unfold Machine.step
    rw [if_pos indexed.dir]
    exact indexed.last name
  have after := slotsAfter_snoc past s (.del name)
  refine (runs_delEntry indexed.layout (fun _ => indexed.ok) indexed.node).mono ?_ (fun _ _ => id)
  intro r t post
  rcases post with ⟨failed,still,absent⟩ | ⟨done,found,k,role',free',first,inside,edited,_⟩
  · rw [step] at absent
    have gone := indexed.last name
    rw [absent,child_zero,indexed.entries] at gone
    have kept : slotsAfter (past ++ [(s,.del name)]) = slotsAfter past := after.trans (Slots.drop_absent gone vacated)
    have carried := indexed.same still.same
    refine ⟨by rw [if_pos absent]; exact failed,role,free,carried.layout,carried.node,carried.dir,carried.ok,?_,?_,fun other => ?_⟩
    · rw [kept]
      exact carried.entries
    · rw [kept]
      exact carried.distinct
    · rw [carried.last,lastAdded_snoc,DirCall.note]
      by_cases same : other = name
      · rw [same,Function.update_self]
        exact absent
      · rw [Function.update_of_ne same]
  · rw [step] at found
    have entries := edited.dropped inside first
    rw [indexed.entries] at entries
    refine ⟨by rw [if_neg found]; exact done,role',free',edited.layout,edited.node indexed.node,
      (edited.isDir indexed.node).mpr indexed.dir,edited.ok,entries.trans after.symm,?_,fun other => ?_⟩
    · rw [after]
      exact Slots.distinct_drop indexed.distinct vacated_key name
    · have last := indexed.last other
      rw [child_slots,indexed.entries] at last
      rw [child_slots,entries,Slots.find_drop indexed.distinct vacated_key,lastAdded_snoc]
      by_cases same : other = name
      · subst same
        rw [if_pos rfl,DirCall.note,Function.update_self]
        rfl
      · rw [if_neg same,DirCall.note,Function.update_of_ne same]
        exact last

theorem Indexed.scanned : Returns (scanDir d) s fun entries _ => entries = slotsAfter past := by
  rw [← indexed.entries]
  exact runs_scanDir indexed.layout indexed.node indexed.ok

theorem Indexed.opened : Returns (openIfile d) s fun r t =>
    Scan s t role role free free (s.byteAt d.toNat) (s.slots d.toNat) 0 r.2 :=
  (Scan.opened indexed.layout (Quiet.refl s) indexed.node indexed.ok.size indexed.ok.slotted).mono (fun _ _ => And.left)
    (fun _ _ => id)

theorem Indexed.chosen : Returns (openIfile d >>= fun r => newEntry r.2) s fun r _ =>
    r.1.toNat = Slots.vacancy Entry.key (slotsAfter past) := by
  rw [Returns,runs_bind]
  refine indexed.opened.mono ?_ (fun _ _ => id)
  intro r t scan
  refine scan.vacant.mono ?_ (fun _ _ => id)
  intro r u post
  obtain ⟨n,first,_,_,value,_⟩ := post
  rw [← indexed.entries,vacancy_slots,vacancy_first first]
  exact value

theorem Indexed.found (name : List Byte) : Returns (openIfile d >>= fun r => findEntry r.2 name) s fun r _ =>
    if Slots.place Entry.key (slotsAfter past) name < (slotsAfter past).length
    then r.1.toNat = Slots.place Entry.key (slotsAfter past) name
    else r.1 = returnFailure := by
  rw [Returns,runs_bind]
  refine indexed.opened.mono ?_ (fun _ _ => id)
  intro r t scan
  refine (scan.find name).mono ?_ (fun _ _ => id)
  intro r u post
  obtain ⟨n,first,_,_,value,_⟩ := post
  rw [← indexed.entries,first_place first,entries_length]
  exact value

theorem Indexed.lookup (name : List Byte) : Returns (inumberOfBasename d name) s fun r _ => r = lastAdded past name := by
  refine (runs_inumberOfBasename indexed.layout (fun _ => indexed.ok) indexed.node).mono ?_ (fun _ _ => id)
  intro r t post
  rw [post.1,← indexed.last name]
  exact if_pos indexed.dir

end indexed

theorem act_keeps (c : DirCall) {entries : List Entry} (used : entries[k]?.bind Entry.key = some name) (other : c ≠ .del name) :
    (c.act entries)[k]? = entries[k]? := by
  cases c with
  | add => exact Slots.add_keeps used
  | del gone =>
      apply Slots.drop_keeps used
      intro same
      subst same
      exact other rfl

theorem Indexed.start {d : Word} (layout : Layout s role free) (node : role d.toNat = .inode) (dir : s.IsDir d.toNat)
    (empty : s.entryAt d.toNat 1 = 0) : Indexed d [] s role free := by
  have none : s.slots d.toNat = 0 := by
    unfold Machine.slots
    rw [empty]
    decide
  have entries : s.entries d.toNat = [] := by
    unfold Machine.entries
    rw [none]
    rfl
  have outside : ∀ q, ¬ q < 20*s.slots d.toNat := by
    intro q low
    rw [none] at low
    exact Nat.not_lt_zero q low
  have size : (s.entryAt d.toNat 1).toNat = 20*s.slots d.toNat-1 := by
    rw [empty,none]
    rfl
  have few : s.slots d.toNat ≤ 3174 := by
    rw [none]
    exact Nat.zero_le _
  refine ⟨layout,node,dir,⟨size,⟨few,fun q low => absurd low (outside q)⟩,fun q low => absurd low (outside q)⟩,entries,
    Slots.distinct_nil _,fun name => ?_⟩
  rw [child_slots,entries]
  rfl

theorem Indexed.run {d : Word} (start : Indexed d [] s role free) (run : Run (DirStep d) s past t)
    (fits : Met (fun s c => c.Fits d s) past) : ∃ role' free', Indexed d past t role' free' := by
  induction run with
  | start => exact ⟨role,free,start⟩
  | next front taken ih =>
      obtain ⟨before,fit⟩ := met_snoc.mp fits
      obtain ⟨role1,free1,indexed⟩ := ih before
      obtain ⟨asked,r,ran⟩ := taken
      rename_i c
      cases c with
      | add inumber name => exact ((indexed.add asked fit).result ran).2
      | del name => exact ((indexed.del name).result ran).2

-- The directory file as the source reads it after a history of calls: the scan
-- sees the slots, the next call changes one of them, and the lookups agree.
structure DirLawful (d : Word) (past : List (Machine × DirCall)) (t : Machine) : Prop where
  scanned : Returns (scanDir d) t fun entries _ => entries = slotsAfter past
  chosen : Returns (openIfile d >>= fun r => newEntry r.2) t fun r _ => r.1.toNat = Slots.vacancy Entry.key (slotsAfter past)
  found : ∀ name, Returns (openIfile d >>= fun r => findEntry r.2 name) t fun r _ =>
    if Slots.place Entry.key (slotsAfter past) name < (slotsAfter past).length
    then r.1.toNat = Slots.place Entry.key (slotsAfter past) name
    else r.1 = returnFailure
  added : ∀ inumber name, (DirCall.add inumber name).Asked d t → (DirCall.add inumber name).Fits d t →
    Returns (addEntry d inumber name) t fun r u => r = returnSuccess ∧
      Returns (scanDir d) u fun entries _ => entries = Slots.add Entry.key (slotsAfter past) (newcomer inumber name)
  deleted : ∀ name, Returns (delEntry d name) t fun r u => r = (if lastAdded past name = 0 then returnFailure else 20) ∧
    Returns (scanDir d) u fun entries _ => entries = Slots.drop Entry.key (slotsAfter past) name vacated
  kept : ∀ (c : DirCall) (k : Nat) name, (slotsAfter past)[k]?.bind Entry.key = some name → c ≠ .del name →
    (c.act (slotsAfter past))[k]? = (slotsAfter past)[k]?
  lookup : ∀ name, Returns (inumberOfBasename d name) t fun r _ => r = lastAdded past name

theorem Indexed.lawful {d : Word} (indexed : Indexed d past t role free) : DirLawful d past t := by
  refine ⟨indexed.scanned,indexed.chosen,indexed.found,?_,?_,fun c k name used other => act_keeps c used other,indexed.lookup⟩
  · intro inumber name asked fits
    refine (indexed.add asked fits).mono ?_ (fun _ _ => id)
    intro r u post
    obtain ⟨done,role',free',after⟩ := post
    have scanned := after.scanned
    rw [slotsAfter_snoc] at scanned
    exact ⟨done,scanned⟩
  · intro name
    refine (indexed.del name).mono ?_ (fun _ _ => id)
    intro r u post
    obtain ⟨done,role',free',after⟩ := post
    have scanned := after.scanned
    rw [slotsAfter_snoc] at scanned
    exact ⟨done,scanned⟩

-- From an empty directory on, in every run whose additions fit.
theorem directory_lawful {d : Word} (layout : Layout s role free) (node : role d.toNat = .inode) (dir : s.IsDir d.toNat)
    (empty : s.entryAt d.toNat 1 = 0) (run : Run (DirStep d) s past t) (fits : Met (fun s c => c.Fits d s) past) :
    DirLawful d past t := by
  obtain ⟨role',free',indexed⟩ := (Indexed.start layout node dir empty).run run fits
  exact indexed.lawful

-- One entry in the root of a new volume.
theorem first_inscribed (inumber : Word) (real : inumber ≠ 0) : ∃ s t, initSuper 0 0 (zeros 8 32) (recordedDisk (volumeOf 64)) = (.ok (),s) ∧
    Fresh s ∧ s.frame = (recordedDisk (volumeOf 64)).frame ∧ DirStep 1 s (.add inumber [97]) t ∧ s.vacancy 1 = 0 ∧
    ∃ role' free', Inscribed s t (freshRole s.nsec) role' (List.range' 2 (s.nsec-2)) free' 1 0 (newcomer inumber [97]).encode := by
  obtain ⟨s,equal,fresh,size⟩ := volumeOf_fresh (n := 64) (by decide) (by decide) 0 (zeros 8 32)
  have frame := volumeOf_frame (n := 64) (by decide) (by decide) equal
  have one : (1 : Word).toNat = 1 := rfl
  have layout := fresh.layout
  have node := (freshRole_node s.nsec 1).mpr rfl
  have indexed := Indexed.start (d := 1) layout node fresh.directory fresh.empty
  have count := layout.chain.count
  rw [List.length_range',size] at count
  have vacancy := fresh.vacancy
  have enough : s.lacks 1 (s.vacancy 1) ≤ 62 := by
    rw [vacancy,fresh.lacks]
    decide
  have room : s.vacancy 1 < 3174 := by
    rw [vacancy]
    decide
  have ran : Returns (addEntry 1 inumber [97]) s _ := runs_addEntry_any layout indexed.ok node fresh.directory room
    (by rw [one,List.length_range',size]; exact enough)
  obtain ⟨r,t,added,_,role',free',inscribed,_⟩ := returns_iff.mp ran
  have asked : (DirCall.add inumber [97]).Asked 1 s :=
    ⟨real,by decide,by decide,indexed.last [97],by rw [one,count]; exact enough⟩
  rw [one,vacancy] at inscribed
  exact ⟨s,t,equal,fresh,frame,⟨asked,r,added⟩,vacancy,role',free',inscribed⟩

theorem directory_lawful_once : ∃ s t, initSuper 0 0 (zeros 8 32) (recordedDisk (volumeOf 64)) = (.ok (),s) ∧
    DirStep 1 s (.add 2 [97]) t ∧ DirLawful 1 [(s,.add 2 [97])] t := by
  obtain ⟨s,t,equal,fresh,_,taken,vacancy,_⟩ := first_inscribed 2 (by decide)
  have node := (freshRole_node s.nsec 1).mpr rfl
  have fits : Met (fun s c => DirCall.Fits 1 s c) [(s,DirCall.add 2 [97])] := by
    intro entry member
    obtain rfl := List.mem_singleton.mp member
    refine ⟨by unfold Entry.Plain; decide,?_⟩
    show s.vacancy 1 < 3174
    rw [vacancy]
    decide
  exact ⟨s,t,equal,taken,directory_lawful fresh.layout node fresh.directory fresh.empty (.single taken) fits⟩

-- A byte that is taken for READ_EOF ends the entry it stands in, and what is
-- compared is what the stack held before.
theorem scan_misreads {fuel : Nat} {buf : Vector Byte 20} (writing : Writing s t role role' free free' fd content)
    (clean : fd.fdsDirty = false) (before : fd.fdsPos.toNat < fd.fdsSize.toNat) (near : fd.fdsPos.toNat+1 < 63488)
    (ends : content fd.fdsPos.toNat = eofByte) :
    Runs (scanEntries (fuel+1) fd buf) t (fun entries _ => entries.head? = some (Entry.decode buf)) (fun _ _ => True) := by
  have more : ¬ fd.fdsSize ≤ fd.fdsPos := fun wrong => Nat.not_le.mpr before (BitVec.le_def.mp wrong)
  rw [scanEntries,runs_bind,readIfile,if_neg more,runs_bind,readChars,runs_bind]
  refine Runs.of_returns (writing.next clean (Nat.le_of_lt before) near) ?_
  intro result u post
  obtain ⟨c,fd'⟩ := result
  obtain ⟨_,_,value,_⟩ := post
  dsimp only at value ⊢
  have stop : c = readEof := value.trans ((signExtend_eof _).mpr ends)
  have same : (build 20 fun i => ([] : List Byte)[i]?.getD (cell buf i)) = buf := ext_cell fun i small => by
    rw [cell_build _ small]
    rfl
  rw [if_pos stop,runs_pure,runs_pure]
  dsimp only
  rw [if_neg (by decide),same,runs_bind]
  exact Runs.always fun entries v => rfl

-- The inumber 254, whose first byte is that byte.
theorem directory_misread : ∃ s t, initSuper 0 0 (zeros 8 32) (recordedDisk (volumeOf 64)) = (.ok (),s) ∧
    DirStep 1 s (.add 254 [97]) t ∧ ¬ DirLawful 1 [(s,.add 254 [97])] t := by
  obtain ⟨s,t,equal,fresh,frame,taken,_,role',free',inscribed⟩ := first_inscribed 254 (by decide)
  have node : role' (1 : Word).toNat = .inode := inscribed.node ((freshRole_node s.nsec 1).mpr rfl)
  refine ⟨s,t,equal,taken,fun lawful => ?_⟩
  have kept : t.frame = (recordedDisk (volumeOf 64)).frame := inscribed.within.frame.trans frame
  have first : t.byteAt 1 0 = eofByte := inscribed.inside 0 (by decide)
  have size : (t.entryAt 1 1).toNat = 19 := by
    rw [inscribed.size,fresh.slots]
    rfl
  have history : slotsAfter [(s,.add 254 [97])] = [newcomer 254 [97]] := rfl
  have misread : Runs (scanDir 1) t (fun entries _ => entries.head? = some (Entry.decode (zeros 8 20))) (fun _ _ => True) := by
    unfold scanDir
    rw [runs_bind]
    refine Runs.of_returns (Writing.open inscribed.layout 1 node) ?_
    intro result u post
    obtain ⟨_,fd⟩ := result
    obtain ⟨opened,quiet,_,_,recorded,_,clean⟩ := post
    dsimp only at opened recorded clean ⊢
    rw [runs_bind,runs_get,quiet.frame,kept,runs_bind]
    refine Runs.of_returns (opened.seek2 clean (by decide)) ?_
    intro fd1 v post
    obtain ⟨sought,_,_,same,position,clean1⟩ := post
    have whole : scanFuel = (2^32-1)+1 := by decide
    rw [whole]
    refine scan_misreads sought clean1 ?_ ?_ ?_
    · rw [position,same,recorded]
      exact Nat.lt_of_lt_of_eq (by decide) size.symm
    · rw [position]
      decide
    · rw [position]
      exact first
  refine misread.excludes (fun entries u head equal => ?_) lawful.scanned
  rw [equal,history,List.head?_cons] at head
  have wrong := congrArg Entry.entInumber (Option.some.inj head)
  rw [show (Entry.decode (zeros 8 20)).entInumber = 0 from vacated_null] at wrong
  exact absurd wrong (by decide)

end AsePlusPlus
