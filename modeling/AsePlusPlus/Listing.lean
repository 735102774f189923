import AsePlusPlus.Namespace

namespace AsePlusPlus
open Words Program Trace

variable {role role' : Nat → Role} {free free' rest : List Nat} {s t u : Machine} {fd : FileDesc} {path : List Byte} {d k m size : Nat}
variable {content : Nat → Byte} {b : Nat} {e : Entry} {c : NameCall} {past : List (Machine × NameCall)} {type : FileType} {r : Word}

-- list_directory, with each name next to the inumber that read_inode is called
-- with for it.
def listLoopSeen : Nat → FileDesc → Vector Byte 20 → M (List (Word × List Byte) × FileDesc)
  | 0,fd,_ => return ([],fd)
  | count+1,fd,entry => do
    let (status,entry,fd) ← readIfile fd entry
    if status = readEof then
      return ([],fd)
    else
      let inode ← readInode (Entry.decode entry).entInumber
      let name := cstring (Entry.decode entry).entBasename
      let (seen,fd) ← listLoopSeen count fd entry
      return (((Entry.decode entry).entInumber,if inode.type = FileType.directory.code then name ++ [slash] else name) :: seen,fd)

def listDirectorySeen (size : Nat) (pathname : List Byte) : M (List (Word × List Byte)) := do
  let m ← get
  let (_,current) ← openFile m.frame.desc pathname
  let (seen,current) ← listLoopSeen size current m.frame.entry
  let _ ← closeFile current
  return seen

theorem listLoop_seen (count : Nat) (fd : FileDesc) (entry : Vector Byte 20) : listLoop count fd entry = (do
    let r ← listLoopSeen count fd entry
    return (r.1.map Prod.snd,r.2)) := by
  induction count generalizing fd entry with
  | zero => rfl
  | succ count ih =>
      unfold listLoop listLoopSeen
      rw [seq_assoc]
      refine congrArg (readIfile fd entry >>= ·) (funext fun r => ?_)
      rw [ite_seq,seq_assoc]
      refine congrArg (ite (r.1 = readEof) (pure ([],r.2.2) : M _)) ?_
      refine congrArg (readInode (Entry.decode r.2.1).entInumber >>= ·) (funext fun inode => ?_)
      dsimp only
      rw [ih,seq_assoc,seq_assoc]
      rfl

theorem listDirectory_seen (size : Nat) (path : List Byte) : listDirectory size path = (do
    let seen ← listDirectorySeen size path
    return seen.map Prod.snd) := by
  unfold listDirectory listDirectorySeen
  rw [seq_assoc]
  refine congrArg (get >>= ·) (funext fun m => ?_)
  rw [seq_assoc]
  refine congrArg (openFile m.frame.desc path >>= ·) (funext fun r => ?_)
  dsimp only
  rw [listLoop_seen,seq_assoc,seq_assoc]
  refine congrArg (listLoopSeen size r.2 m.frame.entry >>= ·) (funext fun l => ?_)
  rw [seq_assoc]
  rfl

def Machine.spelled (s : Machine) (e : Entry) : List Byte :=
  if s.IsDir e.entInumber.toNat then e.name ++ [slash] else e.name

def Machine.seen (s : Machine) (e : Entry) : Word × List Byte := (e.entInumber,s.spelled e)

-- The listing that the directory asks for: the names of its live entries, and no
-- inode is looked up but theirs.
structure Lists (s : Machine) (path : List Byte) (d size : Nat) : Prop where
  names : ∃ t, listDirectory size path s = (.ok (((s.liveEntries d).take size).map s.spelled),t)
  looked : ∃ seen t, listDirectorySeen size path s = (.ok seen,t) ∧
    seen.map Prod.fst = ((s.liveEntries d).take size).map Entry.entInumber

theorem Scan.quiet (scan : Scan s t role role' free free' content m k fd) (quiet : Quiet t u) :
    Scan s u role role' free free' content m k fd :=
  ⟨scan.toWriting.quiet quiet,scan.clean,scan.size,scan.position,scan.slotted⟩

-- The loop goes through the slots one by one, empty ones included.
theorem Scan.list {o : Machine} (scan : Scan s t role role' free free' content m k fd) (quiet : Quiet o t) (count : Nat)
    (buf : Vector Byte 20) (inside : k ≤ m) (readable : ∀ j, j < m → (slotOf content j).entInumber.toNat < o.nsec) :
    Returns (listLoopSeen count fd buf) t fun r u => ∃ n, Scan s u role role' free free' content m n r.2 ∧ Quiet t u ∧
      r.1 = (List.range' k (min count (m-k))).map (fun j => o.seen (slotOf content j)) ∧ r.2.fdsInumber = fd.fdsInumber := by
  induction count generalizing fd t k buf with
  | zero =>
      rw [Nat.zero_min]
      exact ⟨k,scan,.refl _,rfl,rfl⟩
  | succ count ih =>
      unfold listLoopSeen
      rw [Returns,runs_bind]
      rcases Nat.lt_or_ge k m with before | after
      swap
      · obtain rfl : k = m := Nat.le_antisymm inside after
        refine (scan.end buf).mono ?_ (fun _ _ => id)
        intro r u post
        obtain ⟨equal,same⟩ := post
        subst equal same
        dsimp only
        rw [if_pos rfl,Nat.sub_self,Nat.min_zero]
        exact ⟨k,scan,.refl _,rfl,rfl⟩
      refine (scan.entry buf before).mono ?_ (fun _ _ => id)
      intro r u post
      obtain ⟨next,quiet1,goes,slot,number⟩ := post
      have here : (slotOf content k).entInumber.toNat < u.nsec := by
        rw [(quiet.trans quiet1).nsec]
        exact readable k before
      have mounted := next.layout.mounted
      dsimp only
      rw [if_neg goes,slot,runs_bind,runs_readInode mounted here,runs_bind]
      have loaded := Quiet.load u (slotOf content k).entInumber.toNat
      refine (ih (next.quiet loaded) ((quiet.trans quiet1).trans loaded) r.2.1 before).mono ?_ (fun _ _ => id)
      intro l v post
      obtain ⟨n,last,quiet2,seen,number'⟩ := post
      have type : (u.inodeAt (slotOf content k).entInumber.toNat).type = o.entryAt (slotOf content k).entInumber.toNat 0 := by
        rw [(quiet.trans quiet1).inodeAt,inodeAt_type]
      rw [runs_pure]
      refine ⟨n,last,quiet1.trans (loaded.trans quiet2),?_,number'.trans number⟩
      have split : min (count+1) (m-k) = min count (m-(k+1))+1 := by omega
      rw [split,List.range'_succ,List.map_cons,← seen,type]
      rfl

theorem Same.seen (same : Same s t) (e : Entry) : t.seen e = s.seen e := by
  obtain ⟨_,_,_,rfl⟩ := same
  rfl

theorem range_entries (s : Machine) (d size : Nat) :
    (List.range' 0 (min size (s.slots d-0))).map (fun j => s.seen (s.slotAt d j)) = ((s.entries d).take size).map s.seen := by
  unfold Machine.entries
  rw [← List.map_take,List.take_range,List.map_map,List.range_eq_range']
  rfl

-- Each of the first slots is listed, whether it holds an entry or not.
theorem runs_listDirectorySeen (layout : Layout s role free) (browsable : Browsable s role) (some : s.resolve path ≠ 0)
    (dir : s.IsDir (s.resolve path).toNat) (size : Nat) :
    Returns (listDirectorySeen size path) s fun r t => Still s t ∧ r = ((s.entries (s.resolve path).toNat).take size).map s.seen := by
  have node := resolve_node browsable some
  unfold listDirectorySeen openFile
  rw [Returns,runs_bind,runs_get,runs_bind,runs_bind]
  refine (runs_inumberOfPath layout browsable path).mono ?_ (fun _ _ => id)
  intro i t post
  obtain ⟨number,still⟩ := post
  subst number
  have layout' := layout.same still.same
  obtain ⟨recorded,slotted,_⟩ := (browsable.same still.same).dirs _ node ((still.same.isDir _).mpr dir)
  rw [if_neg some]
  refine (Scan.opened layout' (.refl t) node recorded slotted).mono ?_ (fun _ _ => id)
  intro r u post
  obtain ⟨scan,quiet,here⟩ := post
  have readable : ∀ j, j < t.slots (s.resolve path).toNat →
      (slotOf (t.byteAt (s.resolve path).toNat) j).entInumber.toNat < t.nsec := by
    intro j small
    by_cases live : (slotOf (t.byteAt (s.resolve path).toNat) j).entInumber = 0
    · rw [live]
      exact Nat.lt_of_lt_of_le Nat.zero_lt_two layout'.mounted.room
    · have leads := (browsable.same still.same).nodes _ node ((still.same.isDir _).mpr dir) _ (mem_entries.mpr ⟨j,small,rfl⟩) live
      exact (layout'.bound leads (by simp)).2
  rw [runs_bind]
  refine (scan.list quiet size _ (Nat.zero_le _) readable).mono ?_ (fun _ _ => id)
  intro l v post
  obtain ⟨n,last,quiet',seen,number⟩ := post
  have file : l.2.file = (s.resolve path).toNat := congrArg BitVec.toNat (number.trans here)
  dsimp only
  rw [runs_bind]
  refine (last.close (quiet.trans quiet').still (by rw [file]; exact recorded)).mono ?_ (fun _ _ => id)
  intro _ w closed
  refine ⟨still.trans closed,?_⟩
  have same : t.seen = s.seen := funext still.same.seen
  show l.1 = _
  rw [seen,← still.same.entries,← same]
  exact range_entries t _ size

theorem take_filter {α : Type} {p : α → Bool} {l : List α} {n : Nat} (all : ∀ a ∈ l.take n, p a = true) : (l.filter p).take n = l.take n := by
  induction l generalizing n with
  | nil => rfl
  | cons a rest ih =>
      cases n with
      | zero => rfl
      | succ n =>
          rw [List.take_succ_cons] at all ⊢
          rw [List.filter_cons_of_pos (all a List.mem_cons_self),List.take_succ_cons,
            ih fun b member => all b (List.mem_cons_of_mem a member)]

-- No slot that the listing comes to has been vacated.
def Machine.Filled (s : Machine) (d size : Nat) : Prop := ∀ e ∈ (s.entries d).take size, e.entInumber ≠ 0

theorem Machine.Filled.live (filled : s.Filled d size) : (s.liveEntries d).take size = (s.entries d).take size :=
  take_filter fun e member => decide_eq_true (filled e member)

theorem lists_iff (layout : Layout s role free) (browsable : Browsable s role) (some : s.resolve path ≠ 0)
    (dir : s.IsDir (s.resolve path).toNat) (size : Nat) :
    Lists s path (s.resolve path).toNat size ↔ s.Filled (s.resolve path).toNat size := by
  obtain ⟨seen,t,ran,_,equal⟩ := returns_iff.mp (runs_listDirectorySeen layout browsable some dir size)
  constructor
  · intro lists
    obtain ⟨seen',t',ran',inumbers⟩ := lists.looked
    rw [ran] at ran'
    cases ran'
    intro e member
    have listed : e.entInumber ∈ seen.map Prod.fst := by
      rw [equal,List.map_map]
      exact List.mem_map_of_mem member
    rw [inumbers] at listed
    obtain ⟨live,among,same⟩ := List.mem_map.mp listed
    rw [← same]
    simpa using (List.mem_filter.mp (List.mem_of_mem_take among)).2
  · intro filled
    have live := filled.live
    refine ⟨⟨t,?_⟩,seen,t,ran,?_⟩
    · rw [live,listDirectory_seen]
      refine (bind_ok ran).trans ?_
      rw [equal,List.map_map]
      rfl
    · rw [live,equal,List.map_map]
      rfl

-- A creation that the lookups let through has an entry that reads as it was
-- written, and is not cut short by the free chain.
def Unspoilt (s : Machine) : NameCall → Prop
  | .create path _ _ => Rejected path s ∨ ((newcomer s.super.premierLibre (lastBasename path)).Plain ∧ s.Whole (s.parent path).toNat)
  | .delete _ _ => True

-- A well-formed volume whose directories can be read.
structure Shown (s : Machine) (role : Nat → Role) (free : List Nat) : Prop where
  layout : Layout s role free
  browsable : Browsable s role
  synced : Synced s ∨ free = []

theorem Shown.still (shown : Shown s role free) (still : Still s t) : Shown t role free :=
  ⟨shown.layout.same still.same,shown.browsable.same still.same,shown.synced.imp still.same.synced id⟩

theorem Shown.create_keeps (shown : Shown s role free) (unspoilt : Unspoilt s (.create path type r))
    (ran : createFile path type s = (.ok r,t)) : ∃ role' free', Shown t role' free' := by
  have layout := shown.layout
  have browsable := shown.browsable
  by_cases refused : s.parent path = 0 ∨ s.resolve path ≠ 0
  · exact ⟨role,free,shown.still ((runs_createFile_rejected type layout browsable refused).result ran).2⟩
  obtain ⟨plain,whole⟩ := unspoilt.resolve_left fun wrong => refused ((rejected_iff layout browsable).mp wrong)
  obtain ⟨parent,exists_⟩ := not_or.mp refused
  have new := not_not.mp exists_
  cases free with
  | nil => exact ((create_full_exits type layout browsable parent new).result ran).elim
  | cons b rest =>
      have synced := shown.synced.resolve_right (by simp)
      cases (runs_createFile type layout browsable synced parent new plain whole).result ran with
      | short _ role' spares => exact ⟨role',[],spares.layout,spares.browsable browsable,.inr rfl⟩
      | made _ made =>
          obtain ⟨m,role',free',spares,edited,sound⟩ := made
          have leads : role' (newcomer s.super.premierLibre (lastBasename path)).entInumber.toNat = .inode := by
            refine edited.node ?_
            rw [show (newcomer s.super.premierLibre (lastBasename path)).entInumber.toNat = b from layout.chain.head,
              Function.update_self]
          exact ⟨role',free',edited.layout,edited.browsable (spares.browsable browsable) fun _ => leads,.inl (sound.synced synced)⟩

theorem Shown.delete_keeps (shown : Shown s role free) (ran : deleteFile path s = (.ok r,t)) : ∃ role' free', Shown t role' free' := by
  rcases (runs_deleteFile shown.layout shown.browsable).result ran with ⟨_,still,_⟩ | ⟨_,_,_,k,role',free',_,_,edited,sound⟩
  · exact ⟨role,free,shown.still still⟩
  · refine ⟨role',free',edited.layout,edited.browsable shown.browsable fun real => absurd vacated_null real,
      shown.synced.imp sound.synced fun none => ?_⟩
    obtain ⟨used,split⟩ := edited.used
    rw [none] at split
    exact (List.append_eq_nil_iff.mp split.symm).2

theorem NameStep.shows (shown : Shown s role free) (unspoilt : Unspoilt s c) (taken : NameStep s c t) :
    ∃ role' free', Shown t role' free' := by
  cases taken with
  | create _ ran => exact shown.create_keeps unspoilt ran
  | delete _ ran => exact shown.delete_keeps ran

-- Every directory of every state that a history reaches from a new volume.
theorem listing_exact (fresh : Fresh s) (run : Run NameStep s past t) (met : Met Unspoilt past) :
    ∀ path i, (inumberOfPath path t).1 = .ok i → i ≠ 0 → t.IsDir i.toNat → ∀ size,
      Lists t path i.toNat size ↔ t.Filled i.toNat size := by
  have keep : ∀ t c u, (∃ role free, Shown t role free) → Unspoilt t c → NameStep t c u → ∃ role free, Shown u role free := by
    intro t c u before unspoilt taken
    obtain ⟨role,free,shown⟩ := before
    exact taken.shows shown unspoilt
  have first : Shown s (freshRole s.nsec) (List.range' 2 (s.nsec-2)) := ⟨fresh.layout,fresh.browsable,.inl fresh.synced⟩
  obtain ⟨role,free,shown⟩ := (run.keeps Unspoilt keep ⟨_,_,first⟩ met).1
  intro path i found some dir size
  rw [inumberOfPath_eq shown.layout shown.browsable] at found
  have here := Except.ok.inj found
  subst here
  exact lists_iff shown.layout shown.browsable some dir size

theorem single_entry (slots : s.slots d = 1) : s.entries d = [s.slotAt d 0] := by
  unfold Machine.entries
  rw [slots]
  rfl

theorem Ordered.root_path (ordered : Ordered s role free) (root : s.super.rootInumber = 1) : (inumberOfPath [slash] s).1 = .ok 1 := by
  rw [ordered.lookup,← root]
  unfold Machine.resolve
  rw [if_pos (by decide),show components [slash] = [] by decide]
  rfl

-- The root of a new volume with its first file.
theorem listing_exact_first : ∃ s t, initSuper 0 0 (zeros 8 32) (recordedDisk (volumeOf 64)) = (.ok (),s) ∧
    NameStep s (.create [slash,97] .file 2) t ∧ Lists t [slash] 1 16 := by
  obtain ⟨s,t,_,_,_,_,_,_,equal,fresh,ran,fitting,after,root,dir,slots,number,_⟩ := first_delete
  have taken : NameStep s (.create [slash,97] .file 2) t := .create (by decide) ran
  have unspoilt : Unspoilt s (.create [slash,97] .file 2) := fitting.imp id And.right
  have filled : t.Filled 1 16 := by
    intro e member
    rw [single_entry slots] at member
    rw [List.mem_singleton.mp (List.mem_of_mem_take member),number]
    decide
  exact ⟨s,t,equal,taken,(listing_exact fresh (.single taken) (met_snoc.mpr ⟨met_nil,unspoilt⟩) [slash] 1 (after.root_path root)
    (by decide) dir 16).mpr filled⟩

-- The slot of a deleted file is listed too, and bloc 0 is read as its inode.
theorem listing_vacated : ∃ s t u r, initSuper 0 0 (zeros 8 32) (recordedDisk (volumeOf 64)) = (.ok (),s) ∧
    Run NameStep s [(s,.create [slash,97] .file 2),(t,.delete [slash,97] r)] u ∧ (inumberOfPath [slash] u).1 = .ok 1 ∧ u.IsDir 1 ∧
    (∃ name v, listDirectorySeen 16 [slash] u = (.ok [(0,name)],v)) ∧ ¬ Lists u [slash] 1 16 := by
  obtain ⟨s,t,u,r,role,free,role',free',equal,fresh,ran,fitting,after,root,dir,slots,number,gone,done,edited,sound⟩ := first_delete
  have first : NameStep s (.create [slash,97] .file 2) t := .create (by decide) ran
  have second : NameStep t (.delete [slash,97] r) u := .delete (by decide) gone
  obtain ⟨_,_,_,ordered⟩ := NameStep.delete_keeps after gone
  have root' : u.super.rootInumber = 1 := edited.root.trans root
  have found := ordered.root_path root'
  have node : role 1 = .inode := by
    have leads := after.tree.root
    rw [root] at leads
    exact leads
  have dir' : u.IsDir 1 := (edited.isDir node).mpr dir
  have entries : u.entries 1 = [vacated] := by
    have one : u.slots 1 = 1 := by
      rw [edited.slots,slots]
      decide
    rw [single_entry one,edited.written]
  have resolved : u.resolve [slash] = 1 := by
    rw [ordered.lookup] at found
    exact Except.ok.inj found
  have here : (u.resolve [slash]).toNat = 1 := by
    rw [resolved]
    rfl
  have some : u.resolve [slash] ≠ 0 := by
    rw [resolved]
    decide
  have browsable := ordered.tree.toBrowsable
  have shows := lists_iff ordered.layout browsable some (by rw [here]; exact dir') 16
  obtain ⟨seen,v,listed,_,equal'⟩ := returns_iff.mp (runs_listDirectorySeen ordered.layout browsable some (by rw [here]; exact dir') 16)
  rw [here,entries] at equal'
  subst equal'
  rw [here] at shows
  refine ⟨s,t,u,r,equal,(Run.single first).next second,found,dir',⟨_,v,listed⟩,fun lists => ?_⟩
  refine shows.mp lists vacated ?_ vacated_null
  rw [entries]
  exact List.mem_singleton.mpr rfl

end AsePlusPlus
