import AsePlusPlus.Paths

namespace AsePlusPlus
open Words Program

variable {role role' : Nat → Role} {free free' : List Nat} {s t u : Machine} {fd : FileDesc} {content : Nat → Byte}
variable {d k m : Nat} {e : Entry} {idir inumber : Word} {name : List Byte}

theorem mem_entries : e ∈ s.entries d ↔ ∃ k, k < s.slots d ∧ s.slotAt d k = e := by
  simp only [Machine.entries,List.mem_map,List.mem_range]

-- Blocs that the k-th slot of a directory lacks.
def Machine.lacks (s : Machine) (d k : Nat) : Nat := s.holes d (20*k/512) ((20*k+19)/512-20*k/512+1)

-- The slot that new_entry picks.
def Machine.vacancy (s : Machine) (d : Nat) : Nat := (s.entries d).findIdx (·.entInumber = 0)

-- A directory in which one slot has been written, and nothing else anywhere.
structure Edited (s t : Machine) (role role' : Nat → Role) (free free' : List Nat) (d k : Nat) (e : Entry) : Prop
    extends Extends s t role role' free free' where
  low : k ≤ s.slots d
  slots : t.slots d = max (s.slots d) (k+1)
  written : t.slotAt d k = e
  rest : ∀ j, j ≠ k → t.slotAt d j = s.slotAt d j
  ok : DirOk t d
  others : ∀ j, role j = .inode → j ≠ d → t.entryAt j 1 = s.entryAt j 1 ∧ t.byteAt j = s.byteAt j

theorem DirOk.carried (ok : DirOk s d) (size : t.entryAt d 1 = s.entryAt d 1) (bytes : t.byteAt d = s.byteAt d)
    (kept : ∀ f, s.lookup d f ≠ 0 → t.lookup d f ≠ 0) : DirOk t d := by
  have slots : t.slots d = s.slots d := by unfold Machine.slots; rw [size]
  refine ⟨by rw [size,slots]; exact ok.size,by rw [bytes,slots]; exact ok.slotted,fun q low => kept _ (ok.mapped q ?_)⟩
  rw [slots] at low
  exact low

section edited
variable (edited : Edited s t role role' free free' d k e)
include edited

theorem Edited.other_slots (node : role j = .inode) (other : j ≠ d) : t.slots j = s.slots j := by
  unfold Machine.slots
  rw [(edited.others j node other).1]

theorem Edited.other_slotAt (node : role j = .inode) (other : j ≠ d) (i : Nat) : t.slotAt j i = s.slotAt j i := by
  unfold Machine.slotAt
  rw [(edited.others j node other).2]

theorem Edited.isDir (node : role j = .inode) : t.IsDir j ↔ s.IsDir j := by
  unfold Machine.IsDir
  rw [edited.types j node]

theorem Edited.root : t.super.rootInumber = s.super.rootInumber := by
  obtain ⟨_,_,super⟩ := edited.super
  rw [super]

theorem Edited.browsable (browsable : Browsable s role) (leads : e.entInumber ≠ 0 → role' e.entInumber.toNat = .inode) :
    Browsable t role' := by
  refine ⟨by rw [edited.root]; exact edited.node browsable.root,fun j node dir => ?_,fun j node dir x member live => ?_⟩
  · have node' := edited.nodes j node
    have dir' := (edited.isDir node').mp dir
    by_cases here : j = d
    · subst here; exact edited.ok
    · obtain ⟨size,bytes⟩ := edited.others j node' here
      exact (browsable.dirs j node' dir').carried size bytes fun f mapped => by rw [edited.kept j f node' mapped]; exact mapped
  · have node' := edited.nodes j node
    have dir' := (edited.isDir node').mp dir
    obtain ⟨i,small,rfl⟩ := mem_entries.mp member
    by_cases here : j = d
    · subst here
      by_cases same : i = k
      · subst same
        rw [edited.written] at live ⊢
        exact leads live
      · rw [edited.rest i same] at live ⊢
        rw [edited.slots] at small
        have low := edited.low
        exact edited.node (browsable.nodes j node' dir' _ (mem_entries.mpr ⟨i,by omega,rfl⟩) live)
    · rw [edited.other_slotAt node' here] at live ⊢
      rw [edited.other_slots node' here] at small
      exact edited.node (browsable.nodes j node' dir' _ (mem_entries.mpr ⟨i,small,rfl⟩) live)

end edited

theorem splice_outside (content : Nat → Byte) (text : List Byte) (outside : q < p ∨ p+text.length ≤ q) :
    splice content p text q = content q := by
  rcases outside with before | after
  · exact splice_before _ _ before
  · obtain ⟨k,rfl⟩ : ∃ k, q = p+k := ⟨q-p,by omega⟩
    rw [splice_apply,List.getElem?_eq_none (by omega)]
    rfl

theorem splice_cell (content : Nat → Byte) (p : Nat) (buf : Vector Byte n) (small : i < n) :
    splice content p buf.toList (p+i) = cell buf i := by
  rw [splice_apply,cell]
  simp [small]

theorem slots_max (m k : Nat) : (max (20*m-1) (20*k+19)+1)/20 = max m (k+1) := by omega

-- Twenty bytes of a directory written, whatever they are.
structure Inscribed (s t : Machine) (role role' : Nat → Role) (free free' : List Nat) (d k : Nat) (buf : Vector Byte 20) : Prop
    extends Extends s t role role' free free' where
  size : (t.entryAt d 1).toNat = max (20*s.slots d-1) (20*k+19)
  inside : ∀ i, i < 20 → t.byteAt d (20*k+i) = cell buf i
  outside : ∀ q, q < 20*k ∨ 20*k+20 ≤ q → t.byteAt d q = s.byteAt d q
  mapped : ∀ q, 20*k ≤ q → q < 20*k+20 → t.lookup d (q/512) ≠ 0
  others : ∀ j, role j = .inode → j ≠ d → t.entryAt j 1 = s.entryAt j 1 ∧ t.byteAt j = s.byteAt j

-- The slot is written through a descriptor that stands on it, and closed.
theorem Scan.store {buf : Vector Byte 20} (scan : Scan s t role role free free (s.byteAt d) (s.slots d) k fd)
    (file : fd.file = d) (room : k < 3174) (still : Still s t) (enough : s.lacks d k ≤ free.length) :
    Returns (writeIfile fd buf) t fun r u => r.1 = 20 ∧ Returns (closeIfile r.2) u fun _ v =>
      ∃ role' free', Inscribed s v role role' free free' d k buf ∧ Sound t v ∧ free.length ≤ free'.length+s.lacks d k := by
  have position := scan.position
  have length : buf.toList.length = 20 := Vector.length_toList
  have block : fd.block = 20*k/512 := by unfold FileDesc.block; rw [position]
  have cost : fd.cost t 20 ≤ s.lacks d k := by
    have price := price_direct t scan.clean (by omega)
    unfold Machine.lacks
    rw [holes_succ]
    unfold FileDesc.cost
    rw [if_neg (by decide),price,file,block,position,still.same.lookup,show 20*k+20-1 = 20*k+19 by omega]
    exact Nat.add_le_add_left (holes_mono (fun g live => by rw [still.same.lookup]; exact live) _ _) _
  unfold writeIfile
  rw [Returns,runs_bind]
  refine (scan.toWriting.writeChars buf.toList (by omega) (by rw [length]; exact Nat.le_trans cost enough)).mono ?_ (fun _ _ => id)
  intro result u post
  obtain ⟨written,fd'⟩ := result
  obtain ⟨done,streamed⟩ := post
  dsimp only at done streamed ⊢
  subst done
  rw [if_pos rfl,runs_pure]
  refine ⟨rfl,?_⟩
  obtain ⟨⟨role',free',writing,spent⟩,sound,stepped,_,mapped⟩ := streamed
  rw [length] at spent stepped mapped
  rw [position] at writing mapped
  rw [file] at mapped
  have file' : fd'.file = d := stepped.file.trans file
  have reach : Supported fd'.block := Or.inl (by unfold FileDesc.block; rw [stepped.position]; omega)
  have origin := writing.origin
  rw [file'] at origin
  refine (writing.close reach).mono ?_ (fun _ _ => id)
  intro _ v post
  obtain ⟨closed,sound',same⟩ := post
  rw [file'] at closed same
  refine ⟨role',free',⟨closed.toExtends,?_,?_,?_,?_,?_⟩,sound.trans sound',Nat.le_trans spent (Nat.add_le_add_left cost _)⟩
  · rw [closed.sizes d origin,if_pos rfl,stepped.size,if_neg (by decide),scan.size,position]
    omega
  · intro i small
    rw [closed.content,splice_cell _ _ _ small]
  · intro q away
    rw [closed.content,splice_outside _ _ (by rw [length]; exact away)]
  · intro q low high
    rw [same]
    exact mapped q low high
  · intro j node other
    refine ⟨by rw [closed.sizes j node,if_neg other],funext fun q => ?_⟩
    unfold Machine.byteAt
    rw [closed.files j _ node other]

section inscribed
variable {buf : Vector Byte 20} (inscribed : Inscribed s t role role' free free' d k buf)
include inscribed

theorem Inscribed.slots : t.slots d = max (s.slots d) (k+1) := by
  rw [← slots_max,← inscribed.size]
  rfl

theorem Inscribed.written : t.slotAt d k = Entry.decode buf := by
  refine congrArg Entry.decode (ext_cell fun i small => ?_)
  rw [cell_build _ small,inscribed.inside i small]

theorem Inscribed.rest {j : Nat} (other : j ≠ k) : t.slotAt d j = s.slotAt d j := by
  refine congrArg Entry.decode (ext_cell fun i small => ?_)
  rw [cell_build _ small,cell_build _ small,inscribed.outside _ (by omega)]

-- Bytes that do not read as READ_EOF keep the directory readable.
theorem Inscribed.edited (node : role d = .inode) (ok : DirOk s d) (low : k ≤ s.slots d) (room : k < 3174)
    (plain : ∀ i, i < 20 → cell buf i ≠ eofByte) : Edited s t role role' free free' d k (Entry.decode buf) := by
  have slots := inscribed.slots
  refine ⟨inscribed.toExtends,low,slots,inscribed.written,fun j => inscribed.rest,⟨?_,⟨?_,?_⟩,?_⟩,inscribed.others⟩
  · rw [inscribed.size,slots]
    omega
  · have few := ok.slotted.few
    rw [slots]
    omega
  · intro q bound
    rw [slots] at bound
    by_cases here : 20*k ≤ q ∧ q < 20*k+20
    · obtain ⟨i,rfl⟩ : ∃ i, q = 20*k+i := ⟨q-20*k,by omega⟩
      rw [inscribed.inside i (by omega)]
      exact plain i (by omega)
    · rw [inscribed.outside q (by omega)]
      exact ok.slotted.plain q (by omega)
  · intro q bound
    rw [slots] at bound
    by_cases here : 20*k ≤ q ∧ q < 20*k+20
    · exact inscribed.mapped q here.1 here.2
    · have live := ok.mapped q (by omega)
      rw [inscribed.kept d _ node live]
      exact live

end inscribed

theorem Scan.rewrite {buf : Vector Byte 20} (scan : Scan s t role role free free (s.byteAt d) (s.slots d) k fd)
    (file : fd.file = d) (ok : DirOk s d) (low : k ≤ s.slots d) (room : k < 3174) (still : Still s t)
    (plain : ∀ i, i < 20 → cell buf i ≠ eofByte) (enough : s.lacks d k ≤ free.length) :
    Returns (writeIfile fd buf) t fun r u => r.1 = 20 ∧ Returns (closeIfile r.2) u fun _ v =>
      ∃ role' free', Edited s v role role' free free' d k (Entry.decode buf) ∧ Sound t v := by
  have node := scan.origin
  rw [file] at node
  refine (scan.store file room still enough).mono ?_ (fun _ _ => id)
  intro r u post
  obtain ⟨done,closing⟩ := post
  refine ⟨done,closing.mono ?_ (fun _ _ => id)⟩
  intro _ v post
  obtain ⟨role',free',inscribed,sound,_⟩ := post
  exact ⟨role',free',inscribed.edited node ok low room plain,sound⟩

theorem first_index {hit : Entry → Prop} [DecidablePred hit] {content : Nat → Byte} (first : First hit content 0 m n) :
    ((List.range m).map (slotOf content)).findIdx (hit ·) = n := by
  have length : ((List.range m).map (slotOf content)).length = m := by simp
  have high := first.high
  by_cases found : n < m
  · rw [List.findIdx_eq (by rw [length]; exact found)]
    refine ⟨?_,fun j before => ?_⟩
    · simpa using first.here found
    · simpa using first.before j (Nat.zero_le j) before
  · rw [show n = ((List.range m).map (slotOf content)).length by omega,List.findIdx_eq_length]
    intro e member
    obtain ⟨j,small,rfl⟩ := List.mem_map.mp member
    have small := List.mem_range.mp small
    exact decide_eq_false (first.before j (Nat.zero_le j) (by omega))

theorem vacancy_first (first : First (·.entInumber = 0) (s.byteAt d) 0 (s.slots d) n) : s.vacancy d = n := first_index first

theorem Scan.vacant {content : Nat → Byte} (scan : Scan s t role role' free free' content m k fd) :
    Returns (newEntry fd) t fun r u => ∃ n, First (·.entInumber = 0) content 0 m n ∧
      Scan s u role role' free free' content m (if n < m then n+1 else m) r.2 ∧ Quiet t u ∧
      r.1.toNat = n ∧ r.2.fdsInumber = fd.fdsInumber := by
  have few := scan.slotted.few
  unfold newEntry
  simp only [Returns,runs_bind,runs_get]
  refine (scan.seek2 (show (0 : Word).toNat = 20*0 from rfl) (Nat.zero_le m)).mono ?_ (fun _ _ => id)
  intro fd' u post
  obtain ⟨start,quiet,inumber⟩ := post
  rw [newEntryLoop_eq]
  refine (start.loop t.frame.entry (Nat.zero_le m) rfl (by unfold scanFuel; omega)).mono ?_ (fun _ _ => id)
  intro r v post
  obtain ⟨n,first,last,quiet',value,inumber'⟩ := post
  refine ⟨n,first,last,quiet.trans quiet',?_,inumber'.trans inumber⟩
  have high := first.high
  split at value
  · exact value
  · obtain ⟨w,number,equal⟩ := value
    rw [equal]
    exact number.trans (by omega)

-- What the entry for a new name is made of.
def newcomer (inumber : Word) (name : List Byte) : Entry := ⟨inumber,entryName name⟩

-- No byte of an entry reads as READ_EOF.
def Entry.Plain (e : Entry) : Prop := ∀ i, i < 20 → cell e.encode i ≠ eofByte

theorem vacancy_le (s : Machine) (d : Nat) : s.vacancy d ≤ s.slots d := by
  have length : (s.entries d).length = s.slots d := by simp [Machine.entries]
  rw [← length]
  exact List.findIdx_le_length

-- The last steps of add_entry.
def storeEntry (fd : FileDesc) (buf : Vector Byte 20) : M Word := do
  let (nbyte,fd) ← writeIfile fd buf
  let _ ← closeIfile fd
  return if nbyte = 20 then returnSuccess else returnFailure

-- add_entry up to the slot that it picks.
theorem runs_addEntry_at {Q : Word → Machine → Prop} {E : Stop → Machine → Prop} (layout : Layout s role free)
    (ok : DirOk s idir.toNat) (node : role idir.toNat = .inode) (dir : s.IsDir idir.toNat)
    (stored : ∀ fd t, Scan s t role role free free (s.byteAt idir.toNat) (s.slots idir.toNat) (s.vacancy idir.toNat) fd →
      fd.file = idir.toNat → Still s t → Runs (storeEntry fd (newcomer inumber name).encode) t Q E) :
    Runs (addEntry idir inumber name) s Q E := by
  have inside := (layout.bound node (by simp)).2
  have quiet := Quiet.load s idir.toNat
  have few := ok.slotted.few
  unfold addEntry
  rw [runs_bind,runs_readInode layout.mounted inside,inodeAt_type,if_neg (fun wrong => wrong dir),runs_bind]
  refine Runs.of_returns (Scan.opened layout quiet node ok.size ok.slotted) ?_
  intro result t post
  obtain ⟨r,fd⟩ := result
  obtain ⟨scan,quiet1,number⟩ := post
  dsimp only at scan number ⊢
  rw [runs_bind]
  refine Runs.of_returns scan.vacant ?_
  intro result u post
  obtain ⟨ientry,fd1⟩ := result
  obtain ⟨n,first,found,quiet2,value,number1⟩ := post
  dsimp only at found value number1 ⊢
  have vacancy : s.vacancy idir.toNat = n := vacancy_first first
  have high := first.high
  rw [vacancy] at stored
  have encoded : Entry.encode ⟨inumber,entryName name⟩ = (newcomer inumber name).encode := rfl
  generalize Entry.encode ⟨inumber,entryName name⟩ = buf at encoded ⊢
  rw [← encoded] at stored
  rw [runs_bind]
  refine Runs.of_returns (found.seek2 (index_scaled value (by omega)) high) ?_
  intro fd2 v post
  obtain ⟨back,quiet3,number2⟩ := post
  have file : fd2.file = idir.toNat := by
    unfold FileDesc.file
    rw [number2,number1,number]
  exact stored fd2 v back file (quiet1.still.trans (quiet2.still.trans quiet3.still))

-- The entry is stored, whatever its bytes are.
theorem runs_addEntry_any (layout : Layout s role free) (ok : DirOk s idir.toNat) (node : role idir.toNat = .inode)
    (dir : s.IsDir idir.toNat) (room : s.vacancy idir.toNat < 3174)
    (enough : s.lacks idir.toNat (s.vacancy idir.toNat) ≤ free.length) :
    Returns (addEntry idir inumber name) s fun r t => r = returnSuccess ∧ ∃ role' free',
      Inscribed s t role role' free free' idir.toNat (s.vacancy idir.toNat) (newcomer inumber name).encode ∧ Sound s t ∧
      free.length ≤ free'.length+s.lacks idir.toNat (s.vacancy idir.toNat) := by
  refine runs_addEntry_at layout ok node dir fun fd t scan file still => ?_
  generalize (newcomer inumber name).encode = buf
  unfold storeEntry
  rw [runs_bind]
  refine (scan.store file room still enough).mono ?_ (fun _ _ => id)
  intro result u post
  obtain ⟨nbyte,fd'⟩ := result
  obtain ⟨written,closing⟩ := post
  dsimp only at written closing ⊢
  rw [runs_bind]
  refine closing.mono ?_ (fun _ _ => id)
  intro _ v post
  obtain ⟨role',free',inscribed,sound,spent⟩ := post
  rw [runs_pure,if_pos written]
  exact ⟨rfl,role',free',inscribed,still.sound.trans sound,spent⟩

theorem runs_addEntry (layout : Layout s role free) (ok : DirOk s idir.toNat) (node : role idir.toNat = .inode)
    (dir : s.IsDir idir.toNat) (room : s.vacancy idir.toNat < 3174) (plain : (newcomer inumber name).Plain)
    (enough : s.lacks idir.toNat (s.vacancy idir.toNat) ≤ free.length) :
    Returns (addEntry idir inumber name) s fun r t => r = returnSuccess ∧ ∃ role' free',
      Edited s t role role' free free' idir.toNat (s.vacancy idir.toNat) (newcomer inumber name) ∧ Sound s t ∧
      free.length ≤ free'.length+s.lacks idir.toNat (s.vacancy idir.toNat) := by
  have encoded : Entry.decode (newcomer inumber name).encode = newcomer inumber name := Entry.decode_encode _
  refine (runs_addEntry_any layout ok node dir room enough).mono ?_ (fun _ _ => id)
  intro r t post
  obtain ⟨done,role',free',inscribed,sound,spent⟩ := post
  have edited := inscribed.edited node ok (vacancy_le s _) room plain
  rw [encoded] at edited
  exact ⟨done,role',free',edited,sound,spent⟩

-- A slot in use lacks nothing.
theorem lacks_mapped (ok : DirOk s d) (inside : k < s.slots d) : s.lacks d k = 0 := by
  unfold Machine.lacks Machine.holes
  rw [List.countP_eq_zero]
  intro f within
  obtain ⟨low,high⟩ := List.mem_range'_1.mp within
  have here : ∃ q, q < 20*s.slots d ∧ q/512 = f := by
    by_cases first : f = 20*k/512
    · exact ⟨20*k,by omega,first.symm⟩
    · exact ⟨20*k+19,by omega,by omega⟩
  obtain ⟨q,bound,rfl⟩ := here
  simpa using ok.mapped q bound

-- The first slot of a formatted volume's root.
theorem Fresh.vacancy (fresh : Fresh s) : s.vacancy 1 = 0 := by
  unfold Machine.vacancy
  rw [fresh.entries]
  rfl

theorem Fresh.lacks (fresh : Fresh s) : s.lacks 1 0 = 1 := by
  unfold Machine.lacks
  rw [show (20*0+19)/512-20*0/512+1 = 0+1 from rfl,holes_succ,fresh.unmapped,if_pos rfl]
  rfl

-- The null entry.
def vacated : Entry := Entry.decode (zeros 8 20)

theorem vacated_null : vacated.entInumber = 0 := wordAt_zeros 0

-- The last steps of del_entry.
def emptyEntry (fd : FileDesc) : M Word := do
  let (status,fd) ← writeIfile fd (zeros 8 20)
  let _ ← closeIfile fd
  return status

-- del_entry up to the slot that it empties.
theorem runs_delEntry_at {Q : Word → Machine → Prop} {E : Stop → Machine → Prop} (layout : Layout s role free)
    (readable : s.IsDir idir.toNat → DirOk s idir.toNat) (node : role idir.toNat = .inode)
    (missed : ∀ t, Still s t → s.step idir name = 0 → Q returnFailure t)
    (hit : ∀ k fd t, DirOk s idir.toNat → First (Entry.names name) (s.byteAt idir.toNat) 0 (s.slots idir.toNat) k →
      k < s.slots idir.toNat → s.step idir name ≠ 0 → Still s t → fd.file = idir.toNat →
      Scan s t role role free free (s.byteAt idir.toNat) (s.slots idir.toNat) k fd → Runs (emptyEntry fd) t Q E) :
    Runs (delEntry idir name) s Q E := by
  have inside := (layout.bound node (by simp)).2
  have quiet := Quiet.load s idir.toNat
  unfold Machine.step at missed hit
  unfold delEntry
  rw [runs_bind,runs_readInode layout.mounted inside,inodeAt_type]
  by_cases dir : s.IsDir idir.toNat
  swap
  · rw [if_pos (show s.entryAt idir.toNat 0 ≠ _ from dir)]
    exact missed _ quiet.still (if_neg dir)
  have ok := readable dir
  have few := ok.slotted.few
  rw [if_pos dir] at missed hit
  rw [if_neg (fun wrong => wrong dir),runs_bind]
  refine Runs.of_returns (Scan.opened layout quiet node ok.size ok.slotted) ?_
  intro result t post
  obtain ⟨r,fd⟩ := result
  obtain ⟨scan,quiet1,number⟩ := post
  dsimp only at scan number ⊢
  rw [runs_bind]
  refine Runs.of_returns (scan.find name) ?_
  intro result u post
  obtain ⟨status,fd1⟩ := result
  obtain ⟨n,first,found,quiet2,value,number1⟩ := post
  dsimp only at found value number1 ⊢
  have still := quiet1.still.trans quiet2.still
  have file1 : fd1.file = idir.toNat := by
    unfold FileDesc.file
    rw [number1,number]
  rw [child_first s idir.toNat first] at missed hit
  by_cases present : n < s.slots idir.toNat
  swap
  · rw [if_neg present] at value missed
    rw [if_pos value,runs_bind]
    refine Runs.of_returns (found.close still (by rw [file1]; exact ok.size)) ?_
    intro _ v closed
    exact missed v closed rfl
  rw [if_pos present] at value found hit
  rw [if_neg (index_ne_failure value (by omega)),runs_bind]
  refine Runs.of_returns (found.seek2 (index_scaled value (by omega)) (Nat.le_of_lt present)) ?_
  intro fd2 v post
  obtain ⟨back,quiet3,number2⟩ := post
  exact hit n fd2 v ok first present (first.here present).1 (still.trans quiet3.still)
    ((congrArg BitVec.toNat number2).trans file1) back

theorem runs_delEntry (layout : Layout s role free) (readable : s.IsDir idir.toNat → DirOk s idir.toNat)
    (node : role idir.toNat = .inode) : Returns (delEntry idir name) s fun r t =>
      (r = returnFailure ∧ Still s t ∧ s.step idir name = 0) ∨
      (r = 20 ∧ s.step idir name ≠ 0 ∧ ∃ k role' free', First (Entry.names name) (s.byteAt idir.toNat) 0 (s.slots idir.toNat) k ∧
        k < s.slots idir.toNat ∧ Edited s t role role' free free' idir.toNat k vacated ∧ Sound s t) := by
  refine runs_delEntry_at layout readable node (fun t still none => Or.inl ⟨rfl,still,none⟩) ?_
  intro k fd t ok first present found still file scan
  have few := ok.slotted.few
  have bytes : ∀ i, i < 20 → cell (zeros 8 20) i ≠ eofByte := by
    intro i _
    rw [cell_zeros]
    decide
  have null : Entry.decode (zeros 8 20) = vacated := rfl
  unfold emptyEntry
  generalize zeros 8 20 = buf at bytes null ⊢
  rw [runs_bind]
  refine (scan.rewrite file ok (Nat.le_of_lt present) (by omega) still bytes
    (by rw [lacks_mapped ok present]; exact Nat.zero_le _)).mono ?_ (fun _ _ => id)
  intro result w post
  obtain ⟨nbyte,fd'⟩ := result
  obtain ⟨written,closing⟩ := post
  dsimp only at written closing ⊢
  rw [runs_bind]
  refine closing.mono ?_ (fun _ _ => id)
  intro _ x post
  obtain ⟨role',free',edited,sound⟩ := post
  rw [null] at edited
  exact Or.inr ⟨written,found,k,role',free',first,present,edited,still.sound.trans sound⟩

end AsePlusPlus
