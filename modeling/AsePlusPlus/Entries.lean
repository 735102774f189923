import AsePlusPlus.Dir
import AsePlusPlus.Same
import AsePlusPlus.Stream

namespace AsePlusPlus
open Words Program

variable {role role' : Nat → Role} {free free' : List Nat} {s t u : Machine} {fd fd' : FileDesc} {content : Nat → Byte}
variable {k m n : Nat}

def Entry.name (e : Entry) : List Byte := cstring e.entBasename

-- An entry in use, by its name.
def Entry.names (name : List Byte) (e : Entry) : Prop := e.entInumber ≠ 0 ∧ e.name = name

instance (name : List Byte) : DecidablePred (Entry.names name) := fun _ => inferInstanceAs (Decidable (_ ∧ _))

-- A directory is an array of entries of twenty bytes; its recorded size is the
-- last position written.
def slotOf (content : Nat → Byte) (k : Nat) : Entry := Entry.decode (build 20 fun i => content (20*k+i))
def Machine.slots (s : Machine) (d : Nat) : Nat := ((s.entryAt d 1).toNat+1)/20
def Machine.slotAt (s : Machine) (d k : Nat) : Entry := slotOf (s.byteAt d) k
def Machine.entries (s : Machine) (d : Nat) : List Entry := (List.range (s.slots d)).map (s.slotAt d)

-- Directories that are read as they were written: whole entries, none of whose
-- bytes reads as READ_EOF, in front of the last direct bloc's end.
structure Slotted (content : Nat → Byte) (m : Nat) : Prop where
  few : m ≤ 3174
  plain : ∀ q, q < 20*m → content q ≠ eofByte

-- A clean descriptor of a directory between two entries.
structure Scan (s t : Machine) (role role' : Nat → Role) (free free' : List Nat) (bytes : Nat → Byte) (m k : Nat)
    (fd : FileDesc) : Prop extends Writing s t role role' free free' fd bytes where
  clean : fd.fdsDirty = false
  size : fd.fdsSize.toNat = 20*m-1
  position : fd.fdsPos.toNat = 20*k
  slotted : Slotted bytes m

-- A whole entry is read, the same into any buffer, or the end is seen.
theorem Scan.whole (scan : Scan s t role role' free free' content m k fd) (before : k < m) :
    ∃ b fd' u, (∀ buf : Vector Byte 20, readIfile fd buf t = (.ok (20,b,fd'),u)) ∧ Entry.decode b = slotOf content k ∧
      Scan s u role role' free free' content m (k+1) fd' ∧ Quiet t u ∧ fd'.fdsInumber = fd.fdsInumber := by
  have few := scan.slotted.few
  have size := scan.size
  have position := scan.position
  have less : ¬ fd.fdsSize ≤ fd.fdsPos := by
    intro wrong
    have wrong := BitVec.le_def.mp wrong
    omega
  have plain : eofByte ∉ span content fd.fdsPos.toNat 20 := by
    intro member
    obtain ⟨q,_,high,byte⟩ := (mem_span _ _ _).mp member
    exact scan.slotted.plain q (by omega) byte
  have read : Returns (readChars 20 fd) t _ := scan.toWriting.readChars scan.clean 20 (by omega) (by omega) plain
  obtain ⟨⟨chars,fd'⟩,u,ran,after,quiet,equal,scanned⟩ := returns_iff.mp read
  dsimp only at after equal scanned
  subst equal
  refine ⟨build 20 fun i => content (20*k+i),fd',u,fun buf => ?_,rfl,⟨after,scanned.clean,?_,?_,scan.slotted⟩,quiet,scanned.inumber⟩
  · unfold readIfile
    rw [if_neg less]
    simp only [bind,ran]
    have bytes : (build 20 fun i => (span content fd.fdsPos.toNat 20)[i]?.getD (cell buf i)) = build 20 fun i => content (20*k+i) := by
      refine ext_cell fun i small => ?_
      rw [cell_build _ small,cell_build _ small,span_getD _ _ _ small,position]
    rw [bytes,span_length]
    rfl
  · rw [scanned.size]; exact size
  · rw [scanned.position,position]; omega

theorem Scan.entry (scan : Scan s t role role' free free' content m k fd) (buf : Vector Byte 20) (before : k < m) :
    Returns (readIfile fd buf) t fun r u => Scan s u role role' free free' content m (k+1) r.2.2 ∧ Quiet t u ∧
      r.1 ≠ readEof ∧ Entry.decode r.2.1 = slotOf content k ∧ r.2.2.fdsInumber = fd.fdsInumber := by
  obtain ⟨b,fd',u,ran,slot,after,quiet,inumber⟩ := scan.whole before
  exact returns_iff.mpr ⟨_,u,ran buf,after,quiet,show (20 : Word) ≠ readEof by decide,slot,inumber⟩

theorem Scan.end (scan : Scan s t role role' free free' content m m fd) (buf : Vector Byte 20) :
    Returns (readIfile fd buf) t fun r u => r = (readEof,buf,fd) ∧ u = t := by
  have size := scan.size
  have position := scan.position
  have less : fd.fdsSize ≤ fd.fdsPos := BitVec.le_def.mpr (by omega)
  rw [readIfile,if_pos less]
  exact ⟨rfl,rfl⟩

theorem Scan.seek2 (scan : Scan s t role role' free free' content m k fd) {target : Word} (there : target.toNat = 20*n)
    (within : n ≤ m) : Returns (seek2Ifile fd target) t fun fd' u =>
      Scan s u role role' free free' content m n fd' ∧ Quiet t u ∧ fd'.fdsInumber = fd.fdsInumber := by
  have few := scan.slotted.few
  have target_eq : fd.fdsPos+(target-fd.fdsPos) = target := by
    rw [BitVec.add_comm,BitVec.sub_add_cancel]
  unfold seek2Ifile
  refine (scan.toWriting.seek scan.clean (by rw [target_eq]; exact Or.inl (by omega))).mono ?_ (fun _ _ => id)
  intro fd' u post
  obtain ⟨after,quiet,inumber,size,position,clean⟩ := post
  rw [target_eq] at position
  exact ⟨⟨after,clean,by rw [size]; exact scan.size,by rw [position]; exact there,scan.slotted⟩,quiet,inumber⟩

-- new_entry and find_entry run the same loop: on to the first entry that meets
-- a test, or to the end.
def scanLoop (hit : Entry → Prop) [DecidablePred hit] (missing : Word → Word) :
    Nat → FileDesc → Vector Byte 20 → Word → M (Word × FileDesc)
  | 0,_,_,_ => stop .loop
  | fuel+1,fd,entry,ientry => do
    let (status,entry,fd) ← readIfile fd entry
    if status = readEof then
      return (missing ientry,fd)
    else if hit (Entry.decode entry) then
      return (ientry,fd)
    else
      scanLoop hit missing fuel fd entry (ientry+1)

theorem newEntryLoop_eq : newEntryLoop = scanLoop (·.entInumber = 0) id := by
  funext fuel
  induction fuel with
  | zero => rfl
  | succ fuel ih =>
      funext fd entry ientry
      simp only [newEntryLoop,scanLoop,ih]
      rfl

theorem findEntryLoop_eq (name : List Byte) : findEntryLoop name = scanLoop (Entry.names name) (fun _ => returnFailure) := by
  funext fuel
  induction fuel with
  | zero => rfl
  | succ fuel ih =>
      funext fd entry ientry
      simp only [findEntryLoop,scanLoop,ih]
      rfl

-- `n` is the first of the slots from `k` on that meets a test, or their number.
structure First (hit : Entry → Prop) (content : Nat → Byte) (k m n : Nat) : Prop where
  low : k ≤ n
  high : n ≤ m
  before : ∀ j, k ≤ j → j < n → ¬ hit (slotOf content j)
  here : n < m → hit (slotOf content n)

theorem Scan.loop {hit : Entry → Prop} [DecidablePred hit] {missing : Word → Word} {ientry : Word} {fuel : Nat}
    (scan : Scan s t role role' free free' content m k fd) (buf : Vector Byte 20) (inside : k ≤ m)
    (index : ientry.toNat = k) (enough : m-k < fuel) :
    Returns (scanLoop hit missing fuel fd buf ientry) t fun r u => ∃ n, First hit content k m n ∧
      Scan s u role role' free free' content m (if n < m then n+1 else m) r.2 ∧ Quiet t u ∧
      (if n < m then r.1.toNat = n else ∃ w : Word, w.toNat = m ∧ r.1 = missing w) ∧ r.2.fdsInumber = fd.fdsInumber := by
  induction fuel generalizing fd t k buf ientry with
  | zero => exact absurd enough (Nat.not_lt_zero _)
  | succ fuel ih =>
      have few := scan.slotted.few
      rw [scanLoop,Returns,runs_bind]
      rcases Nat.lt_or_ge k m with before | after
      swap
      · obtain rfl : k = m := Nat.le_antisymm inside after
        refine (scan.end buf).mono ?_ (fun _ _ => id)
        intro r u post
        obtain ⟨rfl,rfl⟩ := post
        dsimp only
        rw [if_pos rfl,runs_pure]
        refine ⟨k,⟨Nat.le_refl k,Nat.le_refl k,fun j low high => by omega,fun less => by omega⟩,?_,.refl _,?_,rfl⟩
        · rw [if_neg (Nat.lt_irrefl k)]; exact scan
        · rw [if_neg (Nat.lt_irrefl k)]; exact ⟨ientry,index,rfl⟩
      refine (scan.entry buf before).mono ?_ (fun _ _ => id)
      intro result u post
      obtain ⟨status,entry,fd'⟩ := result
      obtain ⟨next,quiet,goes,slot,inumber⟩ := post
      dsimp only at next goes slot inumber ⊢
      rw [if_neg goes,slot]
      by_cases found : hit (slotOf content k)
      · rw [if_pos found,runs_pure]
        refine ⟨k,⟨Nat.le_refl k,Nat.le_of_lt before,fun j low high => by omega,fun _ => found⟩,?_,quiet,?_,inumber⟩
        · rw [if_pos before]; exact next
        · rw [if_pos before]; exact index
      · rw [if_neg found]
        have one : (1 : Word).toNat = 1 := rfl
        have counted : (ientry+1).toNat = k+1 := by rw [BitVec.toNat_add,index,one]; omega
        refine (ih next entry before counted (by omega)).mono ?_ (fun _ _ => id)
        intro r v post
        obtain ⟨n,first,last,quiet',value,inumber'⟩ := post
        refine ⟨n,⟨by have := first.low; omega,first.high,?_,first.here⟩,last,quiet.trans quiet',value,inumber'.trans inumber⟩
        intro j low high
        by_cases same : j = k
        · subst same; exact found
        · exact first.before j (by omega) high

-- A directory just opened, after reads.
theorem Scan.opened (layout : Layout s role free) (quiet : Quiet s t) {inumber : Word} (node : role inumber.toNat = .inode)
    (size : (s.entryAt inumber.toNat 1).toNat = 20*m-1) (slotted : Slotted (s.byteAt inumber.toNat) m) :
    Returns (openIfile inumber) t fun r u => Scan s u role role free free (s.byteAt inumber.toNat) m 0 r.2 ∧ Quiet s u ∧
      r.2.fdsInumber = inumber := by
  refine (Writing.open (layout.quiet quiet) inumber node).mono ?_ (fun _ _ => id)
  intro r u post
  obtain ⟨writing,quiet',_,number,recorded,pos,clean⟩ := post
  have bytes : t.byteAt inumber.toNat = s.byteAt inumber.toNat := by
    funext q
    unfold Machine.byteAt
    rw [quiet.fblock]
  have entry : t.entryAt inumber.toNat 1 = s.entryAt inumber.toNat 1 := congrArg (wordAt · 1) (quiet.blk _)
  rw [bytes] at writing
  exact ⟨⟨writing.since layout quiet,clean,by rw [recorded,entry]; exact size,by rw [pos]; rfl,slotted⟩,
    quiet.trans quiet',number⟩

end AsePlusPlus
