import AsePlusPlus.Writing

namespace AsePlusPlus
open Words Program

variable {role role' role'' : Nat → Role} {free free' free'' : List Nat} {s t u : Machine}
variable {fd fd' : FileDesc} {c : Byte} {content : Nat → Byte} {rest text : List Byte} {p n : Nat}

-- A text laid over a content from a position on.
def splice (content : Nat → Byte) : Nat → List Byte → Nat → Byte
  | _,[] => content
  | p,c :: rest => splice (Function.update content p c) (p+1) rest

theorem splice_before (content : Nat → Byte) (text : List Byte) (before : q < p) : splice content p text q = content q := by
  induction text generalizing content p with
  | nil => rfl
  | cons c rest ih =>
      rw [splice,ih _ (by omega),Function.update_of_ne (by omega)]

theorem splice_apply (content : Nat → Byte) (p : Nat) (text : List Byte) (k : Nat) :
    splice content p text (p+k) = text[k]?.getD (content (p+k)) := by
  induction text generalizing content p k with
  | nil => simp [splice]
  | cons c rest ih =>
      cases k with
      | zero => rw [splice,splice_before _ _ (by omega)]; simp
      | succ k =>
          rw [splice,show p+(k+1) = p+1+k by omega,ih,Function.update_of_ne (by omega)]
          rfl

-- The bytes between two positions.
def span (content : Nat → Byte) (p n : Nat) : List Byte := (List.range' p n).map content

theorem span_succ (content : Nat → Byte) (p n : Nat) : span content p (n+1) = content p :: span content (p+1) n := by
  unfold span
  rw [List.range'_succ,List.map_cons]

theorem span_length (content : Nat → Byte) (p n : Nat) : (span content p n).length = n := by simp [span]

theorem span_getD (content : Nat → Byte) (p : Nat) (d : Byte) (small : k < n) : (span content p n)[k]?.getD d = content (p+k) := by
  unfold span
  rw [List.getElem?_map,List.getElem?_range' small,Nat.one_mul]
  rfl

theorem mem_span (content : Nat → Byte) (p n : Nat) : c ∈ span content p n ↔ ∃ q, p ≤ q ∧ q < p+n ∧ content q = c := by
  unfold span
  simp only [List.mem_map,List.mem_range'_1,and_assoc]

theorem span_splice (content : Nat → Byte) (p : Nat) (text : List Byte) :
    span (splice content p text) p text.length = text := by
  refine List.ext_getElem (by simp [span]) fun k low high => ?_
  simp only [span,List.getElem_map,List.getElem_range',Nat.one_mul,splice_apply]
  rw [List.getElem?_eq_getElem high,Option.getD_some]

-- The descriptor behind `n` bytes, written or read one after the other.
structure Stepped (fd fd' : FileDesc) (n : Nat) : Prop where
  inumber : fd'.fdsInumber = fd.fdsInumber
  position : fd'.fdsPos.toNat = fd.fdsPos.toNat+n
  size : fd'.fdsSize.toNat = if n = 0 then fd.fdsSize.toNat else max fd.fdsSize.toNat (fd.fdsPos.toNat+n-1)

theorem Stepped.refl (fd : FileDesc) : Stepped fd fd 0 := ⟨rfl,rfl,rfl⟩

theorem Stepped.file (stepped : Stepped fd fd' n) : fd'.file = fd.file := congrArg BitVec.toNat stepped.inumber

theorem Stepped.succ {fd'' : FileDesc} (one : Stepped fd fd' 1) (more : Stepped fd' fd'' n) : Stepped fd fd'' (n+1) := by
  have first := one.size
  have last := more.size
  rw [if_neg (Nat.succ_ne_zero 0)] at first
  refine ⟨more.inumber.trans one.inumber,by rw [more.position,one.position]; omega,?_⟩
  rw [if_neg (Nat.succ_ne_zero n),last,first,one.position]
  split <;> omega

theorem Advanced.stepped (moved : Advanced fd fd') (near : fd.fdsPos.toNat/512 < 888) : Stepped fd fd' 1 := by
  refine ⟨moved.inumber,by rw [moved.position,next_pos _ near],?_⟩
  rw [if_neg (Nat.succ_ne_zero 0),moved.size]
  by_cases less : fd.fdsSize.toNat < fd.fdsPos.toNat
  · rw [if_pos (BitVec.lt_def.mpr less)]
    omega
  · rw [if_neg (fun wrong => less (BitVec.lt_def.mp wrong))]
    omega

-- Blocs of a file that are not mapped, among `n` from `f` on.
def Machine.holes (s : Machine) (i f n : Nat) : Nat := (List.range' f n).countP (s.lookup i · = 0)

theorem holes_succ (s : Machine) (i f n : Nat) :
    s.holes i f (n+1) = (if s.lookup i f = 0 then 1 else 0)+s.holes i (f+1) n := by
  unfold Machine.holes
  rw [List.range'_succ,List.countP_cons,Nat.add_comm]
  simp

theorem holes_mono (less : ∀ g, s.lookup i g ≠ 0 → t.lookup i g ≠ 0) (f n : Nat) : t.holes i f n ≤ s.holes i f n := by
  unfold Machine.holes
  refine List.countP_mono_left fun g _ null => ?_
  simp only [decide_eq_true_eq] at null ⊢
  by_contra live
  exact less g live null

-- Blocs that `n` bytes from the cursor on take from the chain, as long as they
-- stay in the direct branch: the first bloc owes nothing once it is dirty.
def FileDesc.cost (s : Machine) (fd : FileDesc) (n : Nat) : Nat :=
  if n = 0 then 0
  else fd.price s+s.holes fd.file (fd.block+1) ((fd.fdsPos.toNat+n-1)/512-fd.block)

theorem price_le (s : Machine) (fd : FileDesc) (n : Nat) : fd.price s ≤ fd.cost s (n+1) := by
  unfold FileDesc.cost
  rw [if_neg (Nat.succ_ne_zero n)]
  exact Nat.le_add_right _ _

theorem price_direct (s : Machine) (clean : fd.fdsDirty = false) (near : fd.fdsPos.toNat < 63488) :
    fd.price s = if s.lookup fd.file fd.block = 0 then 1 else 0 := by
  have direct : fd.block < 124 := by unfold FileDesc.block; omega
  unfold FileDesc.price needed
  rw [clean,if_neg (by decide),if_pos direct]

-- The cost of the first byte and of those behind it.
theorem cost_succ (file : fd'.file = fd.file) (position : fd'.fdsPos.toNat = fd.fdsPos.toNat+1) (near : fd'.fdsPos.toNat < 63488)
    (dirty : fd'.fdsDirty = true ↔ fd.fdsPos.toNat%512 ≠ 511) (kept : ∀ f, s.lookup fd.file f ≠ 0 → t.lookup fd.file f ≠ 0)
    (n : Nat) : fd.price s+fd'.cost t n ≤ fd.cost s (n+1) := by
  unfold FileDesc.cost
  rw [if_neg (Nat.succ_ne_zero n),file]
  refine Nat.add_le_add_left ?_ _
  by_cases none : n = 0
  · rw [if_pos none]; exact Nat.zero_le _
  rw [if_neg none]
  by_cases last : fd.fdsPos.toNat%512 = 511
  · have clean : fd'.fdsDirty = false := by
      cases flag : fd'.fdsDirty with
      | false => rfl
      | true => exact absurd last (dirty.mp flag)
    have next : fd'.block = fd.block+1 := by unfold FileDesc.block; omega
    obtain ⟨k,count⟩ : ∃ k, (fd.fdsPos.toNat+(n+1)-1)/512-fd.block = k+1 :=
      ⟨(fd.fdsPos.toNat+(n+1)-1)/512-fd.block-1,by unfold FileDesc.block; omega⟩
    have rest : (fd'.fdsPos.toNat+n-1)/512-(fd.block+1) = k := by
      rw [position]
      unfold FileDesc.block at count ⊢
      omega
    rw [price_direct t clean near,file,next,count,rest,← holes_succ]
    exact holes_mono kept _ _
  · have same : fd'.block = fd.block := by unfold FileDesc.block; omega
    have free : fd'.price t = 0 := by unfold FileDesc.price; rw [if_pos (dirty.mpr last)]
    rw [free,same,Nat.zero_add,position,show fd.fdsPos.toNat+1+n-1 = fd.fdsPos.toNat+(n+1)-1 by omega]
    exact holes_mono kept _ _

-- What writing a text through a descriptor comes to.
structure Streamed (s t : Machine) (role : Nat → Role) (free free' : List Nat) (fd : FileDesc) (content : Nat → Byte)
    (text : List Byte) (fd' : FileDesc) (u : Machine) : Prop where
  writing : ∃ role'' free'', Writing s u role role'' free free'' fd' (splice content fd.fdsPos.toNat text) ∧
    free'.length ≤ free''.length+fd.cost t text.length
  sound : Sound t u
  stepped : Stepped fd fd' text.length
  kept : ∀ f, t.lookup fd.file f ≠ 0 → u.lookup fd.file f ≠ 0
  mapped : ∀ q, fd.fdsPos.toNat ≤ q → q < fd.fdsPos.toNat+text.length → u.lookup fd.file (q/512) ≠ 0

theorem Streamed.nil (writing : Writing s t role role' free free' fd content) :
    Streamed s t role free free' fd content [] fd t :=
  ⟨⟨role',free',writing,Nat.le_add_right _ _⟩,(Quiet.refl t).sound,.refl fd,fun _ => id,
    fun _ low high => absurd high (Nat.not_lt.mpr low)⟩

-- One byte through the direct branch.
structure Byted (s t : Machine) (role role'' : Nat → Role) (free free' free'' : List Nat) (fd : FileDesc)
    (content : Nat → Byte) (c : Byte) (fd' : FileDesc) (u : Machine) : Prop where
  writing : Writing s u role role'' free free'' fd' (Function.update content fd.fdsPos.toNat c)
  sound : Sound t u
  stepped : Stepped fd fd' 1
  cost : ∀ n, fd.price t+fd'.cost u n ≤ fd.cost t (n+1)
  left : free'.length = free''.length+fd.price t
  kept : ∀ f, t.lookup fd.file f ≠ 0 → u.lookup fd.file f ≠ 0
  mapped : u.lookup fd.file fd.block ≠ 0

theorem Writing.byte (writing : Writing s t role role' free free' fd content) (c : Byte)
    (near : fd.fdsPos.toNat+1 < 63488) (enough : fd.price t ≤ free'.length) :
    Returns (writecIfile fd c) t fun r u => r.1 ≠ returnFailure ∧
      ∃ role'' free'', Byted s t role role'' free free' free'' fd content c r.2 u := by
  have here : Supported fd.block := Or.inl (by unfold FileDesc.block; omega)
  have next := next_pos fd.fdsPos (by omega)
  have there : Supported ((fd.fdsPos+1).toNat/512) := Or.inl (by rw [next]; omega)
  refine (writing.writec c here there enough).mono ?_ (fun _ _ => id)
  intro r u post
  obtain ⟨role'',free'',after,sound,status,moved,dirty,count,kept,mapped,_⟩ := post
  have stepped := moved.stepped (by omega)
  have close : r.2.fdsPos.toNat < 63488 := by rw [stepped.position]; exact near
  refine ⟨?_,role'',free'',after,sound,stepped,cost_succ stepped.file stepped.position close dirty kept,count,kept,mapped⟩
  intro failed
  have low := congrArg BitVec.toNat (status.symm.trans failed)
  have constant : returnFailure.toNat = 4294967295 := by decide
  omega

theorem Byted.streamed (byted : Byted s t role role'' free free' free'' fd content c fd' u)
    (more : Streamed s u role free free'' fd' (Function.update content fd.fdsPos.toNat c) rest fd'' v) :
    Streamed s t role free free' fd content (c :: rest) fd'' v := by
  obtain ⟨⟨role3,free3,last,left⟩,sound,stepped,kept,mapped⟩ := more
  have first := byted.left
  have cost := byted.cost rest.length
  have next := byted.stepped.position
  rw [next] at last mapped
  rw [byted.stepped.file] at kept mapped
  refine ⟨⟨role3,free3,last,?_⟩,byted.sound.trans sound,byted.stepped.succ stepped,fun f live => kept f (byted.kept f live),?_⟩
  · rw [List.length_cons]
    omega
  · intro q low high
    rw [List.length_cons] at high
    by_cases same : q = fd.fdsPos.toNat
    · subst same
      exact kept _ byted.mapped
    · exact mapped q (by omega) (by omega)

theorem Writing.writeChars (writing : Writing s t role role' free free' fd content) (text : List Byte)
    (near : fd.fdsPos.toNat+text.length < 63488) (enough : fd.cost t text.length ≤ free'.length) :
    Returns (writeChars text fd) t fun r u => r.1 = true ∧ Streamed s t role free free' fd content text r.2 u := by
  induction text generalizing fd t role' free' content with
  | nil => exact ⟨rfl,.nil writing⟩
  | cons c rest ih =>
      rw [List.length_cons] at near enough
      rw [AsePlusPlus.writeChars,Returns,runs_bind]
      refine (writing.byte c (by omega) (Nat.le_trans (price_le t fd rest.length) enough)).mono ?_ (fun _ _ => id)
      intro result u post
      obtain ⟨r,fd'⟩ := result
      obtain ⟨accepted,role'',free'',byted⟩ := post
      dsimp only at accepted ⊢
      rw [if_neg accepted]
      have next := byted.stepped.position
      have left := byted.left
      have cost := byted.cost rest.length
      refine (ih byted.writing (by omega) (by omega)).mono ?_ (fun _ _ => id)
      intro r v post
      obtain ⟨done,streamed⟩ := post
      exact ⟨done,byted.streamed streamed⟩

-- The byte that read_eof takes the place of.
def eofByte : Byte := 0xFE

theorem signExtend_eof (c : Byte) : c.signExtend 32 = readEof ↔ c = eofByte := by
  revert c
  decide

theorem signExtend_back (c : Byte) : (c.signExtend 32).setWidth 8 = c := by
  revert c
  decide

-- A clean descriptor that has read `n` bytes.
structure Scanned (fd fd' : FileDesc) (n : Nat) : Prop where
  inumber : fd'.fdsInumber = fd.fdsInumber
  size : fd'.fdsSize = fd.fdsSize
  position : fd'.fdsPos.toNat = fd.fdsPos.toNat+n
  clean : fd'.fdsDirty = false

theorem Scanned.trans {fd'' : FileDesc} (one : Scanned fd fd' m) (more : Scanned fd' fd'' n) : Scanned fd fd'' (m+n) :=
  ⟨more.inumber.trans one.inumber,more.size.trans one.size,by rw [more.position,one.position]; omega,more.clean⟩

theorem Writing.next (writing : Writing s t role role' free free' fd content) (clean : fd.fdsDirty = false)
    (before : fd.fdsPos.toNat ≤ fd.fdsSize.toNat) (near : fd.fdsPos.toNat+1 < 63488) :
    Returns (readcIfile fd) t fun r u => Writing s u role role' free free' r.2 content ∧ Quiet t u ∧
      r.1 = (content fd.fdsPos.toNat).signExtend 32 ∧ Scanned fd r.2 1 := by
  have next := next_pos fd.fdsPos (by omega)
  refine (writing.readc clean before (Or.inl (by rw [next]; omega))).mono ?_ (fun _ _ => id)
  intro r u post
  obtain ⟨after,quiet,value,inumber,size,position,clean'⟩ := post
  exact ⟨after,quiet,value,inumber,size,by rw [position,next],clean'⟩

theorem Writing.readChars (writing : Writing s t role role' free free' fd content) (clean : fd.fdsDirty = false)
    (n : Nat) (whole : fd.fdsPos.toNat+n ≤ fd.fdsSize.toNat+1) (near : fd.fdsPos.toNat+n < 63488)
    (plain : eofByte ∉ span content fd.fdsPos.toNat n) :
    Returns (readChars n fd) t fun r u => Writing s u role role' free free' r.2 content ∧ Quiet t u ∧
      r.1 = span content fd.fdsPos.toNat n ∧ Scanned fd r.2 n := by
  induction n generalizing fd t with
  | zero => exact ⟨writing,.refl t,rfl,rfl,rfl,rfl,clean⟩
  | succ n ih =>
      rw [span_succ,List.mem_cons,not_or] at plain
      rw [AsePlusPlus.readChars,Returns,runs_bind]
      refine (writing.next clean (by omega) (by omega)).mono ?_ (fun _ _ => id)
      intro result u post
      obtain ⟨c,fd'⟩ := result
      obtain ⟨after,quiet,value,scanned⟩ := post
      dsimp only at after value scanned ⊢
      have goes : c ≠ readEof := fun stop => plain.1 ((signExtend_eof _).mp (value.symm.trans stop)).symm
      have next := scanned.position
      rw [if_neg goes,runs_bind]
      refine (ih after scanned.clean (by rw [next,scanned.size]; omega) (by omega) (by rw [next]; exact plain.2)).mono ?_
        (fun _ _ => id)
      intro r v post
      obtain ⟨last,quiet',chars,more⟩ := post
      rw [runs_pure,chars,value,signExtend_back,span_succ,next]
      exact ⟨last,quiet.trans quiet',rfl,by rw [Nat.add_comm n 1]; exact scanned.trans more⟩

end AsePlusPlus
