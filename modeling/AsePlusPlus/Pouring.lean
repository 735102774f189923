import AsePlusPlus.Reading
import AsePlusPlus.Duplicating

namespace AsePlusPlus
open Words Program

variable {role role' : Nat → Role} {free free' : List Nat} {o s t : Machine} {fd sfd dfd : FileDesc} {text rest : List Byte}
variable {b i q n reads : Nat} {c : Byte} {inumber : Word}

-- The loop of do_ed over what getchar returns.
def textLoop : List Byte → FileDesc → M FileDesc
  | [],fd => return fd
  | c :: rest,fd => do
    let (_,fd) ← writecIfile fd c
    textLoop rest fd

-- What do_ed and do_compute do behind create_file, each with its own loop.
def fillFile (loop : FileDesc → M FileDesc) (inumber : Word) : M Word := do
  let (status,fd) ← openIfile inumber
  if status ≠ returnSuccess then
    return 1
  else
    let fd ← loop fd
    let _ ← closeFile fd
    return 0

def editFile (text target : List Byte) : M Word := do
  let inumber ← createFile target .file
  if inumber = returnFailure then
    return 1
  else
    fillFile (textLoop text) inumber

def doEd (cwd arguments text : List Byte) : Option (M Word) := (canonicalPath cwd arguments).map (editFile text)

-- for (int j = 0; j<i; j++), with the dots to come as count.
def dotLoop : Nat → FileDesc → M FileDesc
  | 0,fd => return fd
  | count+1,fd => do
    let (_,fd) ← writecIfile fd dot
    dotLoop count fd

-- for (int i = 0; i<=max; i++), with the rows to come as count.
def rowLoop : Nat → Nat → FileDesc → M FileDesc
  | 0,_,fd => return fd
  | count+1,i,fd => do
    let fd ← dotLoop i fd
    let (_,fd) ← writecIfile fd newline
    rowLoop count (i+1) fd

-- The number of the new file is not looked at.
def computeFile (max : Int) (target : List Byte) : M Word := do
  let inumber ← createFile target .file
  fillFile (rowLoop (max+1).toNat 0) inumber

-- Without a path sscanf leaves one argument, and nothing is written.
def doCompute (cwd : List Byte) (max : Int) : Option (List Byte) → Option (M Word)
  | none => some (return 0)
  | some path => (canonicalPath cwd path).map (computeFile max)

def row (i : Nat) : List Byte := List.replicate i dot ++ [newline]

-- What do_compute writes.
def rows (i count : Nat) : List Byte := (List.range' i count).flatMap row

theorem textLoop_append (text rest : List Byte) (fd : FileDesc) : textLoop (text ++ rest) fd = (do
    let fd ← textLoop text fd
    textLoop rest fd) := by
  induction text generalizing fd with
  | nil => rfl
  | cons c text ih =>
      rw [List.cons_append,textLoop,textLoop,seq_assoc]
      exact congrArg (writecIfile fd c >>= ·) (funext fun r => ih r.2)

theorem dotLoop_eq (count : Nat) (fd : FileDesc) : dotLoop count fd = textLoop (List.replicate count dot) fd := by
  induction count generalizing fd with
  | zero => rfl
  | succ count ih =>
      rw [dotLoop,List.replicate_succ,textLoop]
      exact congrArg (writecIfile fd dot >>= ·) (funext fun r => ih r.2)

-- The rows are one text.
theorem rowLoop_eq (count i : Nat) (fd : FileDesc) : rowLoop count i fd = textLoop (rows i count) fd := by
  induction count generalizing i fd with
  | zero => rfl
  | succ count ih =>
      rw [rowLoop,rows,List.range'_succ,List.flatMap_cons,row,List.append_assoc,textLoop_append,dotLoop_eq]
      refine congrArg (textLoop (List.replicate i dot) fd >>= ·) (funext fun fd => ?_)
      rw [List.singleton_append,textLoop]
      exact congrArg (writecIfile fd newline >>= ·) (funext fun r => ih (i+1) r.2)

-- A new file that is filled while blocs last: bloc 0 is never lost.
structure Flowing (b : Nat) (o s : Machine) (role role' : Nat → Role) (free free' : List Nat) (fd : FileDesc) (text : List Byte) :
    Prop extends Poured b o s role role' free free' fd text where
  synced : Synced s

-- How many blocs a text fills.
def sectorsOf (length : Nat) : Nat := (length+511)/512

theorem Poured.affordable (poured : Poured b o s role role' free free' fd text) (more : text.length < n) (near : n < 63488)
    (enough : sectorsOf n ≤ free.length) : fd.price s ≤ free'.length := by
  have spent := poured.spent
  have dirty := poured.dirty
  have position := poured.position
  unfold sectorsOf at enough
  cases flag : fd.fdsDirty with
  | true =>
      unfold FileDesc.price
      rw [flag,if_pos rfl]
      exact Nat.zero_le _
  | false =>
      have aligned : text.length%512 = 0 := by
        by_contra offset
        have wrong := dirty.mpr offset
        rw [flag] at wrong
        cases wrong
      rw [price_direct s flag (by omega)]
      split
      · omega
      · exact Nat.zero_le _

theorem Poured.unstuck (poured : Poured b o s role role' free free' fd text) (enough : fd.price s ≤ free'.length) :
    ¬ Stuck s free' fd := by
  intro post
  obtain ⟨clean,none,hole⟩ := post
  have near := poured.near
  rw [price_direct s clean (by rw [poured.position]; exact near),none,if_pos hole] at enough
  exact absurd enough (by decide)

theorem Poured.flowing (poured : Poured b o s role role' free free' fd text) (more : text.length < n) (near : n < 63488)
    (enough : sectorsOf n ≤ free.length) : Flowing b o s role role' free free' fd text := by
  obtain ⟨_,_,state⟩ := poured.writing
  exact ⟨poured,(state.resolve_right (poured.unstuck (poured.affordable more near enough))).2⟩

theorem Flowing.writec (flowing : Flowing b o s role role' free free' fd text) (c : Byte) (more : text.length < n) (near : n < 63488)
    (enough : sectorsOf n ≤ free.length) :
    Returns (writecIfile fd c) s fun r t => ∃ role'' free'', Flowing b o t role role'' free free'' r.2 (text ++ [c]) := by
  have poured := flowing.toPoured
  have position := poured.position
  have price := poured.affordable more near enough
  have stored : Returns (writecIfile fd c) s fun r t => ∃ role'' free'', Poured b o t role role'' free free'' r.2 (text ++ [c]) :=
    (poured.stored c price).mono (fun _ _ => id) (fun _ _ last => by omega)
  have sound : Returns (writecIfile fd c) s fun _ t => Synced t := by
    obtain ⟨buf,writing,state⟩ := poured.writing
    obtain ⟨rfl,synced⟩ := state.resolve_right (poured.unstuck price)
    have next := next_pos fd.fdsPos (by omega)
    refine (Writing.writec writing c (.inl poured.direct) (.inl ?_) price).mono ?_ (fun _ _ => id)
    · show (fd.fdsPos+1).toNat/512 < 124
      rw [next]
      omega
    · intro r t post
      obtain ⟨_,_,_,sound,_⟩ := post
      exact sound.synced synced
  refine (stored.and sound).mono ?_ (fun _ _ => id)
  intro r t post
  obtain ⟨⟨role'',free'',after⟩,synced⟩ := post
  exact ⟨role'',free'',after,synced⟩

-- The text is stored whole.
theorem Flowing.texts (flowing : Flowing b o s role role' free free' fd text) (rest : List Byte) (near : (text ++ rest).length < 63488)
    (enough : sectorsOf (text ++ rest).length ≤ free.length) :
    Returns (textLoop rest fd) s fun fd t => ∃ role'' free'', Flowing b o t role role'' free free'' fd (text ++ rest) := by
  induction rest generalizing fd s role' free' text with
  | nil =>
      rw [List.append_nil]
      exact ⟨role',free',flowing⟩
  | cons c rest ih =>
      rw [textLoop,Returns,runs_bind]
      refine Runs.of_returns (flowing.writec c ?_ near enough) ?_
      · rw [List.length_append,List.length_cons]
        omega
      intro r t post
      obtain ⟨_,_,after⟩ := post
      rw [List.append_cons] at near enough ⊢
      exact ih after near enough

-- Closing writes what is in the buffer, and never bloc 0.
theorem Flowing.close (flowing : Flowing b o s role role' free free' fd text) :
    Returns (closeIfile fd) s fun _ t => Pasted b o t role role' free free' text ∧ Synced t := by
  have poured := flowing.toPoured
  refine poured.close.and ?_
  obtain ⟨buf,writing,state⟩ := poured.writing
  rcases state with ⟨rfl,synced⟩ | ⟨clean,_⟩
  · refine (Writing.close writing (.inl poured.direct)).mono ?_ (fun _ _ => id)
    intro _ t post
    exact post.2.1.synced synced
  · have here : role' fd.file = .inode := writing.here
    have inside := (writing.layout.bound here (by simp)).2
    have quiet := Quiet.load s fd.file
    rw [runs_close_clean writing.layout.mounted inside clean]
    have zero := resized_zero (writing.layout.quiet quiet) here fd.fdsSize
    unfold Synced
    rw [zero,quiet.blk]
    exact flowing.synced

-- A new file behind create_file takes the whole text.
theorem runs_fillFile (layout : Layout s role free) (synced : Synced s) (node : role inumber.toNat = .inode)
    (size : s.entryAt inumber.toNat 1 = 0) (blank : s.byteAt inumber.toNat = fun _ => 0) (near : text.length < 63488)
    (enough : sectorsOf text.length ≤ free.length) {loop : FileDesc → M FileDesc} (same : ∀ fd, loop fd = textLoop text fd) :
    Returns (fillFile loop inumber) s fun r t =>
      r = 0 ∧ Synced t ∧ ∃ role' free', Pasted inumber.toNat s t role role' free free' text := by
  unfold fillFile
  rw [Returns,runs_bind]
  refine Runs.of_returns (Writing.open layout inumber node) ?_
  intro result t post
  obtain ⟨status,fd⟩ := result
  obtain ⟨writing,quiet,done,number,size',pos,clean⟩ := post
  dsimp only at writing done number size' pos clean ⊢
  subst done
  rw [blank] at writing
  have file : fd.file = inumber.toNat := congrArg BitVec.toNat number
  have poured := Poured.start writing (quiet.same.synced synced) pos (size'.trans size) clean
  rw [file] at poured
  have flowing : Flowing inumber.toNat s t role role free free fd [] := ⟨poured,quiet.same.synced synced⟩
  rw [if_neg (by decide),runs_bind,same]
  refine Runs.of_returns (flowing.texts text near enough) ?_
  intro fd u post
  obtain ⟨role',free',after⟩ := post
  rw [runs_bind]
  refine Runs.of_returns after.close ?_
  intro _ v post
  exact ⟨rfl,post.2,role',free',post.1⟩

-- What is legible comes out as it is, up to the end.
def Printable (s : Machine) (i : Nat) : Prop := eofByte ∉ s.contents i

theorem Printable.byte (legible : Printable s i) (inside : q ≤ (s.entryAt i 1).toNat) : s.byteAt i q ≠ eofByte := by
  intro stop
  exact legible ((mem_span _ _ _).mpr ⟨q,Nat.zero_le q,by omega,stop⟩)

theorem Drawn.readcSame (drawn : Drawn o i q fd) (layout : Layout o role free) (same : Same o s) (node : role i = .inode)
    (inside : q ≤ (o.entryAt i 1).toNat) (near : (o.entryAt i 1).toNat+1 < 63488) :
    Returns (readcIfile fd) s fun r t => Same o t ∧ r.1 = (o.byteAt i q).signExtend 32 ∧ Drawn o i (q+1) r.2 := by
  have position := drawn.position
  have next : (fd.fdsPos+1).toNat = q+1 := by rw [next_pos _ (by omega),position]
  have files : ∀ f, s.fblock i f = o.fblock i f := (same.grew layout).fblock layout node
  have coherent : Coherent s fd := by
    refine ⟨fun _ => ?_,fun dirty => absurd dirty (by simp [drawn.clean])⟩
    unfold FileDesc.block
    rw [drawn.file,position,files]
    exact drawn.buffer
  refine (runs_readc (layout.same same) (by rw [drawn.file]; exact node) drawn.clean coherent
    (by rw [position,drawn.size]; exact inside) (by rw [next]; exact .inl (by omega))).mono ?_ (fun _ _ => id)
  intro r t post
  obtain ⟨quiet,rfl⟩ := post
  refine ⟨same.trans quiet.same,?_,drawn.file,drawn.clean,drawn.size,next,?_⟩
  · rw [drawn.file,position,same.byteAt]
  · dsimp only
    rw [drawn.file,next,files]

-- The loop of do_cat.
theorem Drawn.cats (drawn : Drawn o i q fd) (layout : Layout o role free) (same : Same o s) (node : role i = .inode)
    (near : (o.entryAt i 1).toNat+1 < 63488) (legible : Printable o i) (low : q ≤ (o.entryAt i 1).toNat+1) :
    Runs (catLoop reads fd) s (fun r t => Same o t ∧ r.1 = span (o.byteAt i) q ((o.entryAt i 1).toNat+1-q) ∧ Moved fd r.2)
      (fun _ _ => reads ≤ (o.entryAt i 1).toNat+1-q) := by
  induction reads generalizing fd s q with
  | zero => exact Nat.zero_le _
  | succ reads ih =>
      rw [catLoop,runs_bind]
      unfold readcFile
      by_cases past : (o.entryAt i 1).toNat < q
      · rw [runs_readc_end (by rw [drawn.position,drawn.size]; exact past)]
        dsimp only
        rw [if_pos rfl]
        refine ⟨same,?_,drawn.clean,rfl,rfl⟩
        rw [show (o.entryAt i 1).toNat+1-q = 0 by omega]
        rfl
      have inside := Nat.le_of_not_lt past
      refine Runs.of_returns (drawn.readcSame layout same node inside near) ?_
      intro result t post
      obtain ⟨c,fd'⟩ := result
      obtain ⟨same',value,drawn'⟩ := post
      dsimp only at value drawn' ⊢
      have moved : Moved fd fd' := ⟨drawn'.clean,BitVec.eq_of_toNat_eq (drawn'.file.trans drawn.file.symm),
        drawn'.size.trans drawn.size.symm⟩
      rw [if_neg (fun wrong => legible.byte inside ((signExtend_eof _).mp (value.symm.trans wrong))),runs_bind,value,signExtend_back]
      refine (ih drawn' same' (by omega)).mono ?_ (fun _ _ few => by omega)
      intro r u post
      obtain ⟨last,text,moved'⟩ := post
      refine ⟨last,?_,moved'.clean,moved'.inumber.trans moved.inumber,moved'.size.trans moved.size⟩
      rw [text,show (o.entryAt i 1).toNat+1-q = (o.entryAt i 1).toNat+1-(q+1)+1 by omega,span_succ]

-- The loop of do_cp, while blocs last.
theorem Flowing.copies (flowing : Flowing b o s role role' free free' dfd (span (o.byteAt i) 0 q)) (node : role i = .inode)
    (other : i ≠ b) (near : (o.entryAt i 1).toNat+1 < 63488) (legible : Printable o i) (drawn : Drawn o i q sfd)
    (low : q ≤ (o.entryAt i 1).toNat+1) (enough : sectorsOf ((o.entryAt i 1).toNat+1) ≤ free.length) :
    Runs (copyLoop reads sfd dfd) s (fun r t => Moved sfd r.1 ∧ ∃ role'' free'', Flowing b o t role role'' free free'' r.2 (o.contents i))
      (fun _ _ => reads ≤ (o.entryAt i 1).toNat+1-q) := by
  induction reads generalizing sfd dfd s role' free' q with
  | zero => exact Nat.zero_le _
  | succ reads ih =>
      rw [copyLoop,runs_bind]
      by_cases past : (o.entryAt i 1).toNat < q
      · unfold readcFile
        rw [runs_readc_end (by rw [drawn.position,drawn.size]; exact past)]
        dsimp only
        rw [if_pos rfl]
        rw [show q = (o.entryAt i 1).toNat+1 by omega] at flowing
        exact ⟨⟨drawn.clean,rfl,rfl⟩,role',free',flowing⟩
      have inside := Nat.le_of_not_lt past
      refine Runs.of_returns (drawn.readc flowing.toPoured node other inside near) ?_
      intro result t post
      obtain ⟨c,sfd'⟩ := result
      obtain ⟨quiet,value,drawn'⟩ := post
      dsimp only at value drawn' ⊢
      have moved : Moved sfd sfd' := ⟨drawn'.clean,BitVec.eq_of_toNat_eq (drawn'.file.trans drawn.file.symm),
        drawn'.size.trans drawn.size.symm⟩
      have flowing' : Flowing b o t role role' free free' dfd (span (o.byteAt i) 0 q) :=
        ⟨flowing.toPoured.same quiet.same,quiet.same.synced flowing.synced⟩
      rw [if_neg (fun wrong => legible.byte inside ((signExtend_eof _).mp (value.symm.trans wrong))),runs_bind,value,signExtend_back]
      refine Runs.of_returns (flowing'.writec (o.byteAt i q) (by rw [span_length]; omega) near enough) ?_
      intro r u post
      obtain ⟨role'',free'',after⟩ := post
      rw [← span_snoc] at after
      refine (ih after drawn' (by omega)).mono ?_ (fun _ _ few => by omega)
      intro r v post
      obtain ⟨moved',last⟩ := post
      exact ⟨⟨moved'.clean,moved'.inumber.trans moved.inumber,moved'.size.trans moved.size⟩,last⟩

theorem Flowing.endCopy (flowing : Flowing b o s role role' free free' dfd text) (clean : sfd.fdsDirty = false)
    (node : role sfd.file = .inode) (other : sfd.file ≠ b) (size : sfd.fdsSize = o.entryAt sfd.file 1) :
    Returns (endCopy sfd dfd) s fun r t => r = 0 ∧ Synced t ∧ Pasted b o t role role' free free' text := by
  unfold AsePlusPlus.endCopy
  rw [Returns,runs_bind]
  refine Runs.of_returns flowing.close ?_
  intro _ t post
  obtain ⟨pasted,synced⟩ := post
  have quiet := Quiet.load t sfd.file
  have inside := (pasted.layout.bound (pasted.toExtends.node node) (by simp)).2
  have same : Same (t.load sfd.file) ((t.load sfd.file).resized sfd.fdsInumber sfd.fdsSize) := by
    refine resized_same sfd.fdsSize ?_
    exact size.trans ((pasted.sizes _ node other).symm.trans (quiet.same.entryAt _ _).symm)
  have still := quiet.same.trans same
  unfold closeFile
  rw [runs_bind,runs_close_clean pasted.layout.mounted inside clean,runs_pure]
  exact ⟨rfl,still.synced synced,pasted.same still⟩

end AsePlusPlus
