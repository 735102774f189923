import AsePlusPlus.Keeping
import AsePlusPlus.RoundTrip

namespace AsePlusPlus
open Words Program

variable {role role' : Nat → Role} {free free' : List Nat} {o s t u : Machine} {fd sfd dfd : FileDesc} {text : List Byte}
variable {content : Nat → Byte} {c : Byte} {i b q reads : Nat} {inumber : Word}

-- while ((c = readc_file(&sfd)) != READ_EOF) writec_file(&dfd, c), for so many
-- reads.
def copyLoop : Nat → FileDesc → FileDesc → M (FileDesc × FileDesc)
  | 0,_,_ => stop .loop
  | reads+1,sfd,dfd => do
    let (c,sfd) ← readcFile sfd
    if c = readEof then
      return (sfd,dfd)
    else
      let (_,dfd) ← writecFile dfd (c.setWidth 8)
      copyLoop reads sfd dfd

-- The last steps of do_cp.
def endCopy (sfd dfd : FileDesc) : M Word := do
  let _ ← closeFile dfd
  let _ ← closeFile sfd
  return 0

-- do_cp behind the creation.
def copyInto (reads : Nat) (source : List Byte) (inumber : Word) : M Word := do
  let (status,dfd) ← openIfile inumber
  if status ≠ returnSuccess then
    return 1
  else
    let m ← get
    let (status,sfd) ← openFile m.frame.desc source
    if status ≠ returnSuccess then
      return 1
    else
      let (sfd,dfd) ← copyLoop reads sfd dfd
      endCopy sfd dfd

-- do_cp behind the command line.
def copyFile (reads : Nat) (source dest : List Byte) : M Word := do
  let inumber ← createFile dest .file
  if inumber = returnFailure then
    return 1
  else
    copyInto reads source inumber

-- canonical_source and canonical_dest. A single word goes through the test
-- behind sscanf, and dest is what the stack held.
def cpPaths (m : Machine) : List (List Byte) → Option (List Byte × List Byte)
  | [] => none
  | [source] => do
    let canonicalSource ← canonicalPath m.cwd source
    let canonicalDest ← canonicalPath m.cwd m.frame.text
    return (canonicalSource,canonicalDest)
  | source :: dest :: _ => do
    let canonicalSource ← canonicalPath m.cwd source
    let canonicalDest ← canonicalPath m.cwd dest
    return (canonicalSource,canonicalDest)

-- The words are those that sscanf finds; none where a text does not fit its buffer.
def doCp (reads : Nat) (m : Machine) (words : List (List Byte)) : Option (M Word) :=
  if words = [] then some (return 1)
  else (cpPaths m words).map fun (source,dest) => copyFile reads source dest

-- Nothing is stored at the cursor any more: its bloc is missing, and so is every
-- other.
def Stuck (s : Machine) (free : List Nat) (fd : FileDesc) : Prop :=
  fd.fdsDirty = false ∧ free = [] ∧ s.lookup fd.file fd.block = 0

-- The volume `o` behind a descriptor that has filled a new file with a text. A
-- byte that found no bloc is left in the buffer.
structure Poured (b : Nat) (o s : Machine) (role role' : Nat → Role) (free free' : List Nat) (fd : FileDesc) (text : List Byte) :
    Prop where
  file : fd.file = b
  writing : ∃ buf, Writing o s role role' free free' {fd with fdsBuf := buf} (splice (fun _ => 0) 0 text) ∧
    (buf = fd.fdsBuf ∧ Synced s ∨ Stuck s free' fd)
  position : fd.fdsPos.toNat = text.length
  size : fd.fdsSize.toNat = text.length-1
  near : text.length < 63488
  dirty : fd.fdsDirty = true ↔ text.length%512 ≠ 0
  spent : free.length ≤ free'.length+(text.length+511)/512
  mapped : ∀ q, q < text.length → s.lookup b (q/512) ≠ 0

theorem splice_snoc (content : Nat → Byte) (p : Nat) (text : List Byte) (c : Byte) :
    splice content p (text ++ [c]) = Function.update (splice content p text) (p+text.length) c := by
  induction text generalizing content p with
  | nil => rfl
  | cons x rest ih => rw [List.cons_append,splice,ih,splice,List.length_cons,show p+1+rest.length = p+(rest.length+1) by omega]

theorem Poured.start (writing : Writing o s role role free free fd (fun _ => 0)) (synced : Synced s) (pos : fd.fdsPos = 0)
    (size : fd.fdsSize = 0) (clean : fd.fdsDirty = false) : Poured fd.file o s role role free free fd [] := by
  refine ⟨rfl,⟨fd.fdsBuf,writing,.inl ⟨rfl,synced⟩⟩,by rw [pos]; rfl,by rw [size]; rfl,by decide,?_,Nat.le_add_right _ _,?_⟩
  · rw [clean]
    decide
  · exact fun q low => absurd low (Nat.not_lt_zero q)

-- Looking something up in between.
theorem Poured.same (poured : Poured b o s role role' free free' fd text) (same : Same s t) :
    Poured b o t role role' free free' fd text := by
  obtain ⟨buf,writing,state⟩ := poured.writing
  refine ⟨poured.file,⟨buf,writing.grow (same.grew writing.layout),?_⟩,poured.position,poured.size,poured.near,poured.dirty,poured.spent,?_⟩
  · unfold Stuck
    rw [same.lookup]
    exact state.imp (fun flows => ⟨flows.1,same.synced flows.2⟩) id
  · intro q low
    rw [same.lookup]
    exact poured.mapped q low

theorem Poured.direct (poured : Poured b o s role role' free free' fd text) : fd.block < 124 := by
  have near := poured.near
  unfold FileDesc.block
  rw [poured.position]
  omega

-- As long as there are blocs for it the text grows, except behind the last byte
-- of the direct branch.
theorem Poured.stored (poured : Poured b o s role role' free free' fd text) (c : Byte) (enough : fd.price s ≤ free'.length) :
    Runs (writecIfile fd c) s (fun r t => ∃ role'' free'', Poured b o t role role'' free free'' r.2 (text ++ [c]))
      (fun _ _ => text.length = 63487) := by
  obtain ⟨buf,writing,state⟩ := poured.writing
  have direct := poured.direct
  have position := poured.position
  have near := poured.near
  have price : fd.price s = if fd.fdsDirty then 0 else if s.lookup fd.file fd.block = 0 then 1 else 0 := by
    cases flag : fd.fdsDirty with
    | true => unfold FileDesc.price; rw [flag]; rfl
    | false => exact price_direct s flag (by omega)
  have flows : buf = fd.fdsBuf ∧ Synced s := by
    apply state.resolve_right
    intro post
    obtain ⟨clean,none,hole⟩ := post
    rw [price,clean,none,hole] at enough
    exact absurd enough (by decide)
  obtain ⟨rfl,synced⟩ := flows
  have writing : Writing o s role role' free free' fd (splice (fun _ => 0) 0 text) := writing
  by_cases last : text.length = 63487
  · exact (writing.writec_lost synced c (position.trans last) enough).mono (fun _ _ => False.elim) (fun _ _ _ => last)
  have next := next_pos fd.fdsPos (by omega)
  refine Runs.of_returns (writing.writec c (.inl direct) (.inl (by rw [next]; omega)) enough) ?_
  intro r t post
  obtain ⟨role'',free'',after,sound,_,moved,dirty,left,kept,here,_⟩ := post
  have stepped := moved.stepped (by omega)
  rw [position,← Nat.zero_add text.length,← splice_snoc] at after
  rw [position] at dirty
  refine ⟨role'',free'',stepped.file.trans poured.file,⟨r.2.fdsBuf,after,.inl ⟨rfl,sound.synced synced⟩⟩,?_,?_,?_,?_,?_,?_⟩
  · rw [stepped.position,position,List.length_append]
    rfl
  · rw [stepped.size,if_neg (by decide),position,poured.size,List.length_append,List.length_singleton]
    omega
  · rw [List.length_append,List.length_singleton]
    omega
  · rw [dirty,List.length_append,List.length_singleton]
    omega
  · have spent := poured.spent
    have edge := poured.dirty
    rw [List.length_append,List.length_singleton]
    cases flag : fd.fdsDirty with
    | true =>
        rw [flag] at price
        rw [price,if_pos rfl] at left
        omega
    | false =>
        rw [flag] at edge price
        have aligned : text.length%512 = 0 := by
          by_contra offset
          exact absurd (edge.mpr offset) (by decide)
        have one : fd.price s ≤ 1 := by
          rw [price,if_neg (by decide)]
          split <;> omega
        omega
  · intro q low
    rw [List.length_append,List.length_singleton] at low
    rw [← poured.file]
    by_cases old : q < text.length
    · refine kept _ ?_
      rw [poured.file]
      exact poured.mapped q old
    · have new : q/512 = fd.block := by
        unfold FileDesc.block
        rw [position]
        omega
      rw [new]
      exact here

-- And it stays as it is where there is none.
theorem Poured.dropped (poured : Poured b o s role role' free free' fd text) (c : Byte) (short : free'.length < fd.price s) :
    Returns (writecIfile fd c) s fun r t => ∃ role'' free'', Poured b o t role role'' free free'' r.2 text ∧ Stuck t free'' r.2 := by
  obtain ⟨buf,writing,_⟩ := poured.writing
  have direct := poured.direct
  have clean : fd.fdsDirty = false := by
    cases flag : fd.fdsDirty with
    | false => rfl
    | true =>
        unfold FileDesc.price at short
        rw [flag,if_pos rfl] at short
        exact absurd short (Nat.not_lt_zero _)
  have need : free'.length < needed s fd.file fd.block := by
    unfold FileDesc.price at short
    rwa [clean,if_neg (by decide)] at short
  have spent := poured.spent
  have here : role' fd.file = .inode := writing.here
  refine (runs_writec_short writing.layout here c (.inl direct) clean need).mono ?_ (fun _ _ => id)
  intro r t post
  obtain ⟨role'',free'',grew,none,_,hole,equal⟩ := post
  subst equal
  have stuck : Stuck t free'' {fd with fdsBuf := Words.put fd.fdsBuf (iblocOfPos fd.fdsPos) c} := ⟨clean,none,hole⟩
  have fewer : free'.length = 0 := by
    unfold needed at need
    rw [if_pos direct] at need
    split at need <;> omega
  refine ⟨role'',free'',⟨poured.file,⟨buf,writing.grow grew,.inr stuck⟩,poured.position,poured.size,poured.near,poured.dirty,
    by omega,?_⟩,stuck⟩
  intro q low
  have live := poured.mapped q low
  rw [poured.file] at here
  rw [grew.kept b (q/512) here live]
  exact live

theorem Poured.writec (poured : Poured b o s role role' free free' fd text) (c : Byte) :
    Runs (writecIfile fd c) s (fun r t => ∃ role'' free'', Poured b o t role role'' free free'' r.2 (text ++ [c]) ∧ ¬ Stuck s free' fd ∨
      Poured b o t role role'' free free'' r.2 text ∧ Stuck t free'' r.2) (fun _ _ => text.length = 63487) := by
  by_cases enough : fd.price s ≤ free'.length
  · refine (poured.stored c enough).mono ?_ (fun _ _ => id)
    intro r t post
    obtain ⟨role'',free'',after⟩ := post
    refine ⟨role'',free'',.inl ⟨after,?_⟩⟩
    intro post
    obtain ⟨clean,none,hole⟩ := post
    have near := poured.near
    rw [price_direct s clean (by rw [poured.position]; exact near),none,if_pos hole] at enough
    exact absurd enough (by decide)
  · refine Runs.of_returns (poured.dropped c (Nat.lt_of_not_le enough)) ?_
    intro r t post
    obtain ⟨role'',free'',after⟩ := post
    exact ⟨role'',free'',.inr after⟩

theorem Poured.files (poured : Poured b o s role role' free free' fd text) (node : role i = .inode) (other : i ≠ b) (f : Nat) :
    s.fblock i f = o.fblock i f := by
  obtain ⟨buf,writing,_⟩ := poured.writing
  exact writing.files i f node (fun same => other (same.trans poured.file))

theorem Poured.layout (poured : Poured b o s role role' free free' fd text) : Layout s role' free' := by
  obtain ⟨buf,writing,_⟩ := poured.writing
  exact writing.layout

theorem Poured.node (poured : Poured b o s role role' free free' fd text) (node : role i = .inode) : role' i = .inode := by
  obtain ⟨buf,writing,_⟩ := poured.writing
  exact writing.toExtends.node node

theorem span_snoc (content : Nat → Byte) (n : Nat) : span content 0 (n+1) = span content 0 n ++ [content n] := by
  unfold span
  rw [List.range'_concat,List.map_append,Nat.zero_add,Nat.one_mul]
  rfl

-- A clean descriptor that has read a file, as it is in `o`, up to a position.
structure Drawn (o : Machine) (i q : Nat) (fd : FileDesc) : Prop where
  file : fd.file = i
  clean : fd.fdsDirty = false
  size : fd.fdsSize = o.entryAt i 1
  position : fd.fdsPos.toNat = q
  buffer : fd.fdsBuf = o.fblock i (q/512)

theorem Drawn.readc (drawn : Drawn o i q sfd) (poured : Poured b o s role role' free free' dfd text) (node : role i = .inode)
    (other : i ≠ b) (inside : q ≤ (o.entryAt i 1).toNat) (near : (o.entryAt i 1).toNat+1 < 63488) :
    Returns (readcIfile sfd) s fun r t => Quiet s t ∧ r.1 = (o.byteAt i q).signExtend 32 ∧ Drawn o i (q+1) r.2 := by
  have files := poured.files node other
  have position := drawn.position
  have next : (sfd.fdsPos+1).toNat = q+1 := by rw [next_pos _ (by omega),position]
  have coherent : Coherent s sfd := by
    refine ⟨fun _ => ?_,fun dirty => absurd dirty (by simp [drawn.clean])⟩
    unfold FileDesc.block
    rw [drawn.file,position,files]
    exact drawn.buffer
  refine (runs_readc poured.layout (by rw [drawn.file]; exact poured.node node) drawn.clean coherent
    (by rw [position,drawn.size]; exact inside) (by rw [next]; exact .inl (by omega))).mono ?_ (fun _ _ => id)
  intro r t post
  obtain ⟨quiet,rfl⟩ := post
  refine ⟨quiet,?_,drawn.file,drawn.clean,drawn.size,next,?_⟩
  · unfold Machine.byteAt
    rw [drawn.file,position,files]
  · dsimp only
    rw [drawn.file,next,files]

-- What is read is written, up to where the chain has ended.
structure Abreast (content : Nat → Byte) (q : Nat) (text : List Byte) (stuck : Prop) : Prop where
  whole : text = span content 0 text.length
  plain : eofByte ∉ text
  level : text.length = q ∨ text.length < q ∧ stuck

theorem Abreast.stored {stuck : Prop} (abreast : Abreast content q text stuck) (flows : ¬ stuck) (goes : content q ≠ eofByte)
    (stuck' : Prop) : Abreast content (q+1) (text ++ [content q]) stuck' := by
  have level := abreast.level.resolve_right fun lost => flows lost.2
  refine ⟨?_,?_,.inl ?_⟩
  · rw [List.length_append,List.length_singleton,span_snoc,← abreast.whole,level]
  · rw [List.mem_append,List.mem_singleton,not_or]
    exact ⟨abreast.plain,fun same => goes same.symm⟩
  · rw [List.length_append,List.length_singleton,level]

theorem Abreast.dropped {stuck stuck' : Prop} (abreast : Abreast content q text stuck) (lost : stuck') :
    Abreast content (q+1) text stuck' := by
  refine ⟨abreast.whole,abreast.plain,.inr ⟨?_,lost⟩⟩
  rcases abreast.level with level | ⟨less,_⟩
  · omega
  · omega

-- The loop of do_cp, whatever it reads.
theorem Poured.pours (poured : Poured b o s role role' free free' dfd text) (clean : sfd.fdsDirty = false) :
    Runs (copyLoop reads sfd dfd) s (fun r t => Moved sfd r.1 ∧ ∃ role'' free'' text', Poured b o t role role'' free free'' r.2 text')
      (fun _ _ => True) := by
  induction reads generalizing sfd dfd s role' free' text with
  | zero => trivial
  | succ reads ih =>
      rw [copyLoop,runs_bind]
      refine ((calm_readc_clean clean).runs (.refl s)).mono ?_ (fun _ _ _ => trivial)
      intro result t post
      obtain ⟨c,sfd'⟩ := result
      obtain ⟨moved,_,same⟩ := post
      dsimp only at moved ⊢
      have poured' := poured.same same
      by_cases ended : c = readEof
      · rw [if_pos ended]
        exact ⟨moved,role',free',text,poured'⟩
      rw [if_neg ended,runs_bind]
      refine (poured'.writec (c.setWidth 8)).mono ?_ (fun _ _ _ => trivial)
      intro r u wrote
      have more : ∃ role'' free'' text', Poured b o u role role'' free free'' r.2 text' := by
        obtain ⟨role'',free'',⟨after,_⟩ | ⟨after,_⟩⟩ := wrote
        · exact ⟨role'',free'',_,after⟩
        · exact ⟨role'',free'',_,after⟩
      obtain ⟨role'',free'',text',after⟩ := more
      refine (ih after moved.clean).mono ?_ (fun _ _ => id)
      intro r v post
      obtain ⟨moved',last⟩ := post
      exact ⟨⟨moved'.clean,moved'.inumber.trans moved.inumber,moved'.size.trans moved.size⟩,last⟩

-- The loop of do_cp on a file within the direct branch.
theorem Poured.copies (poured : Poured b o s role role' free free' dfd text) (node : role i = .inode) (other : i ≠ b)
    (near : (o.entryAt i 1).toNat+1 < 63488) (drawn : Drawn o i q sfd) (low : q ≤ (o.entryAt i 1).toNat+1)
    (abreast : Abreast (o.byteAt i) q text (Stuck s free' dfd)) :
    Runs (copyLoop reads sfd dfd) s (fun r t => Moved sfd r.1 ∧ ∃ q' text' role'' free'', Poured b o t role role'' free free'' r.2 text' ∧
      Abreast (o.byteAt i) q' text' (Stuck t free'' r.2) ∧
      (q' = (o.entryAt i 1).toNat+1 ∨ q' ≤ (o.entryAt i 1).toNat ∧ o.byteAt i q' = eofByte))
      (fun _ _ => reads ≤ (o.entryAt i 1).toNat+1-q) := by
  induction reads generalizing sfd dfd s role' free' text q with
  | zero => exact Nat.zero_le _
  | succ reads ih =>
      rw [copyLoop,runs_bind]
      by_cases past : (o.entryAt i 1).toNat < q
      · unfold readcFile
        rw [runs_readc_end (by rw [drawn.position,drawn.size]; exact past)]
        dsimp only
        rw [if_pos rfl]
        exact ⟨⟨drawn.clean,rfl,rfl⟩,q,text,role',free',poured,abreast,.inl (by omega)⟩
      refine Runs.of_returns (drawn.readc poured node other (Nat.le_of_not_lt past) near) ?_
      intro result t post
      obtain ⟨c,sfd'⟩ := result
      obtain ⟨quiet,value,drawn'⟩ := post
      dsimp only at value drawn' ⊢
      have poured' := poured.same quiet.same
      have moved : Moved sfd sfd' := ⟨drawn'.clean,BitVec.eq_of_toNat_eq (drawn'.file.trans drawn.file.symm),
        drawn'.size.trans drawn.size.symm⟩
      have abreast' : Abreast (o.byteAt i) q text (Stuck t free' dfd) := by
        refine ⟨abreast.whole,abreast.plain,abreast.level.imp id fun lost => ⟨lost.1,?_⟩⟩
        unfold Stuck
        rw [quiet.lookup]
        exact lost.2
      by_cases ended : o.byteAt i q = eofByte
      · rw [if_pos (value.trans ((signExtend_eof _).mpr ended))]
        exact ⟨moved,q,text,role',free',poured',abreast',.inr ⟨Nat.le_of_not_lt past,ended⟩⟩
      rw [if_neg (fun wrong => ended ((signExtend_eof _).mp (value.symm.trans wrong))),runs_bind,value,signExtend_back]
      refine (poured'.writec (o.byteAt i q)).mono ?_ ?_
      · intro r u wrote
        have more : ∃ role'' free'' text', Poured b o u role role'' free free'' r.2 text' ∧
            Abreast (o.byteAt i) (q+1) text' (Stuck u free'' r.2) := by
          obtain ⟨role'',free'',⟨after,flows⟩ | ⟨after,stuck⟩⟩ := wrote
          · exact ⟨role'',free'',_,after,abreast'.stored flows ended _⟩
          · exact ⟨role'',free'',_,after,abreast'.dropped stuck⟩
        obtain ⟨role'',free'',text',after,level⟩ := more
        refine (ih after drawn' (by omega) level).mono ?_ (fun _ _ few => by omega)
        intro r v post
        obtain ⟨moved',last⟩ := post
        exact ⟨⟨moved'.clean,moved'.inumber.trans moved.inumber,moved'.size.trans moved.size⟩,last⟩
      · intro _ _ last
        have behind : text.length ≤ q := by
          rcases abreast.level with level | ⟨less,_⟩
          · exact Nat.le_of_eq level
          · exact Nat.le_of_lt less
        omega

-- What is left of a copy: a text in its file, and nothing else has changed.
structure Pasted (b : Nat) (s t : Machine) (role role' : Nat → Role) (free free' : List Nat) (text : List Byte) : Prop
    extends Filed s t role role' free free' b where
  size : (t.entryAt b 1).toNat = text.length-1
  content : t.byteAt b = splice (fun _ => 0) 0 text
  near : text.length < 63488
  mapped : ∀ q, q < text.length → t.lookup b (q/512) ≠ 0
  settled : Synced t ∨ free' = []

theorem Pasted.same (pasted : Pasted b o s role role' free free' text) (same : Same s t) : Pasted b o t role role' free free' text := by
  have filed := pasted.toFiled.trans ((same.grew pasted.layout).filed pasted.layout b)
  refine ⟨filed,?_,?_,pasted.near,?_,pasted.settled.imp same.synced id⟩
  · rw [same.entryAt]
    exact pasted.size
  · rw [← pasted.content]
    exact funext fun q => same.byteAt b q
  · intro q low
    rw [same.lookup]
    exact pasted.mapped q low

theorem Closed.pasted {size : Word} (closed : Closed o t role role' free free' b (splice (fun _ => 0) 0 text) size)
    (node : role b = .inode) (value : size.toNat = text.length-1) (near : text.length < 63488)
    (mapped : ∀ q, q < text.length → t.lookup b (q/512) ≠ 0) (settled : Synced t ∨ free' = []) :
    Pasted b o t role role' free free' text := by
  refine ⟨⟨closed.toExtends,fun j node other => ?_,closed.files⟩,?_,funext closed.content,near,mapped,settled⟩
  · rw [closed.sizes j node,if_neg other]
  · rw [closed.sizes b node,if_pos rfl]
    exact value

theorem Poured.close (poured : Poured b o s role role' free free' fd text) :
    Returns (closeIfile fd) s fun _ t => Pasted b o t role role' free free' text := by
  obtain ⟨buf,writing,state⟩ := poured.writing
  have file := poured.file
  have origin : role b = .inode := file ▸ writing.origin
  rcases state with ⟨rfl,synced⟩ | ⟨clean,none,_⟩
  · have writing : Writing o s role role' free free' fd (splice (fun _ => 0) 0 text) := writing
    refine (writing.close (.inl poured.direct)).mono ?_ (fun _ _ => id)
    intro _ t post
    obtain ⟨closed,sound,same⟩ := post
    rw [file] at closed same
    refine closed.pasted origin poured.size poured.near (fun q low => ?_) (.inl (sound.synced synced))
    rw [same]
    exact poured.mapped q low
  · have here : role' fd.file = .inode := writing.here
    have inside := (writing.layout.bound here (by simp)).2
    have closed := (writing.recorded clean).1
    have quiet := Quiet.load s fd.file
    have closed : Closed o ((s.load fd.file).resized fd.fdsInumber fd.fdsSize) role role' free free' fd.file
      (splice (fun _ => 0) 0 text) fd.fdsSize := closed
    rw [Returns,runs_close_clean writing.layout.mounted inside clean]
    have lookup : ∀ f, ((s.load fd.file).resized fd.fdsInumber fd.fdsSize).lookup fd.file f = s.lookup fd.file f := fun f =>
      (resized_lookup (writing.layout.quiet quiet) here fd.fdsSize here f).trans (quiet.lookup _ f)
    rw [file] at closed lookup
    rw [file]
    refine closed.pasted origin poured.size poured.near (fun q low => ?_) (.inr none)
    rw [lookup]
    exact poured.mapped q low

-- A source is closed with the size that it was opened with.
theorem Poured.endCopy (poured : Poured b o s role role' free free' dfd text) (clean : sfd.fdsDirty = false)
    (node : role sfd.file = .inode) (other : sfd.file ≠ b) (size : sfd.fdsSize = o.entryAt sfd.file 1) :
    Returns (endCopy sfd dfd) s fun r t => r = 0 ∧ Pasted b o t role role' free free' text := by
  unfold AsePlusPlus.endCopy
  rw [Returns,runs_bind]
  refine poured.close.mono ?_ (fun _ _ => id)
  intro _ t pasted
  have quiet := Quiet.load t sfd.file
  have inside := (pasted.layout.bound (pasted.toExtends.node node) (by simp)).2
  have same : Same (t.load sfd.file) ((t.load sfd.file).resized sfd.fdsInumber sfd.fdsSize) := by
    refine resized_same sfd.fdsSize ?_
    exact size.trans ((pasted.sizes _ node other).symm.trans (quiet.same.entryAt _ _).symm)
  unfold closeFile
  rw [runs_bind,runs_close_clean pasted.layout.mounted inside clean,runs_pure]
  exact ⟨rfl,pasted.same (quiet.same.trans same)⟩

-- A file that is its own source keeps the size that it had before.
theorem Poured.endCopy_self (poured : Poured b o s role role' free free' dfd text) (clean : sfd.fdsDirty = false)
    (file : sfd.file = b) : Returns (AsePlusPlus.endCopy sfd dfd) s fun _ t => Filed o t role role' free free' b := by
  obtain ⟨_,writing,_⟩ := poured.writing
  have origin : role b = .inode := by rw [← poured.file]; exact writing.origin
  unfold AsePlusPlus.endCopy
  rw [Returns,runs_bind]
  refine poured.close.mono ?_ (fun _ _ => id)
  intro _ t pasted
  have here : role' sfd.file = .inode := by rw [file]; exact pasted.node origin
  have inside := (pasted.layout.bound here (by simp)).2
  have quiet := Quiet.load t sfd.file
  have filed := (quiet.filed pasted.layout sfd.file).trans (resized_filed (pasted.layout.quiet quiet) here sfd.fdsSize)
  unfold closeFile
  rw [runs_bind,runs_close_clean pasted.layout.mounted inside clean,runs_pure]
  rw [file] at filed ⊢
  exact pasted.toFiled.trans filed

-- The two files are open, the new one and the source, if there is a source.
theorem runs_copyInto {source : List Byte} {Q : Word → Machine → Prop} {E : Stop → Machine → Prop} (layout : Layout s role free)
    (browsable : Browsable s role) (synced : Synced s) (node : role inumber.toNat = .inode) (size : s.entryAt inumber.toNat 1 = 0)
    (blank : s.byteAt inumber.toNat = fun _ => 0) (missing : s.resolve source = 0 → ∀ t, Still s t → Q 1 t)
    (found : s.resolve source ≠ 0 → ∀ sfd dfd t, Poured inumber.toNat s t role role free free dfd [] →
      Drawn s (s.resolve source).toNat 0 sfd → Runs (copyLoop reads sfd dfd) t (fun r u => Runs (endCopy r.1 r.2) u Q E) E) :
    Runs (copyInto reads source inumber) s Q E := by
  unfold copyInto
  rw [runs_bind]
  refine Runs.of_returns (Writing.open layout inumber node) ?_
  intro result t post
  obtain ⟨status,dfd⟩ := result
  obtain ⟨writing,quiet,done,number,size',pos,clean⟩ := post
  dsimp only at writing done number size' pos clean ⊢
  subst done
  rw [blank] at writing
  have file : dfd.file = inumber.toNat := congrArg BitVec.toNat number
  have poured := Poured.start writing (quiet.same.synced synced) pos (size'.trans size) clean
  rw [file] at poured
  rw [if_neg (by decide),runs_bind,runs_get,runs_bind]
  unfold openFile
  rw [runs_bind]
  refine Runs.of_returns (runs_inumberOfPath writing.layout (browsable.same quiet.same) source) ?_
  intro i u there
  obtain ⟨number,still⟩ := there
  rw [quiet.same.resolve] at number
  subst number
  by_cases none : s.resolve source = 0
  · rw [if_pos none,runs_pure]
    dsimp only
    rw [if_pos (by decide)]
    exact missing none u (quiet.still.trans still)
  have node' := resolve_node browsable none
  have same := quiet.same.trans still.same
  rw [if_neg none]
  refine Runs.of_returns (runs_openIfile (layout.same same) node') ?_
  intro r v opened
  obtain ⟨quiet',equal⟩ := opened
  subst equal
  have start : (0 : Word).toNat = 0 := rfl
  have files := ((same.grew layout).fblock layout node' 0)
  dsimp only
  rw [if_neg (by decide),runs_bind]
  refine found none _ dfd v (poured.same (still.same.trans quiet'.same)) ⟨rfl,rfl,?_,start,?_⟩
  · exact same.entryAt _ 1
  · exact files

-- The chain had no bloc for the byte behind the text.
def Exhausted (free : List Nat) (text : List Byte) : Prop := text.length%512 = 0 ∧ free.length ≤ text.length/512

theorem Poured.exhausted (poured : Poured b o s role role' free free' fd text) (stuck : Stuck s free' fd) : Exhausted free text := by
  have aligned : text.length%512 = 0 := by
    by_contra offset
    have wrong := poured.dirty.mpr offset
    rw [stuck.1] at wrong
    cases wrong
  have spent := poured.spent
  rw [stuck.2.1,List.length_nil] at spent
  exact ⟨aligned,by omega⟩

section into
variable {source : List Byte} (layout : Layout s role free) (browsable : Browsable s role) (synced : Synced s)
  (node : role inumber.toNat = .inode) (size : s.entryAt inumber.toNat 1 = 0) (blank : s.byteAt inumber.toNat = fun _ => 0)
include layout browsable synced node size blank

-- Without a source the new file is left behind.
theorem copyInto_missing (reads : Nat) (missing : s.resolve source = 0) :
    Returns (copyInto reads source inumber) s fun r t => r = 1 ∧ Still s t := by
  refine runs_copyInto layout browsable synced node size blank (fun _ t still => ⟨rfl,still⟩) ?_
  exact fun wrong => absurd missing wrong

-- Whatever the source is, what is copied stays within the direct branch.
theorem copyInto_pastes (reads : Nat) (found : s.resolve source ≠ 0) (other : (s.resolve source).toNat ≠ inumber.toNat) :
    Runs (copyInto reads source inumber) s
      (fun r t => r = 0 ∧ ∃ role' free' text, Pasted inumber.toNat s t role role' free free' text) (fun _ _ => True) := by
  refine runs_copyInto layout browsable synced node size blank (fun wrong => absurd wrong found) ?_
  intro _ sfd dfd t poured drawn
  refine (poured.pours drawn.clean).mono ?_ (fun _ _ => id)
  intro r u post
  obtain ⟨moved,role',free',text,last⟩ := post
  have file : r.1.file = (s.resolve source).toNat := (congrArg BitVec.toNat moved.inumber).trans drawn.file
  refine Runs.of_returns (last.endCopy moved.clean ?_ ?_ ?_) fun _ v done => ⟨done.1,role',free',text,done.2⟩
  · rw [file]
    exact resolve_node browsable found
  · rw [file]
    exact other
  · rw [file,moved.size]
    exact drawn.size

-- Nothing but the new file is written, whatever the source is.
theorem copyInto_filed (reads : Nat) : Runs (copyInto reads source inumber) s
    (fun _ t => ∃ role' free', Filed s t role role' free free' inumber.toNat) (fun _ _ => True) := by
  refine runs_copyInto layout browsable synced node size blank ?_ ?_
  · intro _ t still
    exact ⟨role,free,(still.same.grew layout).filed layout _⟩
  intro found sfd dfd t poured drawn
  refine (poured.pours drawn.clean).mono ?_ (fun _ _ => id)
  intro r u post
  obtain ⟨moved,role',free',text,last⟩ := post
  have file : r.1.file = (s.resolve source).toNat := (congrArg BitVec.toNat moved.inumber).trans drawn.file
  by_cases other : (s.resolve source).toNat = inumber.toNat
  · exact Runs.of_returns (last.endCopy_self moved.clean (file.trans other)) fun _ v done => ⟨role',free',done⟩
  refine Runs.of_returns (last.endCopy moved.clean ?_ ?_ ?_) fun _ v done => ⟨role',free',done.2.toFiled⟩
  · rw [file]
    exact resolve_node browsable found
  · rw [file]
    exact other
  · rw [file,moved.size]
    exact drawn.size

-- A source within the direct branch is copied up to its end, or to a byte that
-- reads as READ_EOF, as long as there are blocs.
theorem copyInto_copies (reads : Nat) (found : s.resolve source ≠ 0) (other : (s.resolve source).toNat ≠ inumber.toNat)
    (near : (s.entryAt (s.resolve source).toNat 1).toNat+1 < 63488) :
    Runs (copyInto reads source inumber) s (fun r t => r = 0 ∧ ∃ role' free' q text,
      Pasted inumber.toNat s t role role' free free' text ∧
      Abreast (s.byteAt (s.resolve source).toNat) q text (Exhausted free text) ∧
      (q = (s.entryAt (s.resolve source).toNat 1).toNat+1 ∨
        q ≤ (s.entryAt (s.resolve source).toNat 1).toNat ∧ s.byteAt (s.resolve source).toNat q = eofByte))
      (fun _ _ => reads ≤ (s.entryAt (s.resolve source).toNat 1).toNat+1) := by
  refine runs_copyInto layout browsable synced node size blank (fun wrong => absurd wrong found) ?_
  intro _ sfd dfd t poured drawn
  have node' := resolve_node browsable found
  have abreast : Abreast (s.byteAt (s.resolve source).toNat) 0 [] (Stuck t free dfd) := ⟨rfl,by simp,.inl rfl⟩
  refine (poured.copies node' other near drawn (Nat.zero_le _) abreast).mono ?_ (fun _ _ => id)
  intro r u post
  obtain ⟨moved,q,text,role',free',last,level,ended⟩ := post
  have file : r.1.file = (s.resolve source).toNat := (congrArg BitVec.toNat moved.inumber).trans drawn.file
  refine Runs.of_returns (last.endCopy moved.clean ?_ ?_ ?_) ?_
  · rw [file]
    exact node'
  · rw [file]
    exact other
  · rw [file,moved.size]
    exact drawn.size
  · intro _ v done
    refine ⟨done.1,role',free',q,text,done.2,⟨level.whole,level.plain,level.level.imp id fun lost => ⟨lost.1,?_⟩⟩,ended⟩
    exact last.exhausted lost.2

end into

end AsePlusPlus
