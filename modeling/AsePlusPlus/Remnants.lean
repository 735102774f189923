import AsePlusPlus.Linking

namespace AsePlusPlus
open Words Program Resumption

variable {role role' role'' : Nat → Role} {free free' free'' : List Nat} {o s t u v w : Machine} {fd sfd dfd : FileDesc}
variable {b i n p q reads : Nat} {path text done rest : List Byte} {inumber : Word} {I : Machine → Prop} {source : List Byte}
variable {found : Store.Files (List Byte) (List Byte) → Prop}

-- Looking something up in between.
theorem Inked.still (inked : Inked b o t role role' free free' fd p done rest) (still : Still t u) :
    Inked b o u role role' free free' fd p done rest := by
  have same := still.same
  have cost : fd.cost u rest.length = fd.cost t rest.length := by
    obtain ⟨_,_,_,rfl⟩ := same
    rfl
  refine ⟨inked.file,inked.writing.grow (still.grew inked.writing.layout),inked.position,inked.near,by rw [cost]; exact inked.enough,
    same.synced inked.synced,fun q => ?_,inked.sound.trans still.sound⟩
  rw [same.byteAt]
  exact inked.blocs q

-- A file that has been opened, and a text that it has room for.
theorem Writing.inked (writing : Writing t u role role free free fd (t.byteAt fd.file)) (quiet : Quiet t u) (synced : Synced t)
    (pos : fd.fdsPos = 0) (clean : fd.fdsDirty = false) (near : text.length < 63488) (enough : sectorsOf text.length ≤ free.length) :
    Inked fd.file t u role role free free fd 0 [] text := by
  have start : fd.fdsPos.toNat = 0 := by rw [pos]; rfl
  refine ⟨rfl,writing,start,?_,Nat.le_trans ?_ enough,quiet.synced synced,fun q => ?_,quiet.sound⟩
  · rw [List.length_nil]
    omega
  · have price := price_direct u clean (by omega)
    have holes := List.countP_le_length (p := (u.lookup fd.file · = 0)) (l := List.range' (fd.block+1) ((fd.fdsPos.toNat+text.length-1)/512-fd.block))
    have block : fd.block = 0 := by
      unfold FileDesc.block
      rw [start]
    rw [List.length_range'] at holes
    unfold FileDesc.cost sectorsOf Machine.holes
    split
    · exact Nat.zero_le _
    · rw [price]
      split <;> omega
  · rw [quiet.same.byteAt,List.length_nil,if_neg (by omega)]

theorem idle_of (layout : Layout s role free) (node : role fd.file = .inode) (clean : fd.fdsDirty = false)
    (size : fd.fdsSize = s.entryAt fd.file 1) : Idle s fd := by
  have inside := (layout.bound node (by simp)).2
  have read : Runs (readInode fd.fdsInumber) s (fun inode _ => inode = s.inodeAt fd.file) (fun _ _ => False) := by
    rw [runs_readInode layout.mounted inside]
    rfl
  obtain ⟨inode,t,equal,same⟩ := returns_iff.mp read
  have holds := (((calm_readInode fd.fdsInumber).post (.refl s)).result equal).1
  rw [same] at holds
  exact ⟨clean,s.inodeAt fd.file,holds,size.symm⟩

-- What do_ed and do_compute do behind create_file.
theorem throughout_fillFile (layout : Layout t role free) (synced : Synced t) (node : role inumber.toNat = .inode)
    (near : text.length < 63488) (enough : sectorsOf text.length ≤ free.length) (minds : Minds I inumber.toNat t role free 0 text) (here : I t)
    {loop : FileDesc → S FileDesc} (same : ∀ fd, loop fd = Stepwise.textLoop text fd) :
    (Stepwise.fillFile loop inumber).Throughout Access.perform I t fun _ _ => True := by
  unfold Stepwise.fillFile
  refine (Stepwise.throughout_still (Stepwise.watches_openIfile inumber) minds.blind here (.refl t) (by
    rw [Stepwise.run_openIfile]
    exact Writing.open layout inumber node)).bind fun r u post => ?_
  obtain ⟨status,fd⟩ := r
  obtain ⟨_,_,writing,quiet,done,number,_,pos,clean⟩ := post
  dsimp only at writing done number pos clean ⊢
  have file : fd.file = inumber.toNat := congrArg BitVec.toNat number
  rw [← file] at writing minds
  have inked := writing.inked quiet synced pos clean near enough
  refine Task.throughout_ite (fun failed => absurd done failed) fun _ => ?_
  rw [same]
  refine (inked.texts minds).bind fun fd' v post => ?_
  obtain ⟨_,_,after⟩ := post
  rw [List.nil_append] at after
  exact (after.closes minds).bind fun _ _ _ => Task.throughout_pure trivial

theorem span_append (content : Nat → Byte) (p m n : Nat) : span content p m ++ span content (p+m) n = span content p (m+n) := by
  unfold span
  rw [← List.map_append,List.range'_append_1]

-- do_cp: what has been read is being written.
theorem Inked.copies {free3 : List Nat} {role3 : Nat → Role}
    (inked : Inked b o s role role' free free' dfd 0 (span (o.byteAt i) 0 q) (span (o.byteAt i) q n))
    (flowing : Flowing b o s role role3 free free3 dfd (span (o.byteAt i) 0 q)) (minds : Minds I b o role free 0 (o.contents i))
    (size : q+n = (o.entryAt i 1).toNat+1) (node : role i = .inode) (other : i ≠ b) (near : (o.entryAt i 1).toNat+1 < 63488)
    (legible : Printable o i) (drawn : Drawn o i q sfd) (enough : sectorsOf ((o.entryAt i 1).toNat+1) ≤ free.length) :
    (Stepwise.copyLoop reads sfd dfd).Throughout Access.perform I s fun r t => Moved sfd r.1 ∧
      (∃ role'' free'', Inked b o t role role'' free free'' r.2 0 (o.contents i) []) ∧
      ∃ role'' free'', Flowing b o t role role'' free free'' r.2 (o.contents i) := by
  have whole : ∀ q n, q+n = (o.entryAt i 1).toNat+1 → span (o.byteAt i) 0 q ++ span (o.byteAt i) q n = o.contents i := by
    intro q n size
    have split := span_append (o.byteAt i) 0 q n
    rw [Nat.zero_add,size] at split
    exact split
  induction reads generalizing sfd dfd s role' free' role3 free3 q n with
  | zero => exact Task.throughout_halt (minds.torn s role' free' dfd.block (by rw [← whole q n size]; exact inked.torn) inked.synced)
  | succ reads ih =>
      have here := minds.torn s role' free' dfd.block (by rw [← whole q n size]; exact inked.torn) inked.synced
      have clean := drawn.clean
      rw [Stepwise.copyLoop]
      cases n with
      | zero =>
          have ended : Stepwise.readcIfile sfd = pure (readEof,sfd) := by
            unfold Stepwise.readcIfile
            rw [if_pos]
            rw [BitVec.lt_def,drawn.position,drawn.size]
            omega
          rw [ended]
          have all := whole q 0 size
          rw [show span (o.byteAt i) q 0 = [] from rfl] at inked all
          rw [List.append_nil] at all
          rw [all] at inked flowing
          exact ⟨⟨clean,rfl,rfl⟩,⟨role',free',inked⟩,role3,free3,flowing⟩
      | succ n =>
          have inside : q ≤ (o.entryAt i 1).toNat := by omega
          have node' := inked.torn.node node
          have idle : Idle s sfd := by
            refine idle_of inked.writing.layout (by rw [drawn.file]; exact node') clean ?_
            rw [drawn.file,drawn.size]
            exact (BitVec.eq_of_toNat_eq (congrArg BitVec.toNat (inked.torn.sizes i node))).symm
          refine (Stepwise.throughout_still (Stepwise.watches_readcIfile idle) minds.blind here (.refl s) (by
            rw [Stepwise.run_readcIfile]
            exact drawn.readc flowing.toPoured node other inside near)).bind fun r t post => ?_
          obtain ⟨c,sfd'⟩ := r
          obtain ⟨_,_,quiet,value,drawn'⟩ := post
          dsimp only at value drawn' ⊢
          have moved : Moved sfd sfd' := ⟨drawn'.clean,BitVec.eq_of_toNat_eq (drawn'.file.trans drawn.file.symm),
            drawn'.size.trans drawn.size.symm⟩
          have flowing' : Flowing b o t role role3 free free3 dfd (span (o.byteAt i) 0 q) :=
            ⟨flowing.toPoured.same quiet.same,quiet.same.synced flowing.synced⟩
          have inked' := inked.still quiet.still
          refine Task.throughout_ite (fun ended => absurd ((signExtend_eof _).mp (value.symm.trans ended)) (legible.byte inside)) fun _ => ?_
          rw [value,signExtend_back]
          rw [span_succ] at inked'
          have mind : Minds I b o role free 0 (span (o.byteAt i) 0 q ++ o.byteAt i q :: span (o.byteAt i) (q+1) n) := by
            rw [← span_succ,whole q (n+1) size]
            exact minds
          have written := (inked'.writec mind).ends (E := fun _ _ => False) (by
            rw [Stepwise.run_writecIfile]
            exact flowing'.writec (o.byteAt i q) (by rw [span_length]; omega) near enough)
          refine written.bind fun r u post => ?_
          obtain ⟨⟨_,_,_,inked''⟩,_,_,flowing''⟩ := post
          rw [← span_snoc] at inked'' flowing''
          refine (ih inked'' flowing'' (by omega) drawn').mono fun r v post => ?_
          obtain ⟨moved',last⟩ := post
          exact ⟨⟨moved'.clean,moved'.inumber.trans moved.inumber,moved'.size.trans moved.size⟩,last⟩

theorem throughout_endCopy {free3 : List Nat} {role3 : Nat → Role} (inked : Inked b o s role role' free free' dfd 0 text [])
    (flowing : Flowing b o s role role3 free free3 dfd text) (minds : Minds I b o role free 0 text) (clean : sfd.fdsDirty = false)
    (node : role sfd.file = .inode) (other : sfd.file ≠ b) (size : sfd.fdsSize = o.entryAt sfd.file 1)
    (pasted : ∀ v role'' free'', Pasted b o v role role'' free free'' text → Synced v → I v) :
    (Stepwise.endCopy sfd dfd).Throughout Access.perform I s fun _ _ => True := by
  unfold Stepwise.endCopy
  have closing := (inked.closes minds).ends (E := fun _ _ => False) (by
    rw [Stepwise.run_closeIfile]
    exact flowing.close)
  refine closing.bind fun _ t post => ?_
  obtain ⟨_,done,synced⟩ := post
  have idle : Idle t sfd := by
    refine idle_of done.layout (done.toExtends.node node) clean ?_
    rw [size]
    exact (BitVec.eq_of_toNat_eq (congrArg BitVec.toNat (done.sizes _ node other))).symm
  refine (Stepwise.throughout_watches (Stepwise.watches_closeIfile idle) minds.blind (pasted t _ _ done synced)).bind fun _ _ _ =>
    Task.throughout_pure trivial

theorem runs_openFile (layout : Layout s role free) (browsable : Browsable s role) (fd : FileDesc) (source : List Byte) :
    Returns (openFile fd source) s fun r t => Still s t ∧
      if s.resolve source = 0 then r.1 = returnFailure else r.1 = returnSuccess ∧ Drawn s (s.resolve source).toNat 0 r.2 := by
  unfold openFile
  rw [Returns,runs_bind]
  refine Runs.of_returns (runs_inumberOfPath layout browsable source) ?_
  intro i t post
  obtain ⟨rfl,still⟩ := post
  by_cases none : s.resolve source = 0
  · rw [if_pos none,runs_pure]
    exact ⟨still,by rw [if_pos none]⟩
  have node := resolve_node browsable none
  rw [if_neg none]
  refine Runs.of_returns (runs_openIfile (layout.same still.same) node) ?_
  intro r u post
  obtain ⟨quiet,rfl⟩ := post
  rw [if_neg none]
  refine ⟨still.trans quiet.still,rfl,rfl,rfl,still.same.entryAt _ 1,rfl,?_⟩
  exact (still.same.grew layout).fblock layout node 0

-- do_cp behind the creation, with a source or without one.
theorem throughout_copyInto (layout : Layout t role free) (browsable : Browsable t role) (synced : Synced t) (node : role inumber.toNat = .inode)
    (size : t.entryAt inumber.toNat 1 = 0) (blank : t.byteAt inumber.toNat = fun _ => 0) (blind : Blind I) (here : I t)
    (found : t.resolve source ≠ 0 → (t.resolve source).toNat ≠ inumber.toNat ∧ (t.contents (t.resolve source).toNat).length < 63488 ∧
      Printable t (t.resolve source).toNat ∧ sectorsOf (t.contents (t.resolve source).toNat).length ≤ free.length ∧
      Minds I inumber.toNat t role free 0 (t.contents (t.resolve source).toNat) ∧
      ∀ v role'' free'', Pasted inumber.toNat t v role role'' free free'' (t.contents (t.resolve source).toNat) → Synced v → I v) :
    (Stepwise.copyInto reads source inumber).Throughout Access.perform I t fun _ _ => True := by
  unfold Stepwise.copyInto
  refine (Stepwise.throughout_still (Stepwise.watches_openIfile inumber) blind here (.refl t) (by
    rw [Stepwise.run_openIfile]
    exact Writing.open layout inumber node)).bind fun r u post => ?_
  obtain ⟨status,dfd⟩ := r
  obtain ⟨_,same,writing,quiet,done,number,size',pos,clean⟩ := post
  dsimp only at writing done number size' pos clean ⊢
  have file : dfd.file = inumber.toNat := congrArg BitVec.toNat number
  refine Task.throughout_ite (fun failed => absurd done failed) fun _ => ?_
  refine (Stepwise.throughout_still (E := fun _ _ => False) (R := fun _ w => w = u) Stepwise.watches_frame blind here same (by
    rw [Stepwise.run_frame]
    rfl)).bind fun frame w post => ?_
  obtain ⟨_,_,rfl⟩ := post
  refine (Stepwise.throughout_still (Stepwise.watches_openFile frame.desc source) blind here same (by
    rw [Stepwise.run_openFile]
    exact runs_openFile writing.layout (browsable.same same) frame.desc source)).bind fun r v post => ?_
  obtain ⟨status,sfd⟩ := r
  obtain ⟨_,_,still,opened⟩ := post
  dsimp only at opened ⊢
  by_cases missing : t.resolve source = 0
  · rw [same.resolve,if_pos missing] at opened
    rw [if_pos (by rw [opened]; decide)]
    exact Task.throughout_pure trivial
  rw [same.resolve,if_neg missing] at opened
  obtain ⟨success,drawn⟩ := opened
  obtain ⟨other,near,legible,enough,minds,pasted⟩ := found missing
  have drawn' : Drawn t (t.resolve source).toNat 0 sfd := by
    refine ⟨drawn.file,drawn.clean,drawn.size.trans (same.entryAt _ 1),drawn.position,drawn.buffer.trans ?_⟩
    exact (same.grew layout).fblock layout (resolve_node browsable missing) _
  have length := contents_length t (t.resolve source).toNat
  have poured := Poured.start (by rw [blank] at writing; exact writing) (quiet.same.synced synced) pos (size'.trans size) clean
  have flowing : Flowing dfd.file t v role role free free dfd [] :=
    ⟨poured.same still.same,still.same.synced (quiet.same.synced synced)⟩
  rw [← file] at writing
  have inked := (writing.inked quiet synced pos clean near enough).still still
  rw [file] at inked flowing
  rw [length] at near enough
  refine Task.throughout_ite (fun failed => absurd success failed) fun _ => ?_
  refine (inked.copies flowing minds (Nat.zero_add _) (resolve_node browsable missing) other near legible drawn' enough).bind
    fun r x post => ?_
  obtain ⟨moved,⟨_,_,inked'⟩,_,_,flowing'⟩ := post
  have source' : r.1.file = (t.resolve source).toNat := (congrArg BitVec.toNat moved.inumber).trans drawn.file
  refine throughout_endCopy inked' flowing' minds moved.clean ?_ ?_ ?_ pasted
  · rw [source']
    exact resolve_node browsable missing
  · rw [source']
    exact other
  · rw [source',moved.size]
    exact drawn'.size

end AsePlusPlus
