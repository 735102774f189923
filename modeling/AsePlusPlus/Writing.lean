import AsePlusPlus.Descriptor

namespace AsePlusPlus
open Words Program

variable {role role' role'' : Nat → Role} {free free' free'' : List Nat} {s t u : Machine}
variable {fd fd' : FileDesc} {c : Byte} {content : Nat → Byte}

-- The descriptor behind a byte that was stored: the last position written is
-- the size, so one byte less than there are.
def FileDesc.advanced (fd : FileDesc) : FileDesc :=
  {fd with
    fdsSize := if fd.fdsSize < fd.fdsPos then fd.fdsPos else fd.fdsSize
    fdsPos := fd.fdsPos+1}

theorem writecAdvance_eq (fd : FileDesc) : writecAdvance fd = (fd.fdsPos,fd.advanced) := by
  unfold writecAdvance FileDesc.advanced
  dsimp only
  split
  · rw [BitVec.add_sub_cancel]
  · rw [BitVec.add_sub_cancel]

-- `t` is reached from `s` through one open descriptor: the volume is only
-- extended, no other file and no recorded size has changed, and the owner of the
-- descriptor sees `content`.
structure Writing (s t : Machine) (role role' : Nat → Role) (free free' : List Nat) (fd : FileDesc)
    (content : Nat → Byte) : Prop extends Extends s t role role' free free' where
  origin : role fd.file = .inode
  sizes : ∀ j, role j = .inode → t.entryAt j 1 = s.entryAt j 1
  files : ∀ j f, role j = .inode → j ≠ fd.file → t.fblock j f = s.fblock j f
  coherent : Coherent t fd
  content : ∀ q, t.viewAt fd q = content q

theorem Writing.here (writing : Writing s t role role' free free' fd content) : role' fd.file = .inode :=
  writing.toExtends.node writing.origin

-- What the size and the cursor do, whatever happens to the buffer.
structure Advanced (fd fd' : FileDesc) : Prop where
  inumber : fd'.fdsInumber = fd.fdsInumber
  position : fd'.fdsPos = fd.fdsPos+1
  size : fd'.fdsSize = if fd.fdsSize < fd.fdsPos then fd.fdsPos else fd.fdsSize

theorem Advanced.file (moved : Advanced fd fd') : fd'.file = fd.file := congrArg BitVec.toNat moved.inumber

theorem view_put (s : Machine) (fd : FileDesc) (c : Byte) (q : Nat) :
    s.viewAt {fd with fdsBuf := put fd.fdsBuf (iblocOfPos fd.fdsPos) c} q =
      Function.update (s.viewAt fd) fd.fdsPos.toNat c q := by
  have small : fd.fdsPos.toNat%512 < 512 := Nat.mod_lt _ (by decide)
  by_cases here : q = fd.fdsPos.toNat
  · subst here
    rw [Function.update_self]
    refine (if_pos rfl).trans ?_
    rw [iblocOfPos,cell_put _ _ small,if_pos rfl]
  rw [Function.update_of_ne here]
  by_cases same : q/512 = fd.block
  · refine (if_pos same).trans ?_
    rw [iblocOfPos,cell_put _ _ small,if_neg]
    · exact (if_pos same).symm
    · intro offset
      unfold FileDesc.block at same
      omega
  · exact (if_neg same).trans (if_neg same).symm

-- Within a bloc nothing is written yet.
theorem runs_writecStore_inside {Q : Word × FileDesc → Machine → Prop} {E : Stop → Machine → Prop}
    (inside : fd.fdsPos.toNat%512 ≠ 511) : Runs (writecStore fd) s Q E ↔ Q (fd.fdsPos,fd.advanced) s := by
  have other : ¬ iblocOfPos fd.fdsPos = 512-1 := inside
  unfold writecStore
  rw [if_neg other,writecAdvance_eq]
  exact Iff.rfl

-- The last byte of a bloc: the buffer goes out and the next bloc comes in.
theorem runs_writecStore_full (layout : Layout s role free) (node : role fd.file = .inode)
    (last : fd.fdsPos.toNat%512 = 511) (mapped : s.lookup fd.file fd.block ≠ 0) (reach : Supported fd.block)
    (reach' : Supported ((fd.fdsPos+1).toNat/512)) :
    Returns (writecStore fd) s fun r t => ∃ u, Quiet s u ∧ Quiet (u.filled fd.file fd.block fd.fdsBuf) t ∧
      r = (fd.fdsPos,FileDesc.advanced {fd with
        fdsBuf := t.fblock fd.file ((fd.fdsPos+1).toNat/512)
        fdsDirty := false}) := by
  have whole : iblocOfPos fd.fdsPos = 512-1 := last
  have here := blocOfPos_toNat fd.fdsPos
  have served : Supported (blocOfPos fd.fdsPos).toNat := by rw [here]; exact reach
  unfold writecStore
  rw [if_pos whole]
  simp only [Returns,runs_bind,runs_current]
  refine (runs_vbloc_read layout node served (Or.inl rfl)).mono ?_ (fun _ _ => id)
  intro v u post
  obtain ⟨rfl,quiet⟩ := post
  rw [here,← quiet.lookup]
  have mapped' : u.lookup fd.file fd.block ≠ 0 := by rw [quiet.lookup]; exact mapped
  refine (runs_filled (layout.quiet quiet) node mapped' fd.fdsBuf).mpr ?_
  have stored := (filled_extends (layout.quiet quiet) node mapped' fd.fdsBuf).layout
  have fetch := runs_fetch fd.fdsInumber stored node (fd.fdsPos+1) reach'
  simp only [Returns,runs_bind] at fetch
  refine fetch.mono ?_ (fun _ _ => id)
  intro v t loaded
  refine loaded.mono ?_ (fun _ _ => id)
  intro buf t post
  obtain ⟨rfl,quiet'⟩ := post
  rw [runs_pure,writecAdvance_eq]
  refine ⟨u,quiet,quiet',?_⟩
  rw [← quiet'.fblock]
  rfl

theorem Writing.grow (writing : Writing s t role role' free free' fd content)
    (grew : Grew t u role' role'' free' free'') : Writing s u role role'' free free'' fd content := by
  have layout := writing.layout
  have fblock : ∀ j f, role' j = .inode → u.fblock j f = t.fblock j f := fun j f node => grew.fblock layout node f
  refine ⟨writing.toExtends.trans grew.toExtends,writing.origin,?_,?_,⟨?_,?_⟩,?_⟩
  · exact fun j node => (grew.sizes j (writing.node node)).trans (writing.sizes j node)
  · exact fun j f node other => (fblock j f (writing.node node)).trans (writing.files j f node other)
  · exact fun clean => (writing.coherent.clean clean).trans (fblock _ _ writing.here).symm
  · intro dirty
    have mapped := writing.coherent.dirty dirty
    rw [grew.kept _ _ writing.here mapped]
    exact mapped
  · intro q
    rw [← writing.content q]
    unfold Machine.viewAt Machine.byteAt
    rw [fblock _ _ writing.here]

theorem Writing.quiet (writing : Writing s t role role' free free' fd content) (quiet : Quiet t u) :
    Writing s u role role' free free' fd content := writing.grow (quiet.grew writing.layout)

theorem Writing.since (writing : Writing t u role role' free free' fd content) (layout : Layout s role free) (quiet : Quiet s t) :
    Writing s u role role' free free' fd content := by
  refine ⟨(quiet.grew layout).toExtends.trans writing.toExtends,writing.origin,fun j node => ?_,fun j f node other => ?_,
    writing.coherent,writing.content⟩
  · exact (writing.sizes j node).trans ((quiet.grew layout).sizes j node)
  · exact (writing.files j f node other).trans (quiet.fblock j f)

-- Opening, and moving a descriptor that owes nothing.
theorem Writing.opened (layout : Layout s role free) (quiet : Quiet s t) (node : role fd.file = .inode)
    (clean : fd.fdsDirty = false) (loaded : fd.fdsBuf = s.fblock fd.file fd.block) :
    Writing s t role role free free fd (s.byteAt fd.file) := by
  have buffer : fd.fdsBuf = t.fblock fd.file fd.block := by rw [quiet.fblock]; exact loaded
  refine ⟨(quiet.grew layout).toExtends,node,fun j _ => (quiet.grew layout).sizes j (by assumption),
    fun j f _ _ => quiet.fblock j f,⟨fun _ => buffer,fun dirty => ?_⟩,fun q => ?_⟩
  · rw [clean] at dirty; cases dirty
  · rw [quiet.view]
    exact clean_view loaded q

theorem Writing.open (layout : Layout s role free) (inumber : Word) (node : role inumber.toNat = .inode) :
    Returns (openIfile inumber) s fun r t => Writing s t role role free free r.2 (s.byteAt inumber.toNat) ∧ Quiet s t ∧
      r.1 = 0 ∧ r.2.fdsInumber = inumber ∧ r.2.fdsSize = s.entryAt inumber.toNat 1 ∧ r.2.fdsPos = 0 ∧
      r.2.fdsDirty = false := by
  refine (runs_openIfile layout node).mono ?_ (fun _ _ => id)
  intro r t post
  obtain ⟨quiet,rfl⟩ := post
  have start : (0 : Word).toNat/512 = 0 := by decide
  refine ⟨Writing.opened layout quiet node rfl ?_,quiet,rfl,rfl,rfl,rfl,rfl⟩
  unfold FileDesc.block FileDesc.file
  dsimp only
  rw [start]

theorem Writing.moved (writing : Writing s t role role' free free' fd content) (clean : fd.fdsDirty = false)
    (quiet : Quiet t u) (file : fd'.fdsInumber = fd.fdsInumber) (clean' : fd'.fdsDirty = false)
    (loaded : fd'.fdsBuf = t.fblock fd'.file fd'.block) : Writing s u role role' free free' fd' content := by
  have same : fd'.file = fd.file := congrArg BitVec.toNat file
  have after := writing.quiet quiet
  have buffer : fd'.fdsBuf = u.fblock fd'.file fd'.block := by rw [quiet.fblock]; exact loaded
  refine ⟨after.toExtends,by rw [same]; exact writing.origin,after.sizes,?_,⟨fun _ => buffer,fun dirty => ?_⟩,?_⟩
  · rw [same]; exact after.files
  · rw [clean'] at dirty; cases dirty
  · intro q
    rw [clean_view buffer,same,← clean_view (after.coherent.clean clean)]
    exact after.content q

-- The byte is put into the buffer of a bloc that is known to be mapped.
theorem Writing.put (writing : Writing s t role role' free free' fd content) (c : Byte)
    (mapped : t.lookup fd.file fd.block ≠ 0) :
    Writing s t role role' free free' {fd with
      fdsBuf := put fd.fdsBuf (iblocOfPos fd.fdsPos) c
      fdsDirty := true} (Function.update content fd.fdsPos.toNat c) := by
  refine ⟨writing.toExtends,writing.origin,writing.sizes,writing.files,⟨fun clean => absurd clean (by simp),fun _ => mapped⟩,?_⟩
  intro q
  have view := view_put t fd c q
  have same : t.viewAt fd = content := funext writing.content
  rw [same] at view
  exact view

theorem Writing.store (writing : Writing s t role role' free free' fd content) (dirty : fd.fdsDirty = true)
    (reach : Supported fd.block) (reach' : Supported ((fd.fdsPos+1).toNat/512)) :
    Returns (writecStore fd) t fun r u => Writing s u role role' free free' r.2 content ∧ Sound t u ∧
      r.1 = fd.fdsPos ∧ Advanced fd r.2 ∧ (r.2.fdsDirty = true ↔ fd.fdsPos.toNat%512 ≠ 511) ∧
      (∀ f, t.lookup fd.file f ≠ 0 → u.lookup fd.file f = t.lookup fd.file f) ∧ (fd.fdsPos.toNat%512 ≠ 511 → u = t) := by
  have layout := writing.layout
  have node := writing.here
  have mapped := writing.coherent.dirty dirty
  have next := next_pos fd.fdsPos (by unfold Supported FileDesc.block at reach; omega)
  by_cases last : fd.fdsPos.toNat%512 = 511
  swap
  · rw [Returns,runs_writecStore_inside last]
    have block : fd.advanced.block = fd.block := by
      unfold FileDesc.block FileDesc.advanced
      dsimp only
      rw [next]
      omega
    refine ⟨⟨writing.toExtends,writing.origin,writing.sizes,writing.files,⟨?_,fun _ => ?_⟩,?_⟩,(Quiet.refl t).sound,rfl,
      ⟨rfl,rfl,rfl⟩,⟨fun _ => last,fun _ => dirty⟩,fun _ _ => rfl,fun _ => rfl⟩
    · intro clean
      rw [show fd.advanced.fdsDirty = fd.fdsDirty from rfl,dirty] at clean
      cases clean
    · rw [block]; exact mapped
    · intro q
      rw [← writing.content q]
      unfold Machine.viewAt
      rw [block]
      rfl
  · refine (runs_writecStore_full layout node last mapped reach reach').mono ?_ (fun _ _ => id)
    intro r u post
    obtain ⟨v,quiet,quiet',rfl⟩ := post
    have mapped' : v.lookup fd.file fd.block ≠ 0 := by rw [quiet.lookup]; exact mapped
    have before := layout.quiet quiet
    have extends' := filled_extends before node mapped' fd.fdsBuf
    have sound := (quiet.sound.trans (filled_sound before node mapped' fd.fdsBuf)).trans quiet'.sound
    have fblock : ∀ j f, role' j = .inode → u.fblock j f =
        if j = fd.file ∧ f = fd.block then fd.fdsBuf else t.fblock j f := by
      intro j f other
      rw [quiet'.fblock,filled_fblock before node mapped' _ other,quiet.fblock]
    have onward := (quiet.grew layout).toExtends.trans (extends'.trans (quiet'.grew extends'.layout).toExtends)
    refine ⟨⟨writing.toExtends.trans onward,writing.origin,?_,?_,⟨fun _ => rfl,?_⟩,?_⟩,sound,rfl,⟨rfl,rfl,rfl⟩,?_,
      fun f live => onward.kept _ f node live,fun other => absurd last other⟩
    · intro j other
      rw [(quiet'.grew extends'.layout).sizes j (writing.node other),
        filled_size before node mapped' _ (writing.node other),(quiet.grew layout).sizes j (writing.node other)]
      exact writing.sizes j other
    · intro j f other away
      rw [fblock j f (writing.node other),if_neg (fun both => away both.1)]
      exact writing.files j f other away
    · intro dirty'
      cases dirty'
    · intro q
      refine (clean_view rfl q).trans ?_
      rw [← writing.content q]
      unfold Machine.byteAt Machine.viewAt
      refine (congrArg (cell · (q%512)) (fblock _ _ node)).trans ?_
      by_cases same : q/512 = fd.block
      · rw [if_pos same,if_pos ⟨rfl,same⟩]
      · rw [if_neg same,if_neg (fun both => same both.2)]
        rfl
    · exact ⟨fun wrong => absurd wrong (by simp [FileDesc.advanced]),fun other => absurd last other⟩

theorem runs_writec_dirty {Q : Word × FileDesc → Machine → Prop} {E : Stop → Machine → Prop}
    (dirty : fd.fdsDirty = true) : Runs (writecIfile fd c) s Q E ↔
      Runs (writecStore {fd with
        fdsBuf := Words.put fd.fdsBuf (iblocOfPos fd.fdsPos) c
        fdsDirty := true}) s Q E := by
  obtain ⟨inumber,size,pos,buf,flag⟩ := fd
  subst dirty
  rfl

theorem runs_writec_clean {Q : Word × FileDesc → Machine → Prop} {E : Stop → Machine → Prop}
    (clean : fd.fdsDirty = false) : Runs (writecIfile fd c) s Q E ↔
      Runs (vblocOfFbloc fd.fdsInumber (blocOfPos fd.fdsPos) true) s
        (fun ibloc t => if ibloc = 0
          then Q (returnFailure,{fd with fdsBuf := Words.put fd.fdsBuf (iblocOfPos fd.fdsPos) c}) t
          else Runs (writecStore {fd with
            fdsBuf := Words.put fd.fdsBuf (iblocOfPos fd.fdsPos) c
            fdsDirty := true}) t Q E) E := by
  simp only [writecIfile,clean,if_true,runs_bind,runs_ite,runs_pure]

-- Blocs that a byte at the cursor may have to take from the chain.
def FileDesc.price (s : Machine) (fd : FileDesc) : Nat := if fd.fdsDirty then 0 else needed s fd.file fd.block

theorem runs_writec_allocate (fd : FileDesc) (layout : Layout s role free) (node : role fd.file = .inode) (reach : Supported fd.block) :
    Returns (vblocOfFbloc fd.fdsInumber (blocOfPos fd.fdsPos) true) s fun v t =>
      Allocates s t role free fd.file fd.block v := by
  have here := blocOfPos_toNat fd.fdsPos
  have allocate := runs_vbloc_allocate layout node (by rw [here]; exact reach)
  rw [here] at allocate
  exact allocate

-- A byte written with enough blocs at hand.
theorem Writing.writec (writing : Writing s t role role' free free' fd content) (c : Byte)
    (reach : Supported fd.block) (reach' : Supported ((fd.fdsPos+1).toNat/512))
    (enough : fd.price t ≤ free'.length) :
    Returns (writecIfile fd c) t fun r u => ∃ role'' free'',
      Writing s u role role'' free free'' r.2 (Function.update content fd.fdsPos.toNat c) ∧ Sound t u ∧
      r.1 = fd.fdsPos ∧ Advanced fd r.2 ∧ (r.2.fdsDirty = true ↔ fd.fdsPos.toNat%512 ≠ 511) ∧
      free'.length = free''.length+fd.price t ∧ (∀ f, t.lookup fd.file f ≠ 0 → u.lookup fd.file f ≠ 0) ∧
      u.lookup fd.file fd.block ≠ 0 ∧
      (fd.fdsPos.toNat%512 ≠ 511 → ∀ f, u.fblock fd.file f = t.fblock fd.file f) := by
  cases flag : fd.fdsDirty with
  | true =>
      rw [Returns,runs_writec_dirty flag]
      refine ((writing.put c (writing.coherent.dirty flag)).store rfl reach reach').mono ?_ (fun _ _ => id)
      intro r u post
      obtain ⟨after,sound,status,moved,dirty,kept,same⟩ := post
      have stays : ∀ f, t.lookup fd.file f ≠ 0 → u.lookup fd.file f ≠ 0 := fun f live => (kept f live).trans_ne live
      exact ⟨role',free',after,sound,status,⟨moved.1,moved.2,moved.3⟩,dirty,by simp [FileDesc.price,flag],stays,
        stays _ (writing.coherent.dirty flag),fun inside f => by rw [same inside]⟩
  | false =>
      have price : fd.price t = needed t fd.file fd.block := by simp [FileDesc.price,flag]
      rw [price] at enough
      rw [Returns,runs_writec_clean flag]
      refine (runs_writec_allocate fd writing.layout writing.here reach).mono ?_ (fun _ _ => id)
      intro v u post
      obtain ⟨role'',free'',grew,value,ended⟩ := post
      cases ended with
      | short _ _ lack => omega
      | mapped live sound count =>
          rw [if_neg live]
          have mapped : u.lookup fd.file fd.block ≠ 0 := by rw [← value]; exact live
          refine (((writing.grow grew).put c mapped).store rfl reach reach').mono ?_ (fun _ _ => id)
          intro r w post
          obtain ⟨after,sound',status,moved,dirty,kept,same⟩ := post
          have stays : ∀ f, u.lookup fd.file f ≠ 0 → w.lookup fd.file f ≠ 0 := fun f live => (kept f live).trans_ne live
          refine ⟨role'',free'',after,sound.trans sound',status,⟨moved.1,moved.2,moved.3⟩,dirty,by rw [price]; exact count,
            fun f live => stays f ?_,stays _ mapped,fun inside f => by rw [same inside]; exact grew.fblock writing.layout writing.here f⟩
          rw [grew.kept _ f writing.here live]
          exact live

-- A byte for which the chain is too short: nothing but the buffer shows it.
theorem runs_writec_short (layout : Layout s role free) (node : role fd.file = .inode) (c : Byte)
    (reach : Supported fd.block) (clean : fd.fdsDirty = false) (short : free.length < needed s fd.file fd.block) :
    Returns (writecIfile fd c) s fun r t => ∃ role' free', Grew s t role role' free free' ∧ free' = [] ∧
      t.blk 0 = zeros 8 512 ∧ t.lookup fd.file fd.block = 0 ∧
      r = (returnFailure,{fd with fdsBuf := Words.put fd.fdsBuf (iblocOfPos fd.fdsPos) c}) := by
  rw [Returns,runs_writec_clean clean]
  refine (runs_writec_allocate fd layout node reach).mono ?_ (fun _ _ => id)
  intro v t post
  obtain ⟨role',free',grew,value,ended⟩ := post
  cases ended with
  | mapped _ _ count => omega
  | short none full _ lost =>
      rw [if_pos none]
      exact ⟨role',free',grew,full,lost,value.symm.trans none,rfl⟩

theorem Writing.seek {offset : Word} (writing : Writing s t role role' free free' fd content) (clean : fd.fdsDirty = false)
    (reach : Supported ((fd.fdsPos+offset).toNat/512)) :
    Returns (seekIfile fd offset) t fun fd' u => Writing s u role role' free free' fd' content ∧ Quiet t u ∧
      fd'.fdsInumber = fd.fdsInumber ∧ fd'.fdsSize = fd.fdsSize ∧ fd'.fdsPos = fd.fdsPos+offset ∧ fd'.fdsDirty = false := by
  refine (runs_seek_clean writing.layout writing.here clean writing.coherent reach).mono ?_ (fun _ _ => id)
  intro fd' u post
  obtain ⟨quiet,rfl⟩ := post
  exact ⟨writing.moved clean quiet rfl clean rfl,quiet,rfl,rfl,rfl,clean⟩

theorem Writing.readc (writing : Writing s t role role' free free' fd content) (clean : fd.fdsDirty = false)
    (before : fd.fdsPos.toNat ≤ fd.fdsSize.toNat) (reach : Supported ((fd.fdsPos+1).toNat/512)) :
    Returns (readcIfile fd) t fun r u => Writing s u role role' free free' r.2 content ∧ Quiet t u ∧
      r.1 = (content fd.fdsPos.toNat).signExtend 32 ∧ r.2.fdsInumber = fd.fdsInumber ∧ r.2.fdsSize = fd.fdsSize ∧
      r.2.fdsPos = fd.fdsPos+1 ∧ r.2.fdsDirty = false := by
  have view := (clean_view (writing.coherent.clean clean) fd.fdsPos.toNat).symm.trans (writing.content _)
  refine (runs_readc writing.layout writing.here clean writing.coherent before reach).mono ?_ (fun _ _ => id)
  intro r u post
  obtain ⟨quiet,rfl⟩ := post
  exact ⟨writing.moved clean quiet rfl clean rfl,quiet,by rw [← view],rfl,rfl,rfl,clean⟩

-- What is left when the descriptor is closed.
structure Closed (s t : Machine) (role role' : Nat → Role) (free free' : List Nat) (i : Nat) (content : Nat → Byte)
    (size : Word) : Prop extends Extends s t role role' free free' where
  sizes : ∀ j, role j = .inode → t.entryAt j 1 = if j = i then size else s.entryAt j 1
  files : ∀ j f, role j = .inode → j ≠ i → t.fblock j f = s.fblock j f
  content : ∀ q, t.byteAt i q = content q

theorem Writing.flush (writing : Writing s t role role' free free' fd content) (reach : Supported fd.block) :
    Returns (flushIfile fd) t fun fd' u => Writing s u role role' free free' fd' content ∧ Sound t u ∧
      (∀ f, u.lookup fd.file f = t.lookup fd.file f) ∧ fd' = {fd with fdsDirty := false} := by
  cases flag : fd.fdsDirty with
  | false =>
      rw [Returns,runs_flush_clean flag]
      have same : {fd with fdsDirty := false} = fd := by cases fd; simp_all
      exact ⟨writing,(Quiet.refl t).sound,fun _ => rfl,same.symm⟩
  | true =>
      have layout := writing.layout
      have node := writing.here
      have mapped := writing.coherent.dirty flag
      refine (runs_flush_dirty layout node flag mapped reach).mono ?_ (fun _ _ => id)
      intro fd' u post
      obtain ⟨rfl,v,quiet,rfl⟩ := post
      have mapped' : v.lookup fd.file fd.block ≠ 0 := by rw [quiet.lookup]; exact mapped
      have before := layout.quiet quiet
      have fblock : ∀ j f, role' j = .inode → (v.filled fd.file fd.block fd.fdsBuf).fblock j f =
          if j = fd.file ∧ f = fd.block then fd.fdsBuf else t.fblock j f := by
        intro j f other
        rw [filled_fblock before node mapped' _ other,quiet.fblock]
      have loaded : fd.fdsBuf = (v.filled fd.file fd.block fd.fdsBuf).fblock fd.file fd.block := by
        rw [fblock _ _ node,if_pos ⟨rfl,rfl⟩]
      refine ⟨⟨?_,writing.origin,?_,?_,⟨fun _ => loaded,fun wrong => absurd wrong (by simp)⟩,?_⟩,
        quiet.sound.trans (filled_sound before node mapped' _),
        fun f => (filled_lookup before node mapped' _ node f).trans (quiet.lookup _ f),rfl⟩
      · exact writing.toExtends.trans ((quiet.grew layout).toExtends.trans (filled_extends before node mapped' _))
      · intro j other
        rw [filled_size before node mapped' _ (writing.node other),(quiet.grew layout).sizes j (writing.node other)]
        exact writing.sizes j other
      · intro j f other away
        rw [fblock j f (writing.node other),if_neg (fun both => away both.1)]
        exact writing.files j f other away
      · intro q
        refine (clean_view loaded q).trans ?_
        rw [← writing.content q]
        unfold Machine.byteAt Machine.viewAt
        refine (congrArg (cell · (q%512)) (fblock _ _ node)).trans ?_
        by_cases same : q/512 = fd.block
        · rw [if_pos same,if_pos ⟨rfl,same⟩]
        · rw [if_neg same,if_neg (fun both => same both.2)]
          rfl

theorem Writing.recorded (writing : Writing s t role role' free free' fd content) (clean : fd.fdsDirty = false) :
    Closed s ((t.load fd.file).resized fd.fdsInumber fd.fdsSize) role role' free free' fd.file content fd.fdsSize ∧
    Sound t ((t.load fd.file).resized fd.fdsInumber fd.fdsSize) := by
  have node := writing.here
  have layout := writing.layout
  have quiet := Quiet.load t fd.file
  have loaded := layout.quiet quiet
  refine ⟨⟨?_,?_,?_,?_⟩,quiet.sound.trans (resized_sound loaded node fd.fdsSize)⟩
  · exact writing.toExtends.trans ((quiet.grew layout).toExtends.trans (resized_extends loaded node fd.fdsSize))
  · intro j other
    rw [resized_entry _ _ _ _ (by decide)]
    by_cases same : j = fd.file
    · rw [if_pos same,if_pos ⟨same,rfl⟩]
    · rw [if_neg same,if_neg (fun both => same both.1),← writing.sizes j other]
      rfl
  · intro j f other away
    rw [resized_fblock loaded node fd.fdsSize (writing.node other),quiet.fblock]
    exact writing.files j f other away
  · intro q
    rw [← writing.content q,clean_view (writing.coherent.clean clean)]
    unfold Machine.byteAt
    rw [resized_fblock loaded node fd.fdsSize node,quiet.fblock]

theorem Writing.close (writing : Writing s t role role' free free' fd content) (reach : Supported fd.block) :
    Returns (closeIfile fd) t fun _ u => Closed s u role role' free free' fd.file content fd.fdsSize ∧ Sound t u ∧
      ∀ f, u.lookup fd.file f = t.lookup fd.file f := by
  unfold closeIfile
  rw [Returns,runs_bind]
  refine (writing.flush reach).mono ?_ (fun _ _ => id)
  intro fd' u post
  obtain ⟨after,sound,same,rfl⟩ := post
  have clean : FileDesc.fdsDirty {fd with fdsDirty := false} = false := rfl
  have inside := (after.layout.bound after.here (by simp)).2
  obtain ⟨closed,sound'⟩ := after.recorded clean
  have step := runs_close_clean (Q := fun _ w => Closed s w role role' free free' fd.file content fd.fdsSize ∧ Sound t w ∧
    ∀ f, w.lookup fd.file f = t.lookup fd.file f) (E := fun _ _ => False) after.layout.mounted inside clean
  unfold closeIfile at step
  rw [runs_bind,runs_flush_clean clean] at step
  have quiet := Quiet.load u fd.file
  refine step.mpr ⟨closed,sound.trans sound',fun f => ?_⟩
  rw [← same f]
  exact (resized_lookup (after.layout.quiet quiet) after.here fd.fdsSize after.here f).trans (quiet.lookup _ f)

end AsePlusPlus
