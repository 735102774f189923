import AsePlusPlus.Namespace
import AsePlusPlus.Handles

namespace AsePlusPlus
open Words Program

variable {role role' role'' : Nat → Role} {free free' free'' : List Nat} {s t u : Machine} {fd fd' : FileDesc} {d k m : Nat} {e : Entry}
variable {extent extent' extent'' : Nat → Nat} {inumber : Word} {path : List Byte}

-- The first `m` slots of a directory, as they have been written, whatever size
-- is recorded at the moment.
structure Paged (s : Machine) (role : Nat → Role) (d m : Nat) : Prop where
  slotted : Slotted (s.byteAt d) m
  mapped : ∀ q, q < 20*m → s.lookup d (q/512) ≠ 0
  nodes : ∀ k, k < m → (s.slotAt d k).entInumber ≠ 0 → role (s.slotAt d k).entInumber.toNat = .inode

-- A directory has been as large as its extent and may be recorded smaller: its
-- size is what was closed last.
structure Pages (s : Machine) (role : Nat → Role) (extent : Nat → Nat) : Prop where
  root : role s.super.rootInumber.toNat = .inode
  none : ∀ d, role d ≠ .inode → extent d = 0
  size : ∀ d, role d = .inode → s.IsDir d → (s.entryAt d 1).toNat = 20*s.slots d-1
  slots : ∀ d, role d = .inode → s.IsDir d → s.slots d ≤ extent d
  paged : ∀ d, role d = .inode → s.IsDir d → Paged s role d (extent d)

-- The invariant of the volume.
structure Shelved (s : Machine) (role : Nat → Role) (free : List Nat) (extent : Nat → Nat) : Prop extends Pages s role extent where
  layout : Layout s role free
  synced : Synced s

-- A call comes back to a volume that is shelved again.
structure Reshelved (s t : Machine) (role role' : Nat → Role) (free free' : List Nat) (extent extent' : Nat → Nat) : Prop where
  shelved : Shelved t role' free' extent'
  carries : Carries s t role role' free free'
  sound : Sound s t
  grows : ∀ d, extent d ≤ extent' d

theorem Reshelved.trans (one : Reshelved s t role role' free free' extent extent')
    (two : Reshelved t u role' role'' free' free'' extent' extent'') : Reshelved s u role role'' free free'' extent extent'' :=
  ⟨two.shelved,one.carries.trans two.carries,one.sound.trans two.sound,fun d => Nat.le_trans (one.grows d) (two.grows d)⟩

theorem Entry.decode_cell {b c : Vector Byte 20} (same : Entry.decode b = Entry.decode c) {i : Nat} (small : i < 20) : cell b i = cell c i := by
  obtain ⟨number,name⟩ := Entry.mk.inj same
  by_cases first : i < 4
  · have byte := congrArg (byteOf · i) number
    unfold wordAt at byte
    rw [byteOf_joined _ first,byteOf_joined _ first] at byte
    simpa using byte
  · have byte := congrArg (cell · (i-4)) name
    rw [cell_build _ (by omega),cell_build _ (by omega),show i-4+4 = i by omega] at byte
    exact byte

-- Slots that read the same hold the same bytes.
theorem slotAt_byte (same : t.slotAt d k = s.slotAt d k) {i : Nat} (small : i < 20) : t.byteAt d (20*k+i) = s.byteAt d (20*k+i) := by
  have byte := Entry.decode_cell same small
  rw [cell_build _ small,cell_build _ small] at byte
  exact byte

theorem Pages.dirOk (pages : Pages s role extent) (node : role d = .inode) (dir : s.IsDir d) : DirOk s d := by
  have slots := pages.slots d node dir
  obtain ⟨⟨few,plain⟩,mapped,_⟩ := pages.paged d node dir
  exact ⟨pages.size d node dir,⟨by omega,fun q low => plain q (by omega)⟩,fun q low => mapped q (by omega)⟩

theorem Pages.browsable (pages : Pages s role extent) : Browsable s role := by
  refine ⟨pages.root,fun d node dir => pages.dirOk node dir,fun d node dir e member live => ?_⟩
  obtain ⟨k,small,same⟩ := mem_entries.mp member
  subst same
  exact (pages.paged d node dir).nodes k (Nat.lt_of_lt_of_le small (pages.slots d node dir)) live

theorem Paged.carried (paged : Paged s role d m) (carries : Carries s t role role' free free') (node : role d = .inode)
    (bytes : t.byteAt d = s.byteAt d) : Paged t role' d m := by
  have slot : ∀ k, t.slotAt d k = s.slotAt d k := by
    intro k
    unfold Machine.slotAt
    rw [bytes]
  refine ⟨by rw [bytes]; exact paged.slotted,fun q low => ?_,fun k small live => ?_⟩
  · have live := paged.mapped q low
    rw [carries.kept d _ node live]
    exact live
  · rw [slot] at live ⊢
    exact carries.node (paged.nodes k small live)

theorem Paged.empty (s : Machine) (role : Nat → Role) (d : Nat) : Paged s role d 0 :=
  ⟨⟨Nat.zero_le _,fun q low => absurd low (Nat.not_lt_zero q)⟩,fun q low => absurd low (Nat.not_lt_zero q),
    fun k low => absurd low (Nat.not_lt_zero k)⟩

theorem Pages.spares (pages : Pages s role extent) (spares : Spares s t role role' free free') : Pages t role' extent := by
  refine ⟨by rw [spares.root]; exact spares.node pages.root,?_,?_,?_,?_⟩
  · intro d other
    exact pages.none d fun node => other (spares.node node)
  · intro d node dir
    by_cases old : role d = .inode
    · have dir' := (spares.isDir old).mp dir
      rw [spares.slots old dir',(spares.same d old dir').1]
      exact pages.size d old dir'
    · rw [spares.blank_slots node old dir,spares.blank d node old dir]
      rfl
  · intro d node dir
    by_cases old : role d = .inode
    · have dir' := (spares.isDir old).mp dir
      rw [spares.slots old dir']
      exact pages.slots d old dir'
    · rw [spares.blank_slots node old dir]
      exact Nat.zero_le _
  · intro d node dir
    by_cases old : role d = .inode
    · have dir' := (spares.isDir old).mp dir
      exact (pages.paged d old dir').carried spares.toCarries old (spares.same d old dir').2
    · rw [pages.none d old]
      exact .empty t role' d

theorem Shelved.spares (shelved : Shelved s role free extent) (spares : Spares s t role role' free free') (sound : Sound s t) :
    Reshelved s t role role' free free' extent extent :=
  ⟨⟨shelved.toPages.spares spares,spares.layout,sound.synced shelved.synced⟩,spares.toCarries,sound,fun _ => Nat.le_refl _⟩

theorem Shelved.still (shelved : Shelved s role free extent) (still : Still s t) : Reshelved s t role role free free extent extent :=
  shelved.spares (still.spares shelved.layout) still.sound

-- One slot is written, behind the extent or within it.
theorem Pages.edited (pages : Pages s role extent) (edited : Edited s t role role' free free' d k e) (node : role d = .inode)
    (dir : s.IsDir d) (leads : e.entInumber ≠ 0 → role' e.entInumber.toNat = .inode) :
    Pages t role' (Function.update extent d (max (extent d) (k+1))) := by
  have slots := pages.slots d node dir
  have old := pages.paged d node dir
  have few := edited.ok.slotted.few
  have after := edited.slots
  have place := edited.low
  refine ⟨by rw [edited.root]; exact edited.node pages.root,?_,?_,?_,?_⟩
  · intro j other
    have away : j ≠ d := by
      intro here
      subst here
      exact other (edited.node node)
    rw [Function.update_of_ne away]
    exact pages.none j fun node => other (edited.node node)
  · intro j node' dir'
    have was := edited.nodes j node'
    by_cases here : j = d
    · subst here
      exact edited.ok.size
    · rw [edited.other_slots was here,(edited.others j was here).1]
      exact pages.size j was ((edited.isDir was).mp dir')
  · intro j node' dir'
    have was := edited.nodes j node'
    by_cases here : j = d
    · subst here
      rw [Function.update_self]
      omega
    · rw [edited.other_slots was here,Function.update_of_ne here]
      exact pages.slots j was ((edited.isDir was).mp dir')
  · intro j node' dir'
    have was := edited.nodes j node'
    by_cases here : j = d
    swap
    · rw [Function.update_of_ne here]
      exact (pages.paged j was ((edited.isDir was).mp dir')).carried edited.toCarries was (edited.others j was here).2
    subst here
    rw [Function.update_self]
    have most := old.slotted.few
    refine ⟨⟨by omega,fun q low => ?_⟩,fun q low => ?_,fun i small live => ?_⟩
    · by_cases same : q/20 = k
      · exact edited.ok.slotted.plain q (by omega)
      · have byte := slotAt_byte (edited.rest (q/20) same) (show q%20 < 20 by omega)
        rw [show 20*(q/20)+q%20 = q by omega] at byte
        rw [byte]
        exact old.slotted.plain q (by omega)
    · by_cases same : q/20 = k
      · exact edited.ok.mapped q (by omega)
      · have mapped := old.mapped q (by omega)
        rw [edited.kept j _ node mapped]
        exact mapped
    · by_cases same : i = k
      · subst same
        rw [edited.written] at live ⊢
        exact leads live
      · rw [edited.rest i same] at live ⊢
        exact edited.node (old.nodes i (by omega) live)

theorem extent_grows (extent : Nat → Nat) (d k j : Nat) : extent j ≤ Function.update extent d (max (extent d) (k+1)) j := by
  by_cases here : j = d
  · subst here
    rw [Function.update_self]
    exact Nat.le_max_left _ _
  · rw [Function.update_of_ne here]

-- A directory is closed with the size that it had when it was opened.
theorem Shelved.resized (shelved : Shelved s role free extent) (inumber size : Word) (node : role inumber.toNat = .inode)
    (recorded : s.IsDir inumber.toNat → ∃ m, m ≤ extent inumber.toNat ∧ size.toNat = 20*m-1) :
    Reshelved s (s.resized inumber size) role role free free extent extent := by
  have layout := shelved.layout
  have extends' := resized_extends layout node size
  have sound := resized_sound layout node size
  have type : ∀ j, (s.resized inumber size).IsDir j → s.IsDir j := by
    intro j dir
    unfold Machine.IsDir at dir ⊢
    rwa [resized_entry _ _ _ _ (by decide),if_neg fun both => absurd both.2 (by decide)] at dir
  have entry : ∀ j, (s.resized inumber size).entryAt j 1 = if j = inumber.toNat then size else s.entryAt j 1 := by
    intro j
    rw [resized_entry _ _ _ _ (by decide)]
    simp only [and_true]
  have slots : ∀ j, j ≠ inumber.toNat → (s.resized inumber size).slots j = s.slots j := by
    intro j away
    unfold Machine.slots
    rw [entry,if_neg away]
  have here : ∀ m, size.toNat = 20*m-1 → (s.resized inumber size).slots inumber.toNat = m := by
    intro m equal
    unfold Machine.slots
    rw [entry,if_pos rfl,equal]
    omega
  refine ⟨⟨⟨shelved.root,shelved.none,?_,?_,?_⟩,extends'.layout,sound.synced shelved.synced⟩,extends'.toCarries,sound,
    fun d => Nat.le_refl _⟩
  · intro j node' dir
    by_cases same : j = inumber.toNat
    · subst same
      obtain ⟨m,_,equal⟩ := recorded (type _ dir)
      rw [here m equal,entry,if_pos rfl]
      exact equal
    · rw [slots j same,entry,if_neg same]
      exact shelved.size j node' (type j dir)
  · intro j node' dir
    by_cases same : j = inumber.toNat
    · subst same
      obtain ⟨m,within,equal⟩ := recorded (type _ dir)
      rw [here m equal]
      exact within
    · rw [slots j same]
      exact shelved.slots j node' (type j dir)
  · intro j node' dir
    refine (shelved.paged j node' (type j dir)).carried extends'.toCarries node' (funext fun q => ?_)
    unfold Machine.byteAt
    rw [resized_fblock layout node size node']

-- A volume whose superbloc is on disk has not run dry of it.
theorem Shelved.undrained (shelved : Shelved s role free extent) : ¬ Drained s free := by
  intro drained
  have magic := shelved.synced.magic shelved.layout.mounted
  unfold Machine.entryAt at magic
  rw [drained.2,wordAt_zeros] at magic
  exact absurd magic (by decide)

theorem Reshelved.backs (again : Reshelved s t role role' free free' extent extent') (shelved : Shelved s role free extent) :
    Backs s t free free' :=
  ⟨fun _ => .inl again.shelved.synced,fun drained => absurd drained shelved.undrained⟩

-- An open descriptor. One of a directory is only read through, and holds a size
-- that the directory has had.
structure Held (s : Machine) (role : Nat → Role) (free : List Nat) (extent : Nat → Nat) (fd : FileDesc) : Prop where
  handle : Handle s role free fd
  entries : s.IsDir fd.file → fd.fdsDirty = false ∧ ∃ m, m ≤ extent fd.file ∧ fd.fdsSize.toNat = 20*m-1

theorem Held.after (held : Held s role free extent fd) (shelved : Shelved s role free extent)
    (again : Reshelved s t role role' free free' extent extent') : Held t role' free' extent' fd := by
  refine ⟨held.handle.after again.carries (again.backs shelved),fun dir => ?_⟩
  obtain ⟨clean,m,within,size⟩ := held.entries ((again.carries.isDir held.handle.node).mp dir)
  exact ⟨clean,m,Nat.le_trans within (again.grows _),size⟩

theorem Held.near (held : Held s role free extent fd) (shelved : Shelved s role free extent) : fd.fdsPos.toNat < 63488 :=
  held.handle.near.resolve_right fun last => shelved.undrained last.2.2

-- The file is not written as a directory.
theorem Shelved.filed (shelved : Shelved s role free extent) {i : Nat} (filed : Filed s t role role' free free' i) (plain : ¬ s.IsDir i)
    (sound : Sound s t) : Reshelved s t role role' free free' extent extent := shelved.spares (filed.spares plain) sound

-- What a call through a descriptor comes to.
structure Rehandled (s t : Machine) (role role' : Nat → Role) (free free' : List Nat) (extent extent' : Nat → Nat) (fd : FileDesc) : Prop
    extends Reshelved s t role role' free free' extent extent' where
  held : Held t role' free' extent' fd

theorem Shelved.open (shelved : Shelved s role free extent) (node : role inumber.toNat = .inode) :
    Returns (openIfile inumber) s fun r t => r.1 = returnSuccess ∧ r.2.fdsInumber = inumber ∧
      Rehandled s t role role free free extent extent r.2 := by
  refine (runs_openIfile shelved.layout node).mono ?_ (fun _ _ => id)
  intro r t loaded
  obtain ⟨quiet,same⟩ := loaded
  subst same
  have again := shelved.still quiet.still
  refine ⟨rfl,rfl,again,⟨node,.inl (show (0 : Word).toNat < 63488 by decide),fun wrong => absurd wrong Bool.false_ne_true⟩,fun dir => ⟨rfl,?_⟩⟩
  have dir' := (again.carries.isDir node).mp dir
  exact ⟨s.slots inumber.toNat,shelved.slots _ node dir',shelved.size _ node dir'⟩

theorem Held.writec (held : Held s role free extent fd) (shelved : Shelved s role free extent) (plain : ¬ s.IsDir fd.file)
    (enough : fd.price s ≤ s.super.nbBlocLibre.toNat) (c : Byte) :
    Runs (writecIfile fd c) s (fun r t => ∃ role' free', Rehandled s t role role' free free' extent extent r.2 ∧
      r.2.fdsInumber = fd.fdsInumber) (fun _ t => Sound s t) := by
  refine (held.handle.writec shelved.layout (.inl shelved.synced) c).mono ?_ (fun _ _ => id)
  intro r t wrote
  obtain ⟨role',free',filed,_,handle,inumber,outcome⟩ := wrote
  rw [shelved.layout.chain.count] at enough
  cases outcome with
  | short _ _ lack => exact absurd enough (Nat.not_le.mpr lack)
  | stored sound _ _ _ _ =>
      have file : r.2.file = fd.file := congrArg BitVec.toNat inumber
      refine ⟨role',free',⟨shelved.filed filed plain sound,handle,fun dir => ?_⟩,inumber⟩
      rw [file,filed.isDir held.handle.node] at dir
      exact absurd dir plain

-- What seek_ifile does at the end of a bloc.
theorem runs_seek_crossing {Q : FileDesc → Machine → Prop} {E : Stop → Machine → Prop} (near : fd.fdsPos.toNat < 63488)
    (last : fd.fdsPos.toNat%512 = 511) : Runs (seekIfile fd 1) s Q E ↔
      Runs (flushIfile {fd with fdsPos := fd.fdsPos+1}) s (fun fd' t =>
        Runs (vblocOfFbloc fd'.fdsInumber (blocOfPos fd'.fdsPos) false >>= loadBuffer) t (fun buf u => Q {fd' with fdsBuf := buf} u) E) E := by
  have crossed : blocOfPos (fd.fdsPos+1) ≠ blocOfPos fd.fdsPos := by
    intro equal
    have blocks := congrArg BitVec.toNat equal
    rw [blocOfPos_toNat,blocOfPos_toNat,next_pos _ (by omega)] at blocks
    omega
  unfold seekIfile
  dsimp only
  rw [if_pos crossed]
  simp only [runs_bind,runs_pure]

-- At the end of the direct branch the next bloc is looked up in bloc 0, and the
-- disk never gets there.
theorem Shelved.fetch_lost (shelved : Shelved s role free extent) (inumber : Word) (node : role inumber.toNat = .inode) {pos : Word}
    (last : pos.toNat = 63488) {Q : Sector → Machine → Prop} :
    Runs (vblocOfFbloc inumber (blocOfPos pos) false >>= loadBuffer) s Q (fun _ t => Sound s t) := by
  have block : (blocOfPos pos).toNat = 124 := by rw [blocOfPos_toNat,last]
  have layout := shelved.layout
  have quiet := (Quiet.load s inumber.toNat).trans (Quiet.load _ 0)
  rw [runs_bind,runs_vbloc_indirect_word layout node (by omega) (by omega) (.inl rfl),block,
    shelved.synced.magic layout.mounted]
  unfold loadBuffer
  rw [if_neg (by decide),runs_bind,runs_current]
  exact (runs_readBloc_magic (quiet.mounted layout.mounted)).mpr quiet.sound

-- A dirty buffer is written to the bloc that the cursor has just come to.
theorem Held.flush_next (held : Held s role free extent fd) (shelved : Shelved s role free extent) (dirty : fd.fdsDirty = true)
    (last : fd.fdsPos.toNat%512 = 511) (room : fd.block < 123)
    (enough : s.lookup fd.file (fd.block+1) ≠ 0 ∨ s.super.nbBlocLibre ≠ 0) :
    Returns (flushIfile {fd with fdsPos := fd.fdsPos+1}) s fun fd' t => ∃ role' free',
      Reshelved s t role role' free free' extent extent ∧ fd' = {fd with
        fdsPos := fd.fdsPos+1
        fdsDirty := false} := by
  have layout := shelved.layout
  have node := held.handle.node
  have near := held.near shelved
  have plain : ¬ s.IsDir fd.file := by
    intro dir
    rw [(held.entries dir).1] at dirty
    cases dirty
  have block : (blocOfPos (fd.fdsPos+1)).toNat = fd.block+1 := by
    rw [blocOfPos_toNat,next_pos _ (by omega)]
    unfold FileDesc.block
    omega
  have allocate : Returns (vblocOfFbloc fd.fdsInumber (blocOfPos (fd.fdsPos+1)) true) s _ :=
    runs_vbloc_allocate layout node (.inl (by omega))
  rw [block] at allocate
  unfold flushIfile
  rw [if_pos dirty]
  simp only [Returns,runs_bind,runs_current,runs_pure]
  refine allocate.mono ?_ (fun _ _ => id)
  intro v t allocated
  obtain ⟨role',free',grew,value,ended⟩ := allocated
  have value : v = t.lookup fd.file (fd.block+1) := value
  have need : needed s fd.file (fd.block+1) ≤ free.length := by
    unfold needed
    rw [if_pos (by omega)]
    split
    · rename_i null
      have some := enough.resolve_left (not_not_intro null)
      cases free with
      | nil => exact absurd (BitVec.eq_of_toNat_eq layout.chain.count) some
      | cons b rest => exact Nat.succ_le_succ (Nat.zero_le _)
    · exact Nat.zero_le _
  cases ended with
  | short _ _ lack _ => exact absurd need (Nat.not_le.mpr lack)
  | mapped live sound _ =>
      have mapped : t.lookup fd.file (fd.block+1) ≠ 0 := by
        rw [← value]
        exact live
      have again := shelved.filed (grew.filed layout fd.file) plain sound
      have node' := grew.node node
      have plain' : ¬ t.IsDir fd.file := by
        rw [grew.isDir node]
        exact plain
      have filled := again.shelved.filed (filled_filed grew.layout node' mapped fd.fdsBuf) plain' (filled_sound grew.layout node' mapped _)
      rw [value]
      exact (runs_filled grew.layout node' mapped _).mpr ⟨role',free',again.trans filled,trivial⟩

-- A byte is read, and the buffer that the cursor leaves is written first.
theorem Held.readc (held : Held s role free extent fd) (shelved : Shelved s role free extent)
    (fits : fd.fdsDirty = true → fd.fdsPos.toNat%512 = 511 → fd.fdsPos.toNat ≤ fd.fdsSize.toNat →
      fd.block < 123 ∧ (s.lookup fd.file (fd.block+1) ≠ 0 ∨ s.super.nbBlocLibre ≠ 0)) :
    Runs (readcIfile fd) s (fun r t => ∃ role' free', Rehandled s t role role' free free' extent extent r.2 ∧
      r.2.fdsInumber = fd.fdsInumber) (fun _ t => Sound s t) := by
  have still := shelved.still (.refl s)
  have near := held.near shelved
  have next := next_pos fd.fdsPos (by omega)
  have node := held.handle.node
  rcases Nat.lt_or_ge fd.fdsSize.toNat fd.fdsPos.toNat with past | before
  · rw [runs_readc_end past]
    exact ⟨role,free,⟨still,held⟩,rfl⟩
  have less : ¬ fd.fdsSize < fd.fdsPos := Nat.not_lt.mpr before
  unfold readcIfile
  rw [if_neg less]
  simp only [runs_bind,runs_pure]
  by_cases last : fd.fdsPos.toNat%512 = 511
  swap
  · have same : (fd.fdsPos+1).toNat/512 = fd.block := by
      unfold FileDesc.block
      omega
    rw [runs_seek_inside same]
    exact ⟨role,free,⟨still,⟨⟨node,.inl (show (fd.fdsPos+1).toNat < 63488 by omega),fun dirty => by
      show s.lookup fd.file ((fd.fdsPos+1).toNat/512) ≠ 0
      rw [same]
      exact held.handle.dirty dirty⟩,held.entries⟩⟩,rfl⟩
  rw [runs_seek_crossing near last]
  -- the descriptor once the buffer has been written
  have flushed : Returns (flushIfile {fd with fdsPos := fd.fdsPos+1}) s fun fd' t => ∃ role' free',
      Reshelved s t role role' free free' extent extent ∧ fd' = {fd with
        fdsPos := fd.fdsPos+1
        fdsDirty := false} := by
    by_cases dirty : fd.fdsDirty = true
    · obtain ⟨room,enough⟩ := fits dirty last before
      exact held.flush_next shelved dirty last room enough
    · have clean : fd.fdsDirty = false := by simpa using dirty
      rw [Returns,runs_flush_clean (show {fd with fdsPos := fd.fdsPos+1}.fdsDirty = false from clean),← clean]
      exact ⟨role,free,still,rfl⟩
  refine Runs.of_returns flushed ?_
  intro fd' t flushed
  obtain ⟨role',free',again,moved⟩ := flushed
  subst moved
  have node' := again.carries.node node
  by_cases edge : fd.fdsPos.toNat = 63487
  · have far : (fd.fdsPos+1).toNat = 63488 := by omega
    refine (again.shelved.fetch_lost fd.fdsInumber node' far).mono (fun _ _ => id) ?_
    exact fun _ u sound => again.sound.trans sound
  refine Runs.of_returns (runs_fetch fd.fdsInumber again.shelved.layout node' (fd.fdsPos+1) (.inl (by omega))) ?_
  intro buf u fetched
  have quiet := fetched.2
  have both := again.trans (again.shelved.still quiet.still)
  refine ⟨role',free',⟨both,⟨both.carries.node node,.inl (show (fd.fdsPos+1).toNat < 63488 by omega),fun wrong => absurd wrong Bool.false_ne_true⟩,
    fun dir => ⟨rfl,?_⟩⟩,rfl⟩
  exact ((held.after shelved both).entries dir).2

theorem Held.close (held : Held s role free extent fd) (shelved : Shelved s role free extent) :
    Returns (closeIfile fd) s fun fd' t => Rehandled s t role role free free extent extent fd' ∧ fd'.fdsInumber = fd.fdsInumber := by
  have layout := shelved.layout
  have node := held.handle.node
  by_cases dir : s.IsDir fd.file
  · obtain ⟨clean,size⟩ := held.entries dir
    have inside := (layout.bound node (by simp)).2
    have quiet := Quiet.load s fd.file
    have one := shelved.still quiet.still
    have again := one.trans (one.shelved.resized fd.fdsInumber fd.fdsSize node fun _ => size)
    rw [Returns,runs_close_clean layout.mounted inside clean]
    exact ⟨⟨again,held.after shelved again⟩,rfl⟩
  · refine (held.handle.close layout).mono ?_ (fun _ _ => id)
    intro fd' t closed
    obtain ⟨filed,sound,_,_,moved⟩ := closed
    have again := shelved.filed filed dir sound
    have kept := held.after shelved again
    subst moved
    exact ⟨⟨again,⟨kept.handle.node,.inl (held.near shelved),fun wrong => absurd wrong Bool.false_ne_true⟩,fun dir' =>
      ⟨rfl,(kept.entries dir').2⟩⟩,rfl⟩

-- A creation that is not cut short, and whose entry reads as it is written, comes
-- to an end with an inode or with none; any other way of ending is an exit.
theorem Shelved.createFile (shelved : Shelved s role free extent) (type : FileType)
    (fits : Rejected path s ∨ s.super.nbBlocLibre = 0 ∨ 3174 ≤ s.vacancy (s.parent path).toNat ∨
      ((newcomer s.super.premierLibre (lastBasename path)).Plain ∧
        s.lacks (s.parent path).toNat (s.vacancy (s.parent path).toNat) < s.super.nbBlocLibre.toNat)) :
    Runs (createFile path type) s (fun r t => ∃ role' free' extent', Reshelved s t role role' free free' extent extent' ∧
      (r = returnFailure ∨ role' r.toNat = .inode)) (fun _ t => Sound s t) := by
  have layout := shelved.layout
  have browsable := shelved.browsable
  have count := layout.chain.count
  by_cases refused : s.parent path = 0 ∨ s.resolve path ≠ 0
  · refine Runs.of_returns (runs_createFile_rejected type layout browsable refused) ?_
    intro r t done
    obtain ⟨failed,still⟩ := done
    exact ⟨role,free,extent,shelved.still still,.inl failed⟩
  have parent : s.parent path ≠ 0 := fun none => refused (.inl none)
  have new : s.resolve path = 0 := not_not.mp fun some => refused (.inr some)
  cases free with
  | nil =>
      refine (create_full_exits type layout browsable parent new).mono (fun _ _ => False.elim) ?_
      exact fun _ t ended => ended.2.sound
  | cons b rest =>
      rw [List.length_cons] at count
      rcases Nat.lt_or_ge (s.vacancy (s.parent path).toNat) 3174 with room | full
      swap
      · exact (runs_createFile_lost type layout browsable shelved.synced parent new full).mono (fun _ _ => False.elim) (fun _ _ => id)
      have some : s.super.nbBlocLibre ≠ 0 := by
        intro none
        rw [none] at count
        cases count
      obtain ⟨plain,enough⟩ := ((fits.resolve_left fun wrong => refused ((rejected_iff layout browsable).mp wrong)).resolve_left
        some).resolve_left (Nat.not_le.mpr room)
      rw [count] at enough
      refine Runs.of_returns (runs_createFile_made type layout browsable parent new plain room (Nat.le_of_lt_succ enough)) ?_
      intro r t done
      obtain ⟨number,m,role',free',spares,edited,sound⟩ := done
      obtain ⟨node,dir,_⟩ := parent_dir browsable parent
      have head : s.super.premierLibre.toNat = b := layout.chain.head
      have leads : role' s.super.premierLibre.toNat = .inode := by
        refine edited.node ?_
        rw [head,Function.update_self]
      have pages := (shelved.toPages.spares spares).edited edited (spares.node node) ((spares.isDir node).mpr dir) fun _ => leads
      refine ⟨role',free',_,⟨⟨pages,edited.layout,sound.synced shelved.synced⟩,spares.toCarries.trans edited.toCarries,sound,
        extent_grows _ _ _⟩,.inr ?_⟩
      rw [number]
      exact leads

theorem Shelved.deleteFile (shelved : Shelved s role free extent) :
    Returns (deleteFile path) s fun _ t => ∃ role' free' extent', Reshelved s t role role' free free' extent extent' := by
  have browsable := shelved.browsable
  refine (runs_deleteFile shelved.layout browsable).mono ?_ (fun _ _ => id)
  intro r t post
  rcases post with ⟨_,still,_⟩ | ⟨_,parent,_,k,role',free',_,_,edited,sound⟩
  · exact ⟨role,free,extent,shelved.still still⟩
  · obtain ⟨node,dir,_⟩ := parent_dir browsable parent
    have pages := shelved.toPages.edited edited node dir fun live => absurd vacated_null live
    exact ⟨role',free',_,⟨pages,edited.layout,sound.synced shelved.synced⟩,edited.toCarries,sound,extent_grows _ _ _⟩

end AsePlusPlus
