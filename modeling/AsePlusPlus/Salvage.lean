import AsePlusPlus.Remnants

namespace AsePlusPlus
open Words Program Resumption

variable {role role' role'' : Nat → Role} {free free' free'' more : List Nat} {s t u w : Machine} {arguments path text : List Byte}
variable {b k n reads : Nat} {found : Store.Files (List Byte) (List Byte) → Prop} {c : Builtin} {task rest : S Output}

-- What the power may leave of the data of a new file.
def Broken (left data : List Byte) : Prop := left = [0] ∨ left = data.take 1

section begun
variable (begun : Begun s t role role' b more free' path) (ordered : Ordered s role (b :: more)) (named : 0 ∉ path)
variable (parent : s.parent path ≠ 0) (new : s.resolve path = 0) (short : (lastBasename path).length ≤ 15)
include begun ordered named parent new short

-- The file is filled, and its size is recorded at the end.
theorem Begun.minds (part : ∀ left, Broken left (stored text) → found (Store.write s.files (components path) (.file left))) :
    Minds (fun w => Salvaged s w found) b t role' free' 0 text := by
  have plain := begun.toLaid.plain
  have head : s.super.premierLibre.toNat = b := ordered.layout.chain.head
  obtain ⟨_,dir,_⟩ := parent_dir ordered.tree.toBrowsable parent
  have sprouted := begun.made.sprouted ordered named parent new short begun.toLaid
  refine minds_text begun.here plain (salvaged_blind s found) fun u role'' free'' veiled first synced => ?_
  refine synced.salvaged (veiled.ordered begun.ordered synced) (begun.within.trans veiled.within) ?_
  have here : u.nodeAt s.super.premierLibre = some (.file [u.byteAt b 0]) := by
    have contents : u.contents b = [u.byteAt b 0] := by
      unfold Machine.contents
      rw [veiled.sizes b begun.here,begun.size]
      rfl
    rw [nodeAt_file ordered.head_real,head,contents]
    rw [head,veiled.isDir begun.here]
    exact plain
  have old : ∀ j : Word, (j ≠ 0 → role j.toNat = .inode) → u.nodeAt j = s.nodeAt j := by
    intro j node
    refine (veiled.nodeAt (fun live => begun.node (node live)) fun live => .inl fun same => ?_).trans
      (begun.toLaid.old begun.toCarries dir node)
    have wrong := node live
    rw [same,(ordered.layout.vacant b).mpr List.mem_cons_self] at wrong
    cases wrong
  rw [sprouted.files ordered (parent_absolute parent) new (veiled.walk begun.ordered.tree begun.ordered.layout) here old]
  refine part _ ?_
  rw [begun.blank] at first
  rcases first with zero | next
  · rw [zero]
    exact .inl rfl
  · rw [next]
    cases text with
    | nil => exact .inl rfl
    | cons c text =>
        refine .inr ?_
        rw [splice,splice_before _ _ Nat.one_pos]
        rfl

theorem Begun.salvaged (empty : found (Store.write s.files (components path) (.file [0]))) : Salvaged s t found := by
  obtain ⟨files,_⟩ := begun.made.files begun.toLaid ordered named parent new short
  refine begun.synced.salvaged begun.ordered begun.within ?_
  rw [files]
  exact empty

-- It is complete.
theorem Begun.completes (pasted : Pasted b t u role' role'' free' free'' text) (synced : Synced u)
    (whole : found (Store.write s.files (components path) (.file (stored text)))) : Salvaged s u found := by
  obtain ⟨after,within,files⟩ := begun.stores ordered named parent new short pasted
  refine synced.salvaged after within ?_
  rw [files]
  exact whole

end begun

section creation
variable (ordered : Ordered s role free) (synced : Synced s) (addressed : Pathname path) (named : 0 ∉ path) (old : found s.files)
include ordered synced addressed named old

-- A command that begins with a new file, up to its end.
theorem throughout_creates {f : Word → S Word} (roomy : Store.Vacant s.files (components path) →
      Roomy s path n ∧ s.Snug (s.parent path).toNat (s.vacancy (s.parent path).toNat))
    (empty : Store.Vacant s.files (components path) → found (Store.write s.files (components path) (.file [0])))
    (refused : ¬ Store.Vacant s.files (components path) → ∃ r, f returnFailure = pure r)
    (next : ∀ b more t role' free', free = b :: more → Store.Vacant s.files (components path) → Begun s t role role' b more free' path →
      sectorsOf n ≤ free'.length → Salvaged s t found → (f s.super.premierLibre).Throughout Access.perform (fun w => Salvaged s w found) t
        fun _ _ => True) :
    (Stepwise.createFile path .file >>= f).Throughout Access.perform (fun w => Salvaged s w found) s fun _ _ => True := by
  have created := throughout_createFile ordered synced addressed named .file roomy old empty
  by_cases vacant : Store.Vacant s.files (components path)
  · obtain ⟨room,_⟩ := roomy vacant
    obtain ⟨parent,new⟩ := (ordered.vacant_iff addressed).mp vacant
    obtain ⟨b,more,rfl,enough⟩ := room.chain ordered.layout
    refine (created.ends (E := fun _ _ => False) (by
      rw [Stepwise.run_createFile]
      exact runs_createFile_begins ordered named parent new room.short room.plain room.slot (by omega))).bind fun r t post => ?_
    obtain ⟨_,rfl,role',free',begun⟩ := post
    have spent := begun.spent
    exact next b more t role' free' rfl vacant begun (by omega)
      (begun.salvaged ordered named parent new room.short (empty vacant))
  · refine (created.ends (E := fun _ _ => False) (by
      rw [Stepwise.run_createFile]
      exact runs_createFile_refused ordered addressed vacant .file)).bind fun r t post => ?_
    obtain ⟨_,rfl,_⟩ := post
    obtain ⟨r,equal⟩ := refused vacant
    rw [equal]
    exact Task.throughout_pure trivial

-- do_ed and do_compute.
theorem throughout_stores {f : Word → S Word} {loop : FileDesc → S FileDesc} (same : ∀ fd, loop fd = Stepwise.textLoop text fd)
    (roomy : Store.Vacant s.files (components path) →
      Roomy s path text.length ∧ s.Snug (s.parent path).toNat (s.vacancy (s.parent path).toNat))
    (part : ∀ left, Store.Vacant s.files (components path) → Broken left (stored text) →
      found (Store.write s.files (components path) (.file left)))
    (refused : ¬ Store.Vacant s.files (components path) → ∃ r, f returnFailure = pure r)
    (goes : ∀ inumber, inumber ≠ returnFailure → f inumber = Stepwise.fillFile loop inumber) :
    (Stepwise.createFile path .file >>= f).Throughout Access.perform (fun w => Salvaged s w found) s fun _ _ => True := by
  refine throughout_creates ordered synced addressed named old roomy (fun vacant => part _ vacant (.inl rfl)) refused ?_
  intro b more t role' free' whole vacant begun enough here
  subst whole
  obtain ⟨room,_⟩ := roomy vacant
  obtain ⟨parent,new⟩ := (ordered.vacant_iff addressed).mp vacant
  obtain ⟨node,_,_⟩ := begun.blank_file ordered
  have minds : Minds (fun w => Salvaged s w found) b t role' free' 0 text :=
    begun.minds ordered named parent new room.short fun left => part left vacant
  rw [← ordered.layout.chain.head] at minds
  rw [goes _ ordered.head_number]
  exact throughout_fillFile begun.ordered.layout begun.synced node room.near enough minds here same

-- do_cp.
theorem throughout_copies {source : List Byte} (addressed' : Pathname source) (fits : CopyFits s source path)
    (snug : Store.Vacant s.files (components path) → s.Snug (s.parent path).toNat (s.vacancy (s.parent path).toNat))
    (empty : Store.Vacant s.files (components path) → found (Store.write s.files (components path) (.file [0])))
    (part : ∀ left data, Store.Vacant s.files (components path) → s.session.dataAt (components source) = some data →
      Broken left data ∨ left = data → found (Store.write s.files (components path) (.file left))) :
    (Stepwise.copyFile reads source path).Throughout Access.perform (fun w => Salvaged s w found) s fun _ _ => True := by
  have blind := salvaged_blind s found
  have refused : ¬ Store.Vacant s.files (components path) →
      ∃ r, (if returnFailure = returnFailure then (return 1) else Stepwise.copyInto reads source returnFailure : S Word) = pure r :=
    fun _ => ⟨1,if_pos rfl⟩
  unfold Stepwise.copyFile
  rcases fits with rejected | ⟨missing,other,roomy⟩ | ⟨there,plain,legible,roomy⟩
  · have occupied := (ordered.rejected_vacant addressed).mp rejected
    refine throughout_creates (n := 0) ordered synced addressed named old (fun vacant => absurd vacant occupied) empty refused ?_
    exact fun _ _ _ _ _ _ vacant => absurd vacant occupied
  · refine throughout_creates ordered synced addressed named old (fun vacant => ⟨roomy,snug vacant⟩) empty refused ?_
    intro b more t role' free' whole vacant begun enough here
    subst whole
    obtain ⟨parent,new⟩ := (ordered.vacant_iff addressed).mp vacant
    obtain ⟨node,size,blank⟩ := begun.blank_file ordered
    have sprouted := begun.made.sprouted ordered named parent new roomy.short begun.toLaid
    rw [if_neg ordered.head_number]
    refine throughout_copyInto begun.ordered.layout begun.ordered.tree.toBrowsable begun.synced node size blank blind here fun wrong => ?_
    exact absurd (sprouted.missing addressed'.absolute missing other) wrong
  · refine throughout_creates ordered synced addressed named old (fun vacant => ⟨roomy,snug vacant⟩) empty refused ?_
    intro b more t role' free' whole vacant begun enough here
    subst whole
    obtain ⟨parent,new⟩ := (ordered.vacant_iff addressed).mp vacant
    obtain ⟨node,size,blank⟩ := begun.blank_file ordered
    obtain ⟨_,dir,_⟩ := parent_dir ordered.tree.toBrowsable parent
    have head := ordered.layout.chain.head
    have leads := begun.leads source there
    have apart := (ordered.found_old there).2
    have same : t.contents (s.resolve source).toNat = s.contents (s.resolve source).toNat := by
      refine begun.contents ordered there fun wrong => ?_
      rw [wrong] at plain
      exact plain dir
    have data := session_file addressed' there plain
    have kept := contents_stored s (s.resolve source).toNat
    rw [if_neg ordered.head_number]
    refine throughout_copyInto begun.ordered.layout begun.ordered.tree.toBrowsable begun.synced node size blank blind here fun _ => ?_
    rw [leads,same,head]
    refine ⟨apart,roomy.near,?_,enough,?_,fun v role'' free'' pasted settled => ?_⟩
    · unfold Printable
      rw [same]
      exact legible
    · refine begun.minds ordered named parent new roomy.short fun left broken => ?_
      rw [kept] at broken
      exact part left _ vacant data (.inl broken)
    · refine begun.completes ordered named parent new roomy.short pasted settled ?_
      rw [kept]
      exact part _ _ vacant data (.inr rfl)

end creation

-- While an entry is emptied it is there, or it is gone.
theorem throughout_deleteFile (ordered : Ordered s role free) (synced : Synced s) (addressed : Pathname path) (below : components path ≠ [])
    (old : found s.files) (gone : found (Store.erase s.files (components path))) :
    (Stepwise.deleteFile path).Throughout Access.perform (fun w => Salvaged s w found) s fun _ _ => True := by
  have layout := ordered.layout
  have browsable := ordered.tree.toBrowsable
  have blind := salvaged_blind s found
  have here : Salvaged s s found := synced.salvaged ordered (.refl s) old
  unfold Stepwise.deleteFile
  refine (Stepwise.throughout_still (Stepwise.watches_dinumberOfPath path) blind here (.refl s) (by
    rw [Stepwise.run_dinumberOfPath]
    exact runs_dinumberOfPath layout browsable)).bind fun r t post => ?_
  obtain ⟨idir,basename⟩ := r
  obtain ⟨_,same,rfl,last,still⟩ := post
  dsimp only at last ⊢
  refine Task.throughout_ite (fun _ => Task.throughout_pure trivial) fun parent => ?_
  rw [last addressed.absolute]
  have ordered' := same.ordered synced ordered
  have parent' : t.parent path = s.parent path := by
    unfold Machine.parent
    simp only [same.resolve,same.isDir]
  have files := same.files
  rw [← parent'] at parent ⊢
  obtain ⟨node,dir,_⟩ := parent_dir ordered'.tree.toBrowsable parent
  have ok := ordered'.tree.dirs _ node dir
  have few := ok.slotted.few
  refine throughout_delEntry ordered'.layout ok node blind (blind _ _ same.level here) (same.synced synced) fun k first inside => ?_
  refine minds_slot ok node dir (Nat.le_of_lt inside) blind (fun u role' free' veiled settled => ?_)
    fun u role' free' n _ written inscribed sound settled => ?_
  · refine veiled.salvaged ordered' (.inr dir) same.within settled ?_
    rw [files]
    exact old
  · have edited := inscribed.edited node ok (Nat.le_of_lt inside) (by omega) fun i small => by
      unfold Machine.halved
      rw [cell_build _ small,cell_zeros]
      split
      · decide
      · exact ok.slotted.plain _ (by omega)
    have null : (Entry.decode (t.halved (t.parent path).toNat k n (zeros 8 20))).entInumber = 0 := by
      rw [halved_number written]
      exact vacated_null
    obtain ⟨after,erased⟩ := ordered'.erases addressed parent first inside edited null below settled
    refine settled.salvaged after (same.within.trans sound.confined.toWithin) ?_
    rw [erased,files]
    exact gone

end AsePlusPlus
