import AsePlusPlus.Faltering

namespace AsePlusPlus
open Words Program Resumption

variable {role role' role'' : Nat → Role} {free free' free'' : List Nat} {o s t u v w : Machine} {fd : FileDesc}
variable {b f n p q : Nat} {text done rest : List Byte} {content new : Nat → Byte} {I : Machine → Prop} {c : Byte} {x : Sector}

-- The file `b` is being written and nothing else changes: its first `n` blocs are
-- what they are going to be, and the others are the old ones still.
structure Torn (b n : Nat) (o t : Machine) (role role' : Nat → Role) (free free' : List Nat) (new : Nat → Byte) : Prop
    extends Extends o t role role' free free' where
  sizes : ∀ j, role j = .inode → t.entryAt j 1 = o.entryAt j 1
  files : ∀ j f, role j = .inode → j ≠ b → t.fblock j f = o.fblock j f
  blocs : ∀ q, t.byteAt b q = if q/512 < n then new q else o.byteAt b q
  sound : Sound o t

theorem Torn.grew (torn : Torn b n o t role role' free free' new) (origin : role b = .inode) (grew : Grew t u role' role'' free' free'')
    (sound : Sound t u) : Torn b n o u role role'' free free'' new := by
  have fblock : ∀ j f, role j = .inode → u.fblock j f = t.fblock j f := fun j f node =>
    grew.fblock torn.layout (torn.node node) f
  have bytes : ∀ q, u.byteAt b q = t.byteAt b q := by
    intro q
    unfold Machine.byteAt
    rw [fblock b _ origin]
  refine ⟨torn.toExtends.trans grew.toExtends,fun j node => ?_,fun j f node other => ?_,fun q => ?_,torn.sound.trans sound⟩
  · exact (grew.sizes j (torn.node node)).trans (torn.sizes j node)
  · exact (fblock j f node).trans (torn.files j f node other)
  · rw [bytes]
    exact torn.blocs q

theorem Torn.quiet (torn : Torn b n o t role role' free free' new) (origin : role b = .inode) (quiet : Quiet t u) :
    Torn b n o u role role' free free' new := torn.grew origin (quiet.grew torn.layout) quiet.sound

-- The next bloc is written.
theorem Torn.filled (torn : Torn b n o t role role' free free' new) (origin : role b = .inode) (mapped : t.lookup b n ≠ 0)
    (whole : ∀ q, q/512 = n → cell x (q%512) = new q) : Torn b (n+1) o (t.filled b n x) role role' free free' new := by
  have layout := torn.layout
  have node := torn.node origin
  refine ⟨torn.toExtends.trans (filled_extends layout node mapped x),fun j other => ?_,fun j g other away => ?_,fun q => ?_,
    torn.sound.trans (filled_sound layout node mapped x)⟩
  · exact (filled_size layout node mapped x (torn.node other) 1).trans (torn.sizes j other)
  · rw [filled_fblock layout node mapped x (torn.node other),if_neg fun both => away both.1]
    exact torn.files j g other away
  · have bytes : (t.filled b n x).byteAt b q = if q/512 = n then cell x (q%512) else t.byteAt b q := by
      unfold Machine.byteAt
      rw [filled_fblock layout node mapped x node]
      by_cases here : q/512 = n
      · rw [if_pos ⟨rfl,here⟩,if_pos here]
      · rw [if_neg fun both => here both.2,if_neg here]
    rw [bytes]
    by_cases here : q/512 = n
    · rw [if_pos here,if_pos (by omega),whole q here]
    · rw [if_neg here,torn.blocs q]
      exact if_congr (by omega) rfl rfl

-- What is claimed of all states in which the power may go, while a text goes to a
-- file from a position on.
structure Minds (I : Machine → Prop) (b : Nat) (o : Machine) (role : Nat → Role) (free : List Nat) (p : Nat) (text : List Byte) : Prop where
  blind : Blind I
  torn : ∀ t role' free' n, Torn b n o t role role' free free' (splice (o.byteAt b) p text) → Synced t → I t
  claims : ∀ t role' free' n q x, Torn b n o t role role' free free' (splice (o.byteAt b) p text) → Synced t → free' ≠ [] → p ≤ q →
    q < p+text.length → t.lookup b (q/512) = 0 → I (t.claimed x)

namespace Stepwise
open Task

theorem throughout_current (here : I u) : current.Throughout Access.perform I u fun v w => v = u.currentVolume ∧ w = u :=
  throughout_request here fun _ _ did => by
    cases did
    exact ⟨rfl,rfl⟩

theorem throughout_fills (layout : Layout u role free) (node : role b = .inode) (mapped : u.lookup b f ≠ 0) (here : I u) (x : Sector) :
    (writeBloc u.currentVolume (u.lookup b f) x).Throughout Access.perform I u fun _ w => w = u.filled b f x :=
  throughout_request here fun _ _ did =>
    ((runs_filled (Q := fun _ w => w = u.filled b f x) (E := fun _ _ => False) layout node mapped x).mpr rfl).result did

theorem throughout_watches {task : S α} {Q : α → Prop} (watches : Watches t task Q) (blind : Blind I) (here : I t) :
    task.Throughout Access.perform I t fun a u => Q a ∧ Same t u :=
  watches.throughout (.refl t) fun _ same => blind _ _ same.level here

-- A lookup of a bloc that is there, with its answer.
theorem throughout_found {inumber fbloc : Word} (blind : Blind I) (layout : Layout t role free) (node : role inumber.toNat = .inode)
    (direct : fbloc.toNat < 124) (here : I t) (doAllocate : Bool) (settled : doAllocate = false ∨ t.lookup inumber.toNat fbloc.toNat ≠ 0) :
    (vblocOfFbloc inumber fbloc doAllocate).Throughout Access.perform I t fun v u =>
      v = t.lookup inumber.toNat fbloc.toNat ∧ Quiet t u := by
  have first : (vblocOfFbloc inumber fbloc doAllocate).Throughout Access.perform I t fun _ _ => True := by
    cases doAllocate with
    | false => exact (throughout_watches (watches_vbloc _ _) blind here).mono fun _ _ _ => trivial
    | true =>
        refine (throughout_vbloc blind layout node direct here fun null => ?_).mono fun _ _ _ => trivial
        exact absurd null (settled.resolve_left (by decide))
  refine (first.ends (E := fun _ _ => False) ?_).mono fun _ _ post => post.2
  rw [run_vblocOfFbloc]
  exact runs_vbloc_read layout node (.inl direct) settled

end Stepwise

section minds
variable (minds : Minds I b o role free p text)
include minds

-- The last byte of a bloc has been stored.
theorem Minds.store (torn : Torn b fd.block o t role role' free free' (splice (o.byteAt b) p text)) (origin : role b = .inode) (synced : Synced t)
    (file : fd.file = b) (near : fd.block < 124) (mapped : t.lookup b fd.block ≠ 0)
    (whole : fd.fdsPos.toNat%512 = 511 → ∀ q, q/512 = fd.block → cell fd.fdsBuf (q%512) = splice (o.byteAt b) p text q) :
    (Stepwise.writecStore fd).Throughout Access.perform I t fun _ _ => True := by
  have here := minds.torn t role' free' _ torn synced
  have blind := minds.blind
  have block := blocOfPos_toNat fd.fdsPos
  have node := torn.node origin
  subst file
  unfold Stepwise.writecStore
  refine Task.throughout_ite (fun last => ?_) fun _ => Task.throughout_pure trivial
  refine (Stepwise.throughout_found blind torn.layout node (by rw [block]; exact near) here false (.inl rfl)).bind fun ibloc u post => ?_
  obtain ⟨rfl,quiet⟩ := post
  have after := torn.quiet origin quiet
  have still := minds.torn u role' free' _ after (quiet.synced synced)
  refine (Stepwise.throughout_current still).bind fun vol w post => ?_
  obtain ⟨rfl,rfl⟩ := post
  have mapped' : w.lookup fd.file fd.block ≠ 0 := by
    rw [quiet.lookup]
    exact mapped
  rw [block,show fd.fdsPos.toNat/512 = fd.block from rfl,← quiet.lookup]
  refine (Stepwise.throughout_fills after.layout node mapped' still fd.fdsBuf).bind fun _ x post => ?_
  subst post
  have filled := after.filled origin mapped' (whole last)
  have sound := (filled_sound after.layout node mapped' fd.fdsBuf).synced (quiet.synced synced)
  have watches : Watches (w.filled fd.file fd.block fd.fdsBuf) (do
      let ibloc ← Stepwise.vblocOfFbloc fd.fdsInumber (blocOfPos (fd.fdsPos+1)) false
      let buf ← Stepwise.loadBuffer ibloc
      return writecAdvance {fd with
        fdsBuf := buf
        fdsDirty := false}) (fun _ => True) :=
    Task.constant_bind (Stepwise.watches_vbloc _ _) fun _ _ => Task.constant_bind (Stepwise.watches_loadBuffer _) fun _ _ =>
      Task.constant_pure trivial
  exact (Stepwise.throughout_watches watches blind (minds.torn _ _ _ _ filled sound)).mono fun _ _ _ => trivial

-- What the descriptor owes is written.
theorem Minds.flush (torn : Torn b fd.block o t role role' free free' (splice (o.byteAt b) p text)) (origin : role b = .inode) (synced : Synced t)
    (file : fd.file = b) (near : fd.block < 124) (mapped : fd.fdsDirty = true → t.lookup b fd.block ≠ 0)
    (whole : ∀ q, q/512 = fd.block → cell fd.fdsBuf (q%512) = splice (o.byteAt b) p text q) :
    (Stepwise.flushIfile fd).Throughout Access.perform I t fun _ u => I u := by
  have here := minds.torn t role' free' _ torn synced
  have blind := minds.blind
  have block := blocOfPos_toNat fd.fdsPos
  have node := torn.node origin
  subst file
  unfold Stepwise.flushIfile
  refine Task.throughout_ite (fun dirty => ?_) fun _ => Task.throughout_pure here
  have live : t.lookup fd.file (blocOfPos fd.fdsPos).toNat ≠ 0 := by
    rw [block]
    exact mapped dirty
  refine (Stepwise.throughout_found blind torn.layout node (by rw [block]; exact near) here true (.inr live)).bind fun vbloc u post => ?_
  obtain ⟨rfl,quiet⟩ := post
  have after := torn.quiet origin quiet
  have still := minds.torn u role' free' _ after (quiet.synced synced)
  refine (Stepwise.throughout_current still).bind fun vol w post => ?_
  obtain ⟨rfl,rfl⟩ := post
  have mapped' : w.lookup fd.file fd.block ≠ 0 := by
    rw [quiet.lookup]
    exact mapped dirty
  rw [block,show fd.fdsPos.toNat/512 = fd.block from rfl,← quiet.lookup]
  refine (Stepwise.throughout_fills after.layout node mapped' still fd.fdsBuf).bind fun _ x post => ?_
  subst post
  have filled := after.filled origin mapped' whole
  exact Task.throughout_pure (minds.torn _ _ _ _ filled ((filled_sound after.layout node mapped' fd.fdsBuf).synced (quiet.synced synced)))

-- The size is the last that is written.
theorem Minds.close (torn : Torn b fd.block o t role role' free free' (splice (o.byteAt b) p text)) (origin : role b = .inode) (synced : Synced t)
    (file : fd.file = b) (near : fd.block < 124) (mapped : fd.fdsDirty = true → t.lookup b fd.block ≠ 0)
    (whole : ∀ q, q/512 = fd.block → cell fd.fdsBuf (q%512) = splice (o.byteAt b) p text q) :
    (Stepwise.closeIfile fd).Throughout Access.perform I t fun _ _ => True := by
  unfold Stepwise.closeIfile
  refine (minds.flush torn origin synced file near mapped whole).bind fun fd' u here => ?_
  refine Task.Ends.throughout ?_ here minds.blind.closed
  exact (Stepwise.hushed_readInode _).bind fun _ => (Stepwise.ends_writeInode _ _).returns _

end minds

-- A text is going to a file through a descriptor: `done` has been stored, `rest` is
-- to come and can be afforded.
structure Inked (b : Nat) (o t : Machine) (role role' : Nat → Role) (free free' : List Nat) (fd : FileDesc) (p : Nat) (done rest : List Byte) :
    Prop where
  file : fd.file = b
  writing : Writing o t role role' free free' fd (splice (o.byteAt b) p done)
  position : fd.fdsPos.toNat = p+done.length
  near : p+done.length+rest.length < 63488
  enough : fd.cost t rest.length ≤ free'.length
  synced : Synced t
  blocs : ∀ q, t.byteAt b q = if q/512 < (p+done.length)/512 then splice (o.byteAt b) p (done ++ rest) q else o.byteAt b q
  sound : Sound o t

theorem splice_append (content : Nat → Byte) (p : Nat) (text rest : List Byte) :
    splice content p (text ++ rest) = splice (splice content p text) (p+text.length) rest := by
  induction text generalizing content p with
  | nil => rfl
  | cons c text ih => rw [List.cons_append,splice,ih,splice,List.length_cons,show p+1+text.length = p+(text.length+1) by omega]

section inked
variable (inked : Inked b o t role role' free free' fd p done rest)
include inked

theorem Inked.origin : role b = .inode := by
  rw [← inked.file]
  exact inked.writing.origin

theorem Inked.torn : Torn b fd.block o t role role' free free' (splice (o.byteAt b) p (done ++ rest)) := by
  have writing := inked.writing
  refine ⟨writing.toExtends,writing.sizes,fun j f node other => writing.files j f node (by rw [inked.file]; exact other),?_,inked.sound⟩
  unfold FileDesc.block
  rw [inked.position]
  exact inked.blocs

theorem Inked.block : fd.block < 124 := by
  have near := inked.near
  unfold FileDesc.block
  rw [inked.position]
  omega

end inked

-- The byte behind `done`.
theorem Inked.steps (inked : Inked b o t role role' free free' fd p done (c :: rest)) :
    Returns (writecIfile fd c) t fun r u => r.1 ≠ returnFailure ∧
      ∃ role'' free'', Inked b o u role role'' free free'' r.2 p (done ++ [c]) rest := by
  have file := inked.file
  have position := inked.position
  have near := inked.near
  have enough := inked.enough
  have direct := inked.block
  have writing := inked.writing
  rw [List.length_cons] at near enough
  have next := next_pos fd.fdsPos (by omega)
  refine (writing.writec c (.inl direct) (.inl (by rw [next]; omega)) (Nat.le_trans (price_le t fd rest.length) enough)).mono ?_ (fun _ _ => id)
  intro r u post
  obtain ⟨role'',free'',after,sound,status,moved,dirty,count,kept,mapped,same⟩ := post
  have stepped := moved.stepped (by omega)
  have cost := cost_succ stepped.file stepped.position (by rw [stepped.position]; omega) dirty kept rest.length
  rw [position,← splice_snoc] at after
  refine ⟨fun failed => ?_,role'',free'',stepped.file.trans file,after,?_,?_,by omega,sound.synced inked.synced,fun q => ?_,
    inked.sound.trans sound⟩
  · have low := congrArg BitVec.toNat (status.symm.trans failed)
    have constant : returnFailure.toNat = 4294967295 := by decide
    omega
  · rw [stepped.position,position,List.length_append,List.length_singleton]
    omega
  · rw [List.length_append,List.length_singleton]
    omega
  have old := inked.blocs q
  have grown : p+(done ++ [c]).length = p+done.length+1 := by
    rw [List.length_append,List.length_singleton]
    omega
  rw [grown,← List.append_cons]
  by_cases last : fd.fdsPos.toNat%512 = 511
  swap
  · have bytes : u.byteAt b q = t.byteAt b q := by
      unfold Machine.byteAt
      rw [← file,same last]
    rw [bytes,old]
    exact if_congr (by omega) rfl rfl
  -- The bloc has been written, with every byte that it gets.
  have clean : r.2.fdsDirty = false := by
    cases flag : r.2.fdsDirty with
    | false => rfl
    | true => exact absurd last (dirty.mp flag)
  have seen : u.byteAt b q = splice (o.byteAt b) p (done ++ [c]) q := by
    rw [← after.content q,clean_view (after.coherent.clean clean),stepped.file,file]
  rw [seen]
  by_cases inside : q/512 < (p+done.length+1)/512
  · rw [if_pos inside,List.append_cons done c rest,splice_append _ _ (done ++ [c]) rest,grown]
    exact (splice_before _ _ (by omega)).symm
  · rw [if_neg inside,splice_outside _ _ (.inr (by rw [grown]; omega))]

-- A bloc whose last byte has just been stored holds all that it is going to hold.
theorem Writing.whole (writing : Writing o t role role' free free' fd (splice (o.byteAt b) p (done ++ [c])))
    (position : fd.fdsPos.toNat = p+done.length) (last : fd.fdsPos.toNat%512 = 511) (inside : q/512 = fd.block) :
    cell fd.fdsBuf (q%512) = splice (o.byteAt b) p (done ++ c :: rest) q := by
  have low : q < p+(done ++ [c]).length := by
    rw [List.length_append,List.length_singleton]
    unfold FileDesc.block at inside
    omega
  have view := writing.content q
  unfold Machine.viewAt at view
  rw [if_pos inside] at view
  rw [view,List.append_cons done c rest,splice_append _ _ (done ++ [c]) rest,splice_before _ _ low]

theorem Inked.writec (inked : Inked b o t role role' free free' fd p done (c :: rest)) (minds : Minds I b o role free p (done ++ c :: rest)) :
    (Stepwise.writecIfile fd c).Throughout Access.perform I t fun r u => r.1 ≠ returnFailure ∧
      ∃ role'' free'', Inked b o u role role'' free free'' r.2 p (done ++ [c]) rest := by
  have file := inked.file
  have position := inked.position
  have direct := inked.block
  have writing := inked.writing
  have torn := inked.torn
  have here := minds.torn t role' free' _ torn inked.synced
  have block := blocOfPos_toNat fd.fdsPos
  refine (Task.Throughout.ends (Q := fun _ _ => True) ?_ (E := fun _ _ => False) ?_).mono fun _ _ post => post.2
  swap
  · rw [Stepwise.run_writecIfile]
    exact inked.steps
  unfold Stepwise.writecIfile
  refine Task.throughout_ite (fun unwritten => ?_) fun other => ?_
  · have clean : fd.fdsDirty = false := unwritten
    have price := Nat.le_trans (price_le t fd rest.length) inked.enough
    rw [price_direct t clean (by have near := inked.near; rw [position]; omega)] at price
    refine (Stepwise.throughout_vbloc minds.blind writing.layout writing.here (by rw [block]; exact direct) here fun null => ?_).bind
      fun v u post => ?_
    · have hole : t.lookup fd.file fd.block = 0 := by
        rw [block] at null
        exact null
      rw [if_pos hole] at price
      have some : free' ≠ [] := fun none => by
        rw [none] at price
        exact absurd price (by decide)
      refine ⟨some,fun x => ?_⟩
      rw [file] at hole
      have place : fd.block = (p+done.length)/512 := by
        unfold FileDesc.block
        rw [position]
      rw [place] at hole
      exact minds.claims t role' free' _ _ x torn inked.synced some (Nat.le_add_right p done.length)
        (by rw [List.length_append,List.length_cons]; omega) hole
    · obtain ⟨role'',free'',grew,value,ended⟩ := post
      rw [block] at value
      cases ended with
      | short none full lack lost =>
          rw [block] at lack
          unfold needed at lack
          rw [if_pos (show fd.fdsPos.toNat/512 < 124 from direct)] at lack
          exact absurd lack (Nat.not_lt.mpr price)
      | mapped live sound count =>
          have mapped : u.lookup fd.file fd.block ≠ 0 := by
            rw [value] at live
            exact live
          have after := (writing.grow grew).put c mapped
          rw [position,← splice_snoc] at after
          refine Task.throughout_ite (fun null => absurd null live) fun _ => ?_
          refine minds.store (torn.grew inked.origin grew sound) inked.origin (sound.synced inked.synced) file direct ?_ fun last q inside => ?_
          · rw [← file]
            exact mapped
          · exact after.whole position last inside
  · have dirty : fd.fdsDirty = true := by
      cases flag : fd.fdsDirty with
      | true => rfl
      | false => exact absurd flag other
    have mapped := writing.coherent.dirty dirty
    have after := writing.put c mapped
    rw [position,← splice_snoc] at after
    refine minds.store torn inked.origin inked.synced file direct ?_ fun last q inside => ?_
    · rw [← file]
      exact mapped
    · exact after.whole position last inside

-- write_ifile, and the loops that write a text.
theorem Inked.chars (inked : Inked b o t role role' free free' fd p done rest) (minds : Minds I b o role free p (done ++ rest)) :
    (Stepwise.writeChars rest fd).Throughout Access.perform I t fun r u => r.1 = true ∧
      ∃ role'' free'', Inked b o u role role'' free free'' r.2 p (done ++ rest) [] := by
  induction rest generalizing fd t role' free' done with
  | nil =>
      rw [List.append_nil]
      exact Task.throughout_pure ⟨rfl,role',free',inked⟩
  | cons c rest ih =>
      rw [Stepwise.writeChars]
      refine (inked.writec minds).bind fun r u post => ?_
      obtain ⟨accepted,role'',free'',after⟩ := post
      rw [List.append_cons] at minds ⊢
      exact Task.throughout_ite (fun failed => absurd failed accepted) fun _ => ih after minds

theorem Inked.texts (inked : Inked b o t role role' free free' fd p done rest) (minds : Minds I b o role free p (done ++ rest)) :
    (Stepwise.textLoop rest fd).Throughout Access.perform I t fun fd' u =>
      ∃ role'' free'', Inked b o u role role'' free free'' fd' p (done ++ rest) [] := by
  induction rest generalizing fd t role' free' done with
  | nil =>
      rw [List.append_nil]
      exact Task.throughout_pure ⟨role',free',inked⟩
  | cons c rest ih =>
      rw [Stepwise.textLoop]
      refine (inked.writec minds).bind fun r u post => ?_
      obtain ⟨_,role'',free'',after⟩ := post
      rw [List.append_cons] at minds ⊢
      exact ih after minds

theorem Inked.closes (inked : Inked b o t role role' free free' fd p done []) (minds : Minds I b o role free p done) :
    (Stepwise.closeIfile fd).Throughout Access.perform I t fun _ _ => True := by
  have torn := inked.torn
  have writing := inked.writing
  have file := inked.file
  rw [List.append_nil] at torn
  refine minds.close torn inked.origin inked.synced file inked.block (fun dirty => ?_) fun q inside => ?_
  · rw [← file]
    exact writing.coherent.dirty dirty
  · have view := writing.content q
    unfold Machine.viewAt at view
    rw [if_pos inside] at view
    exact view

end AsePlusPlus
