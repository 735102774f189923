import AsePlusPlus.Lib.Trace
import AsePlusPlus.Formatting
import AsePlusPlus.Writing

namespace AsePlusPlus
open Words Program Trace

-- One open descriptor; the bytes written since its buffer was loaded, by offset,
-- and the file bloc they were written for.
structure Described where
  machine : Machine
  fd : FileDesc
  pending : Nat → Option Byte
  home : Nat

inductive DescCall where
  | seek (offset : Word)
  | seek2 (position : Word)
  | readc
  | writec (c : Byte)
  | flush

def nothing : Nat → Option Byte := fun _ => none

-- The bytes stay pending while the cursor stays in the bloc.
def Described.moved (h : Described) (fd : FileDesc) (t : Machine) : Described :=
  ⟨t,fd,if fd.block = h.fd.block then h.pending else nothing,h.home⟩

-- A byte that was accepted; with the last byte of a bloc the buffer is written.
def Described.wrote (h : Described) (c : Byte) (r : Word × FileDesc) (t : Machine) : Described :=
  if r.1 = returnFailure then ⟨t,r.2,h.pending,h.home⟩ else
    ⟨t,r.2,if r.2.block = h.fd.block then Function.update h.pending (h.fd.fdsPos.toNat%512) (some c) else nothing,
      h.fd.block⟩

inductive DescStep : Described → DescCall → Described → Prop
  | seek {h : Described} {offset : Word} {fd : FileDesc} {t : Machine}
      (ran : seekIfile h.fd offset h.machine = (.ok fd,t)) : DescStep h (.seek offset) (h.moved fd t)
  | seek2 {h : Described} {position : Word} {fd : FileDesc} {t : Machine}
      (ran : seek2Ifile h.fd position h.machine = (.ok fd,t)) : DescStep h (.seek2 position) (h.moved fd t)
  | readc {h : Described} {r : Word} {fd : FileDesc} {t : Machine}
      (ran : readcIfile h.fd h.machine = (.ok (r,fd),t)) : DescStep h .readc (h.moved fd t)
  | writec {h : Described} {c : Byte} {r : Word × FileDesc} {t : Machine}
      (ran : writecIfile h.fd c h.machine = (.ok r,t)) : DescStep h (.writec c) (h.wrote c r t)
  | flush {h : Described} {fd : FileDesc} {t : Machine}
      (ran : flushIfile h.fd h.machine = (.ok fd,t)) : DescStep h .flush ⟨t,fd,nothing,h.home⟩

-- A clean buffer is the file's bloc at the cursor; a dirty one is a mapped bloc
-- with the pending bytes over it.
structure BufferOk (h : Described) : Prop where
  clean : h.fd.fdsDirty = false → h.fd.fdsBuf = h.machine.fblock h.fd.file h.fd.block
  dirty : h.fd.fdsDirty = true → h.machine.lookup h.fd.file h.fd.block ≠ 0 ∧
    ∀ k, k < 512 → cell h.fd.fdsBuf k =
      (h.pending k).getD (cell (h.machine.blk (h.machine.lookup h.fd.file h.fd.block).toNat) k)

-- What a call that may flush does to the volume: nothing is allocated, and a
-- buffer that was dirty goes to the bloc its bytes were written for, if anywhere.
structure WroteBack (h : Described) (fd : FileDesc) (t : Machine) : Prop where
  allocation : t.super = h.machine.super
  others : ∀ b, h.fd.fdsDirty = false ∨ b ≠ (h.machine.lookup h.fd.file h.home).toNat → t.blk b = h.machine.blk b
  home : h.fd.fdsDirty = true → fd.fdsDirty = false →
    t.blk (h.machine.lookup h.fd.file h.home).toNat = h.fd.fdsBuf

def DescCall.Flushes : DescCall → Prop
  | .writec _ => False
  | _ => True

-- The cursor may go anywhere the map serves, but only out of a clean bloc.
def Departs (h : Described) (offset : Word) : Prop :=
  Supported ((h.fd.fdsPos+offset).toNat/512) ∧ (h.fd.fdsDirty = true → (h.fd.fdsPos+offset).toNat/512 = h.fd.block)

-- A write needs served positions and the blocs that its position lacks.
def DescCall.Fits (h : Described) : DescCall → Prop
  | .seek offset => Departs h offset
  | .seek2 position => Departs h (position-h.fd.fdsPos)
  | .readc => h.fd.fdsPos.toNat ≤ h.fd.fdsSize.toNat → Departs h 1
  | .writec _ => Supported ((h.fd.fdsPos+1).toNat/512) ∧ h.fd.price h.machine ≤ h.machine.super.nbBlocLibre.toNat
  | .flush => True

variable {role role' : Nat → Role} {free free' : List Nat} {s t : Machine} {h h' : Described} {fd : FileDesc}
variable {offset : Word} {content : Nat → Byte}

structure Described.Ok (h : Described) (s : Machine) (role role' : Nat → Role) (free free' : List Nat)
    (content : Nat → Byte) : Prop where
  writing : Writing s h.machine role role' free free' h.fd content
  reach : Supported h.fd.block
  pending : h.fd.fdsDirty = true → h.home = h.fd.block ∧ ∀ k, k < 512 → cell h.fd.fdsBuf k =
    (h.pending k).getD (cell (h.machine.fblock h.fd.file h.fd.block) k)
  idle : h.fd.fdsDirty = false → h.pending = nothing

theorem Described.Ok.buffer (ok : h.Ok s role role' free free' content) : BufferOk h := by
  refine ⟨ok.writing.coherent.clean,fun dirty => ?_⟩
  have mapped := ok.writing.coherent.dirty dirty
  refine ⟨mapped,fun k small => ?_⟩
  have byte := (ok.pending dirty).2 k small
  unfold Machine.fblock at byte
  rwa [if_neg mapped] at byte

-- A move that keeps to its bloc, or leaves a clean one.
theorem Described.Ok.depart (ok : h.Ok s role role' free free' content) (fits : Departs h offset) :
    Returns (seekIfile h.fd offset) h.machine fun fd t =>
      (h.moved fd t).Ok s role role' free free' content ∧ WroteBack h fd t := by
  obtain ⟨reach,stay⟩ := fits
  cases flag : h.fd.fdsDirty with
  | false =>
      refine (ok.writing.seek flag reach).mono ?_ (fun _ _ => id)
      intro fd t post
      obtain ⟨after,quiet,_,_,pos,clean⟩ := post
      have block : fd.block = (h.fd.fdsPos+offset).toNat/512 := by unfold FileDesc.block; rw [pos]
      refine ⟨⟨after,by rw [Described.moved,block]; exact reach,fun dirty => ?_,fun _ => ?_⟩,quiet.super,
        fun b _ => quiet.blk b,fun dirty => ?_⟩
      · exact absurd dirty (by simp [Described.moved,clean])
      · rw [Described.moved,ok.idle flag,ite_self]
      · rw [flag] at dirty; cases dirty
  | true =>
      have same := stay flag
      obtain ⟨home,bytes⟩ := ok.pending flag
      rw [Returns,runs_seek_inside same]
      have block : FileDesc.block {h.fd with fdsPos := h.fd.fdsPos+offset} = h.fd.block := same
      refine ⟨⟨⟨ok.writing.toExtends,ok.writing.origin,ok.writing.sizes,ok.writing.files,⟨?_,?_⟩,?_⟩,?_,?_,?_⟩,rfl,fun _ _ => rfl,?_⟩
      · intro clean
        exact absurd ((show h.fd.fdsDirty = false from clean).symm.trans flag) (by simp)
      · intro _
        rw [Described.moved,block]
        exact ok.writing.coherent.dirty flag
      · intro q
        rw [← ok.writing.content q]
        unfold Machine.viewAt
        rw [Described.moved,block]
        rfl
      · rw [Described.moved,block]; exact ok.reach
      · intro _
        rw [Described.moved,block,if_pos rfl]
        exact ⟨home,bytes⟩
      · intro clean
        exact absurd ((show h.fd.fdsDirty = false from clean).symm.trans flag) (by simp)
      · intro _ clean
        exact absurd ((show h.fd.fdsDirty = false from clean).symm.trans flag) (by simp)

theorem runs_readc_seek {Q : Word × FileDesc → Machine → Prop} {E : Stop → Machine → Prop} :
    Runs (readcIfile fd) s Q E ↔ if fd.fdsSize.toNat < fd.fdsPos.toNat then Q (readEof,fd) s else
      Runs (seekIfile fd 1) s (fun fd' t => Q ((cell fd.fdsBuf (iblocOfPos fd.fdsPos)).signExtend 32,fd') t) E := by
  unfold readcIfile
  rw [runs_ite]
  simp only [runs_bind,runs_pure,BitVec.lt_def]

theorem Described.moved_self (h : Described) : h.moved h.fd h.machine = h := by
  unfold Described.moved
  rw [if_pos rfl]

theorem Described.Ok.read (ok : h.Ok s role role' free free' content) (fits : DescCall.readc.Fits h) :
    Returns (readcIfile h.fd) h.machine fun r t =>
      (h.moved r.2 t).Ok s role role' free free' content ∧ WroteBack h r.2 t := by
  rw [Returns,runs_readc_seek]
  split
  · refine ⟨by rw [h.moved_self]; exact ok,rfl,fun _ _ => rfl,fun dirty clean => ?_⟩
    exact absurd ((show h.fd.fdsDirty = false from clean).symm.trans dirty) (by simp)
  · rename_i before
    exact ok.depart (fits (Nat.not_lt.mp before))

theorem Described.Ok.flush (ok : h.Ok s role role' free free' content) :
    Returns (flushIfile h.fd) h.machine fun fd t =>
      Described.Ok ⟨t,fd,nothing,h.home⟩ s role role' free free' content ∧ WroteBack h fd t := by
  obtain ⟨fd,t,ran,after,_,_,cleaned⟩ := returns_iff.mp (ok.writing.flush ok.reach)
  subst cleaned
  refine Runs.of_eq ran ⟨⟨after,ok.reach,fun dirty => absurd dirty (by simp),fun _ => rfl⟩,?_⟩
  cases flag : h.fd.fdsDirty with
  | false =>
      obtain ⟨_,rfl⟩ := Runs.exact (fun _ => runs_flush_clean flag) ran
      exact ⟨rfl,fun _ _ => rfl,fun dirty => absurd (flag.symm.trans dirty) (by simp)⟩
  | true =>
      have mapped := ok.writing.coherent.dirty flag
      obtain ⟨home,_⟩ := ok.pending flag
      obtain ⟨_,u,quiet,rfl⟩ :=
        (runs_flush_dirty ok.writing.layout ok.writing.here flag mapped ok.reach).result ran
      have blk : ∀ b, (u.filled h.fd.file h.fd.block h.fd.fdsBuf).blk b =
          if b = (h.machine.lookup h.fd.file h.home).toNat then h.fd.fdsBuf else h.machine.blk b := by
        intro b
        unfold Machine.filled
        rw [store_blk,quiet.lookup,quiet.blk,home]
      refine ⟨quiet.super,fun b other => ?_,fun _ _ => ?_⟩
      · rw [blk,if_neg (other.resolve_left (by rw [flag]; simp))]
      · rw [blk,if_pos rfl]

theorem Described.Ok.write {c : Byte} (ok : h.Ok s role role' free free' content) (fits : (DescCall.writec c).Fits h) :
    Returns (writecIfile h.fd c) h.machine fun r t => ∃ role'' free'' content',
      (h.wrote c r t).Ok s role role'' free free'' content' := by
  obtain ⟨reach',enough⟩ := fits
  rw [ok.writing.layout.chain.count] at enough
  have reach := ok.reach
  refine (ok.writing.writec c reach reach' enough).mono ?_ (fun _ _ => id)
  intro r t post
  obtain ⟨role'',free'',after,_,status,moved,dirty,_,_,_,inside⟩ := post
  have small : h.fd.fdsPos.toNat/512 < 888 := by
    have served := reach
    unfold Supported FileDesc.block at served
    omega
  have next := next_pos h.fd.fdsPos small
  have accepted : r.1 ≠ returnFailure := by
    rw [status]
    intro failed
    have number := congrArg BitVec.toNat failed
    have minus : returnFailure.toNat = 4294967295 := by decide
    omega
  have block : r.2.block = (h.fd.fdsPos.toNat+1)/512 := by unfold FileDesc.block; rw [moved.position,next]
  refine ⟨role'',free'',Function.update content h.fd.fdsPos.toNat c,?_⟩
  unfold Described.wrote
  rw [if_neg accepted]
  refine ⟨after,by rw [block,← next]; exact reach',fun still => ?_,fun clean => ?_⟩
  swap
  · have last : h.fd.fdsPos.toNat%512 = 511 := by
      by_contra other
      exact absurd ((show r.2.fdsDirty = false from clean).symm.trans (dirty.mpr other)) (by simp)
    dsimp only
    rw [if_neg]
    rw [block]
    unfold FileDesc.block
    omega
  have within : h.fd.fdsPos.toNat%512 ≠ 511 := dirty.mp still
  have stays : r.2.block = h.fd.block := by
    rw [block]
    unfold FileDesc.block
    omega
  refine ⟨stays.symm,fun k bound => ?_⟩
  dsimp only
  rw [if_pos stays,stays,moved.file,inside within]
  -- byte k of the bloc, read through the view
  have quotient : (512*h.fd.block+k)/512 = h.fd.block := by omega
  have rest : (512*h.fd.block+k)%512 = k := by omega
  have here : cell r.2.fdsBuf k = t.viewAt r.2 (512*h.fd.block+k) := by
    unfold Machine.viewAt
    rw [quotient,stays,if_pos rfl,rest]
  have before : cell h.fd.fdsBuf k = h.machine.viewAt h.fd (512*h.fd.block+k) := by
    unfold Machine.viewAt
    rw [quotient,if_pos rfl,rest]
  rw [here,after.content]
  by_cases same : k = h.fd.fdsPos.toNat%512
  · have position : 512*h.fd.block+k = h.fd.fdsPos.toNat := by unfold FileDesc.block; omega
    rw [position,Function.update_self,same,Function.update_self]
    rfl
  · have position : 512*h.fd.block+k ≠ h.fd.fdsPos.toNat := by unfold FileDesc.block; omega
    rw [Function.update_of_ne position,Function.update_of_ne same,← ok.writing.content,← before]
    cases flag : h.fd.fdsDirty with
    | true => exact (ok.pending flag).2 k bound
    | false =>
        rw [ok.idle flag,ok.writing.coherent.clean flag]
        rfl

def Coherently (h : Described) : Prop := ∃ s role role' free free' content, h.Ok s role role' free free' content

theorem DescStep.keeps {c : DescCall} (coherent : Coherently h) (fits : c.Fits h) (step : DescStep h c h') :
    Coherently h' ∧ (c.Flushes → WroteBack h h'.fd h'.machine) := by
  obtain ⟨s,role,role',free,free',content,ok⟩ := coherent
  cases step with
  | seek ran =>
      obtain ⟨after,back⟩ := (ok.depart fits).result ran
      exact ⟨⟨_,_,_,_,_,_,after⟩,fun _ => back⟩
  | seek2 ran =>
      obtain ⟨after,back⟩ := (ok.depart fits).result ran
      exact ⟨⟨_,_,_,_,_,_,after⟩,fun _ => back⟩
  | readc ran =>
      obtain ⟨after,back⟩ := (ok.read fits).result ran
      exact ⟨⟨_,_,_,_,_,_,after⟩,fun _ => back⟩
  | writec ran =>
      obtain ⟨_,_,_,after⟩ := (ok.write fits).result ran
      exact ⟨⟨_,_,_,_,_,_,after⟩,False.elim⟩
  | flush ran =>
      obtain ⟨after,back⟩ := ok.flush.result ran
      exact ⟨⟨_,_,_,_,_,_,after⟩,fun _ => back⟩

theorem opened_coherent {inumber r : Word} (layout : Layout s role free) (node : role inumber.toNat = .inode)
    (opened : openIfile inumber s = (.ok (r,fd),t)) :
    Described.Ok ⟨t,fd,nothing,0⟩ s role role free free (s.byteAt inumber.toNat) := by
  obtain ⟨writing,_,_,_,_,pos,clean⟩ := (Writing.open layout inumber node).result opened
  dsimp only at writing pos clean
  refine ⟨writing,?_,fun dirty => absurd (clean.symm.trans dirty) (by simp),fun _ => rfl⟩
  unfold FileDesc.block
  dsimp only
  rw [pos]
  exact Or.inl (by decide)

-- As long as the cursor leaves clean blocs only, the buffer is coherent after
-- every call and each flush goes where the bytes belong.
theorem descriptor_coherent {inumber r : Word} {past : List (Described × DescCall)} (layout : Layout s role free)
    (node : role inumber.toNat = .inode) (opened : openIfile inumber s = (.ok (r,fd),t))
    (run : Run DescStep ⟨t,fd,nothing,0⟩ past h) (fits : ∀ entry ∈ past, entry.2.Fits entry.1) :
    BufferOk h ∧ ∀ c h', c.Flushes → c.Fits h → DescStep h c h' → WroteBack h h'.fd h'.machine := by
  have start : Coherently ⟨t,fd,nothing,0⟩ := ⟨_,_,_,_,_,_,opened_coherent layout node opened⟩
  have reached := (run.keeps (fun (h : Described) (c : DescCall) => c.Fits h)
    (fun _ _ _ coherent fits step => (step.keeps coherent fits).1) start fits).1
  refine ⟨?_,fun c h' flushes fit step => (step.keeps reached fit).2 flushes⟩
  obtain ⟨_,_,_,_,_,_,ok⟩ := reached
  exact ok.buffer

-- A dirty descriptor that is moved to another bloc writes its buffer there.
theorem seek_dirty_misplaces (offset : Word) (layout : Layout s role free) (node : role fd.file = .inode) (dirty : fd.fdsDirty = true)
    (crossed : (fd.fdsPos+offset).toNat/512 ≠ fd.block) (reach : Supported ((fd.fdsPos+offset).toNat/512))
    (enough : needed s fd.file ((fd.fdsPos+offset).toNat/512) ≤ free.length) :
    Returns (seekIfile fd offset) s fun fd' t => fd'.fdsDirty = false ∧ (∃ role' free', Extends s t role role' free free') ∧
      ∀ f, f ≠ (fd.fdsPos+offset).toNat/512 → t.fblock fd.file f = s.fblock fd.file f := by
  have other : blocOfPos (fd.fdsPos+offset) ≠ blocOfPos fd.fdsPos := by
    intro equal
    have blocks := congrArg BitVec.toNat equal
    rw [blocOfPos_toNat,blocOfPos_toNat] at blocks
    exact crossed blocks
  have allocate := runs_writec_allocate {fd with fdsPos := fd.fdsPos+offset} layout node reach
  unfold seekIfile flushIfile
  dsimp only
  rw [if_pos other,dirty,if_pos rfl]
  simp only [Returns,runs_bind,runs_current]
  refine allocate.mono ?_ (fun _ _ => id)
  intro v u post
  obtain ⟨role',free',grew,value,ended⟩ := post
  cases ended with
  | short _ _ lack => exact absurd enough (Nat.not_le.mpr lack)
  | mapped live _ _ =>
      have mapped : u.lookup fd.file ((fd.fdsPos+offset).toNat/512) ≠ 0 := by
        intro null
        exact live (value.trans null)
      have there : v = u.lookup fd.file ((fd.fdsPos+offset).toNat/512) := value
      rw [there]
      refine (runs_filled grew.layout (grew.node node) mapped fd.fdsBuf).mpr ?_
      have stored := filled_extends grew.layout (grew.node node) mapped fd.fdsBuf
      have fetch := runs_fetch fd.fdsInumber stored.layout (grew.node node) _ reach
      simp only [Returns,runs_bind] at fetch
      refine fetch.mono ?_ (fun _ _ => id)
      intro _ w loaded
      refine loaded.mono ?_ (fun _ _ => id)
      intro buf x post
      obtain ⟨_,quiet⟩ := post
      refine ⟨rfl,⟨role',free',grew.toExtends.trans (stored.trans (quiet.grew stored.layout).toExtends)⟩,?_⟩
      intro f away
      rw [quiet.fblock,filled_fblock grew.layout (grew.node node) mapped _ (grew.node node),if_neg (fun both => away both.2),
        grew.fblock layout node]

-- A byte written at the start of the empty root of a formatted volume.
theorem first_byte : ∃ s r fd t r1 fd1 u, initSuper 0 0 (zeros 8 32) (recordedDisk (volumeOf 64)) = (.ok (),s) ∧
    Fresh s ∧ openIfile 1 s = (.ok (r,fd),t) ∧ writecIfile fd 65 t = (.ok (r1,fd1),u) ∧ r1 ≠ returnFailure ∧
    (DescCall.writec 65).Fits ⟨t,fd,nothing,0⟩ ∧ fd.block = 0 ∧ fd1.fdsPos = 1 ∧ fd1.fdsDirty = true ∧
    u.fblock 1 0 = zeros 8 512 ∧ ∃ role free content,
      Writing s u (freshRole s.nsec) role (List.range' 2 (s.nsec-2)) free fd1 (Function.update content 0 65) ∧
      fd1.file = 1 ∧ 3 ≤ free.length := by
  obtain ⟨s,equal,fresh,size⟩ := volumeOf_fresh (n := 64) (by decide) (by decide) 0 (zeros 8 32)
  have node : freshRole s.nsec (1 : Word).toNat = .inode := Function.update_self _ _ _
  obtain ⟨⟨r,fd⟩,t,ran,writing,quiet,_,number,_,pos,clean⟩ := returns_iff.mp (Writing.open fresh.layout 1 node)
  dsimp only at writing number pos clean
  have low : Supported 0 := Or.inl (by decide)
  have block : fd.block = 0 := by unfold FileDesc.block; rw [pos]; rfl
  have file : fd.file = 1 := by unfold FileDesc.file; rw [number]; rfl
  have price : fd.price t ≤ 3 := by
    rw [FileDesc.price,clean]
    exact needed_le _ _ _
  have count := writing.layout.chain.count
  have many : (List.range' 2 (s.nsec-2)).length = 62 := by rw [List.length_range',size]; rfl
  obtain ⟨⟨r1,fd1⟩,u,ran1,role,free,after,_,status,moved,dirty,left,_,_,inside⟩ := returns_iff.mp (writing.writec 65
    (by rw [block]; exact low) (by rw [pos]; exact low) (by rw [many]; omega))
  rw [pos] at status dirty inside after
  have empty : s.fblock 1 0 = zeros 8 512 := by
    unfold Machine.fblock
    rw [if_pos (fresh.unmapped 0)]
  refine ⟨s,r,fd,t,r1,fd1,u,equal,fresh,ran,ran1,?_,⟨by rw [pos]; exact low,?_⟩,block,?_,dirty.mpr (by decide),?_,
    role,free,_,after,?_,?_⟩
  · rw [show r1 = 0 from status]; decide
  · show fd.price t ≤ t.super.nbBlocLibre.toNat
    rw [count,many]
    omega
  · rw [moved.position,pos]; rfl
  · rw [← file,inside (by decide),quiet.fblock,file,empty]
  · rw [moved.file,file]
  · rw [many] at left; omega

theorem descriptor_coherent_byte : ∃ s r fd t h past,
    initSuper 0 0 (zeros 8 32) (recordedDisk (volumeOf 64)) = (.ok (),s) ∧ openIfile 1 s = (.ok (r,fd),t) ∧
    Run DescStep ⟨t,fd,nothing,0⟩ past h ∧ past.map Prod.snd = [.writec 65] ∧ BufferOk h := by
  obtain ⟨s,r,fd,t,r1,fd1,u,equal,fresh,opened,ran,_,fits,_⟩ := first_byte
  have step : DescStep ⟨t,fd,nothing,0⟩ (.writec 65) _ := .writec ran
  have run := Run.single step
  have node : freshRole s.nsec (1 : Word).toNat = .inode := Function.update_self _ _ _
  exact ⟨s,r,fd,t,_,_,equal,opened,run,rfl,(descriptor_coherent fresh.layout node opened run (by simpa using fits)).1⟩

-- Moved on to the next bloc, the byte is written there and is missing where it
-- belongs.
theorem descriptor_misplaces : ∃ s r fd t h h' past,
    initSuper 0 0 (zeros 8 32) (recordedDisk (volumeOf 64)) = (.ok (),s) ∧ openIfile 1 s = (.ok (r,fd),t) ∧
    Run DescStep ⟨t,fd,nothing,0⟩ past h ∧ past.map Prod.snd = [.writec 65] ∧ DescStep h (.seek 511) h' ∧
    ¬ WroteBack h h'.fd h'.machine := by
  obtain ⟨s,r,fd,t,r1,fd1,u,equal,fresh,opened,ran,accepted,_,block,pos,dirty,empty,role,free,content,writing,file,many⟩ :=
    first_byte
  have step : DescStep ⟨t,fd,nothing,0⟩ (.writec 65) _ := .writec ran
  have wrote : Described.wrote ⟨t,fd,nothing,0⟩ 65 (r1,fd1) u = ⟨u,fd1,_,fd.block⟩ := if_neg accepted
  rw [wrote,block] at step
  have target : (fd1.fdsPos+511).toNat/512 = 1 := by rw [pos]; rfl
  have here : fd1.block = 0 := by unfold FileDesc.block; rw [pos]; rfl
  obtain ⟨fd2,v,moved,clean,⟨role',free',ext⟩,kept⟩ := returns_iff.mp (seek_dirty_misplaces 511
    writing.layout writing.here dirty (by rw [target,here]; decide) (by rw [target]; exact Or.inl (by decide))
    (Nat.le_trans (needed_le _ _ _) many))
  refine ⟨s,r,fd,t,_,_,_,equal,opened,Run.single step,rfl,.seek moved,fun back => ?_⟩
  have stored := back.home dirty clean
  have mapped := writing.coherent.dirty dirty
  rw [here] at mapped
  have content : v.fblock 1 0 = zeros 8 512 := by
    rw [← file,kept 0 (by rw [target]; decide),file,empty]
  unfold Machine.fblock at content
  rw [← file,ext.kept _ _ writing.here mapped,if_neg mapped] at content
  have buffer : fd1.fdsBuf = zeros 8 512 := stored.symm.trans content
  have byte := writing.content 0
  rw [Function.update_self,Machine.viewAt,here,if_pos rfl,buffer,cell_zeros] at byte
  exact absurd byte (by decide)

end AsePlusPlus
