import Mathlib.Data.List.TakeWhile
import AsePlusPlus.Formatting
import AsePlusPlus.Overrun

namespace AsePlusPlus
open Words Program

variable {role role' : Nat → Role} {free free' : List Nat} {s t u : Machine} {fd : FileDesc} {content : Nat → Byte}
variable {text : List Byte} {type : FileType} {fuel : Nat}

-- writec_ifile of each byte in order.
def writecAll : List Byte → FileDesc → M FileDesc
  | [],fd => return fd
  | c :: rest,fd => do
    let (_,fd) ← writecIfile fd c
    writecAll rest fd

-- readc_ifile until it returns READ_EOF.
def readcAll : Nat → FileDesc → M (List Byte)
  | 0,_ => stop .loop
  | fuel+1,fd => do
    let (c,fd) ← readcIfile fd
    if c = readEof then
      return []
    else
      let rest ← readcAll fuel fd
      return c.setWidth 8 :: rest

def roundTrip (fuel : Nat) (type : FileType) (text : List Byte) : M (List Byte) := do
  let inumber ← createIfile type
  let (_,fd) ← openIfile inumber
  let fd ← writecAll text fd
  let _ ← closeIfile fd
  let (_,fd) ← openIfile inumber
  readcAll fuel fd

-- Blocs of a file of n bytes: its inode, its data and its index blocs.
def blocsOf (n : Nat) : Nat :=
  let data := (n+511)/512
  1+data+(if data ≤ 124 then 0 else 1)+(if data ≤ 252 then 0 else 1+(data-252+127)/128)

-- What comes back from a file whose size is the last position written.
def readable (text : List Byte) : List Byte := if text = [] then [0] else text.takeWhile (· ≠ eofByte)

theorem Writing.writecAll (writing : Writing s t role role' free free' fd content) (text : List Byte)
    (near : fd.fdsPos.toNat+text.length < 63488) (enough : fd.cost t text.length ≤ free'.length) :
    Returns (writecAll text fd) t fun fd' u => Streamed s t role free free' fd content text fd' u := by
  induction text generalizing fd t role' free' content with
  | nil => exact .nil writing
  | cons c rest ih =>
      rw [List.length_cons] at near enough
      rw [AsePlusPlus.writecAll,Returns,runs_bind]
      refine (writing.byte c (by omega) (Nat.le_trans (price_le t fd rest.length) enough)).mono ?_ (fun _ _ => id)
      intro result u post
      obtain ⟨r,fd'⟩ := result
      obtain ⟨_,role'',free'',byted⟩ := post
      have next := byted.stepped.position
      have left := byted.left
      have cost := byted.cost rest.length
      refine (ih byted.writing (by omega) (by omega)).mono ?_ (fun _ _ => id)
      exact fun fd'' v streamed => byted.streamed streamed

theorem Writing.writecAll_lost (writing : Writing s t role role' free free' fd content) (synced : Synced t)
    (text : List Byte) (far : 63488 ≤ fd.fdsPos.toNat+text.length) (near : fd.fdsPos.toNat < 63488)
    (enough : fd.cost t (63488-fd.fdsPos.toNat) ≤ free'.length) :
    Runs (AsePlusPlus.writecAll text fd) t (fun _ _ => False) (fun e _ => e = .seek) := by
  induction text generalizing fd t role' free' content with
  | nil => exact absurd far (by rw [List.length_nil]; omega)
  | cons c rest ih =>
      rw [List.length_cons] at far
      obtain ⟨n,count⟩ : ∃ n, 63488-fd.fdsPos.toNat = n+1 := ⟨63487-fd.fdsPos.toNat,by omega⟩
      rw [count] at enough
      have price := Nat.le_trans (price_le t fd n) enough
      rw [AsePlusPlus.writecAll,runs_bind]
      by_cases last : fd.fdsPos.toNat = 63487
      · exact (writing.writec_lost synced c last price).mono (fun _ _ => False.elim) (fun _ _ => And.left)
      refine (writing.byte c (by omega) price).mono ?_ (fun _ _ => False.elim)
      intro result u post
      obtain ⟨r,fd'⟩ := result
      obtain ⟨_,role'',free'',byted⟩ := post
      have next := byted.stepped.position
      have left := byted.left
      have cost := byted.cost n
      dsimp only at next cost ⊢
      have rest : 63488-fd'.fdsPos.toNat = n := by omega
      exact ih byted.writing (byted.sound.synced synced) (by omega) (by omega) (by rw [rest]; omega)

-- Reading on, up to the recorded size or to the first byte taken for READ_EOF.
theorem Writing.readcAll (writing : Writing s t role role' free free' fd content) (clean : fd.fdsDirty = false)
    (near : fd.fdsSize.toNat+1 < 63488) :
    Runs (readcAll fuel fd) t
      (fun bytes _ => bytes = (span content fd.fdsPos.toNat (fd.fdsSize.toNat+1-fd.fdsPos.toNat)).takeWhile (· ≠ eofByte))
      (fun _ _ => fuel ≤ fd.fdsSize.toNat+1-fd.fdsPos.toNat) := by
  induction fuel generalizing fd t with
  | zero => exact Nat.zero_le _
  | succ fuel ih =>
      rw [AsePlusPlus.readcAll,runs_bind]
      by_cases past : fd.fdsSize.toNat < fd.fdsPos.toNat
      · rw [runs_readc_end past]
        dsimp only
        rw [if_pos rfl,Nat.sub_eq_zero_of_le past]
        rfl
      obtain ⟨n,count⟩ : ∃ n, fd.fdsSize.toNat+1-fd.fdsPos.toNat = n+1 := ⟨fd.fdsSize.toNat-fd.fdsPos.toNat,by omega⟩
      refine Runs.of_returns (writing.next clean (by omega) (by omega)) ?_
      intro result u post
      obtain ⟨c,fd'⟩ := result
      obtain ⟨after,_,value,scanned⟩ := post
      dsimp only at after value scanned ⊢
      rw [count,span_succ]
      by_cases stop : content fd.fdsPos.toNat = eofByte
      · rw [if_pos (value.trans ((signExtend_eof _).mpr stop)),List.takeWhile_cons_of_neg (by simp [stop])]
        rfl
      · rw [if_neg (fun wrong => stop ((signExtend_eof _).mp (value.symm.trans wrong))),
          List.takeWhile_cons_of_pos (by simp [stop]),runs_bind]
        have rest : fd'.fdsSize.toNat+1-fd'.fdsPos.toNat = n := by
          rw [scanned.size,scanned.position]
          omega
        have more := ih after scanned.clean (by rw [scanned.size]; exact near)
        rw [rest,scanned.position] at more
        refine more.mono ?_ ?_
        · intro bytes v same
          obtain rfl := same
          rw [runs_pure,value,signExtend_back]
        · exact fun _ _ few => Nat.succ_le_succ few

-- A new file as its writer sees it after the first two calls.
theorem created_open (type : FileType) (layout : Layout s role (b :: rest)) :
    ∃ i : Word, createIfile type s = (.ok i,s.claimed (Inode.fresh type).encode) ∧
      Returns (openIfile i) (s.claimed (Inode.fresh type).encode) fun r t => Writing (s.claimed (Inode.fresh type).encode) t
        (Function.update role b .inode) (Function.update role b .inode) rest rest r.2 (fun _ => 0) ∧
        Sound s t ∧ r.2.fdsInumber = i ∧ r.2.fdsSize = 0 ∧ r.2.fdsPos = 0 ∧ r.2.fdsDirty = false := by
  have ran := Runs.equal fun Q => runs_createIfile (Q := Q) type layout
  have after := (createInode_carries type layout).layout
  have head := layout.chain.head
  have node : Function.update role b .inode s.super.premierLibre.toNat = .inode := by
    rw [head,Function.update_self]
  have blank : (s.claimed (Inode.fresh type).encode).byteAt s.super.premierLibre.toNat = fun _ => 0 := by
    funext q
    unfold Machine.byteAt Machine.fblock
    rw [head,createInode_lookup type layout,if_pos rfl,cell_zeros]
  have size : (s.claimed (Inode.fresh type).encode).entryAt s.super.premierLibre.toNat 1 = 0 := by
    rw [head,createInode_entry type layout,fresh_word type (by decide) (by decide)]
  refine ⟨_,ran,(Writing.open after _ node).mono ?_ (fun _ _ => id)⟩
  intro r t post
  obtain ⟨writing,quiet,_,inumber,size',pos,clean⟩ := post
  rw [blank] at writing
  exact ⟨writing,(createInode_sound type layout).trans quiet.sound,inumber,size'.trans size,pos,clean⟩

-- From the start, no more than one bloc for each 512 bytes.
theorem cost_start (s : Machine) (pos : fd.fdsPos = 0) (clean : fd.fdsDirty = false) (n : Nat) :
    fd.cost s n ≤ (n+511)/512 := by
  have start : fd.fdsPos.toNat = 0 := by rw [pos]; rfl
  have block : fd.block = 0 := by unfold FileDesc.block; rw [start]
  have price := price_direct s clean (by omega)
  have holes : ∀ f k, s.holes fd.file f k ≤ k := fun f k =>
    Nat.le_trans List.countP_le_length (Nat.le_of_eq List.length_range')
  have rest := holes (fd.block+1) ((fd.fdsPos.toNat+n-1)/512-fd.block)
  unfold FileDesc.cost
  split
  · exact Nat.zero_le _
  · rw [price]
    rw [start,block] at rest ⊢
    split <;> omega

theorem blocsOf_least (n : Nat) : 1+(n+511)/512 ≤ blocsOf n := by
  unfold blocsOf
  dsimp only
  omega

-- A descriptor of a file that a text was written to.
structure Reopened (o s : Machine) (role : Nat → Role) (free : List Nat) (text : List Byte) (fd : FileDesc) : Prop
    extends Writing o s role role free free fd (splice (fun _ => 0) 0 text) where
  size : fd.fdsSize.toNat = text.length-1
  start : fd.fdsPos = 0
  clean : fd.fdsDirty = false
  opened : ∃ inumber t status, openIfile inumber t = (.ok (status,fd),s)

-- A text that stays below the last byte of the direct branch, up to its reading.
theorem runs_reopened (type : FileType) (text : List Byte) (layout : Layout s role free) (near : text.length < 63488)
    (room : blocsOf text.length ≤ free.length) : Returns (do
      let inumber ← createIfile type
      let (_,fd) ← openIfile inumber
      let fd ← writecAll text fd
      let _ ← closeIfile fd
      openIfile inumber) s fun r t => ∃ o role' free', Reopened o t role' free' text r.2 := by
  have least := blocsOf_least text.length
  obtain ⟨b,rest,rfl⟩ := List.exists_cons_of_length_pos (Nat.lt_of_lt_of_le (by omega) room)
  rw [List.length_cons] at room
  obtain ⟨i,created,opened⟩ := created_open type layout
  rw [Returns,runs_bind]
  refine Runs.of_eq created ?_
  rw [runs_bind]
  refine Runs.of_returns opened ?_
  intro result t post
  obtain ⟨r,fd⟩ := result
  obtain ⟨writing,_,inumber,size,pos,clean⟩ := post
  dsimp only at writing inumber size pos clean ⊢
  have start : fd.fdsPos.toNat = 0 := by rw [pos]; rfl
  rw [runs_bind]
  refine Runs.of_returns (writing.writecAll text (by omega) (Nat.le_trans (cost_start t pos clean _) (by omega))) ?_
  intro fd' u post
  obtain ⟨⟨role',free',written,_⟩,_,stepped,_,_⟩ := post
  have file : fd'.file = i.toNat := by rw [stepped.file,FileDesc.file,inumber]
  have reach : Supported fd'.block := Or.inl (by unfold FileDesc.block; rw [stepped.position]; omega)
  have node := written.here
  rw [file] at node
  rw [runs_bind]
  refine Runs.of_returns (written.close reach) ?_
  intro _ v post
  obtain ⟨closed,_,_⟩ := post
  obtain ⟨⟨r',fd3⟩,w,reopened,again,_,_,_,size',pos',clean'⟩ := returns_iff.mp (Writing.open closed.layout i node)
  refine Runs.of_eq reopened ?_
  dsimp only at again size' pos' clean' ⊢
  have origin := written.origin
  rw [file] at closed origin
  have content : v.byteAt i.toNat = splice (fun _ => 0) 0 text := by
    funext q
    rw [closed.content,start]
  rw [content] at again
  refine ⟨_,_,_,again,?_,pos',clean',i,v,r',reopened⟩
  rw [size',closed.sizes _ origin,if_pos rfl,stepped.size,size,start]
  cases text with
  | nil => rfl
  | cons c more =>
      rw [List.length_cons,if_neg (by omega)]
      exact (Nat.zero_max _).trans (Nat.zero_add _ ▸ rfl)

theorem roundTrip_near (type : FileType) (text : List Byte) (fuel : Nat) (layout : Layout s role free) (near : text.length < 63488) (room : blocsOf text.length ≤ free.length) :
    Runs (roundTrip fuel type text) s (fun bytes _ => bytes = readable text) (fun _ _ => fuel ≤ max 1 text.length) := by
  have split : Runs (do
      let r ← (do
        let inumber ← createIfile type
        let (_,fd) ← openIfile inumber
        let fd ← writecAll text fd
        let _ ← closeIfile fd
        openIfile inumber)
      readcAll fuel r.2) s (fun bytes _ => bytes = readable text) (fun _ _ => fuel ≤ max 1 text.length) := by
    rw [runs_bind]
    refine Runs.of_returns (runs_reopened type text layout near room) ?_
    intro r t post
    obtain ⟨_,_,_,again⟩ := post
    have start : r.2.fdsPos.toNat = 0 := by rw [again.start]; rfl
    have size := again.size
    refine (again.readcAll again.clean (by omega)).mono ?_ ?_
    · intro bytes _ same
      obtain rfl := same
      rw [start,size]
      unfold readable
      by_cases none : text = []
      · subst none
        rfl
      · have long := List.length_pos_iff.mpr none
        rw [if_neg none,show text.length-1+1-0 = text.length by omega,span_splice]
    · intro _ _ few
      omega
  simpa only [roundTrip,runs_bind] using split

theorem roundTrip_far (layout : Layout s role free) (synced : Synced s) (far : 63488 ≤ text.length)
    (room : blocsOf text.length ≤ free.length) :
    Runs (roundTrip fuel type text) s (fun _ _ => False) (fun e _ => e = .seek) := by
  have least := blocsOf_least text.length
  obtain ⟨b,rest,rfl⟩ := List.exists_cons_of_length_pos (Nat.lt_of_lt_of_le (by omega) room)
  rw [List.length_cons] at room
  obtain ⟨i,created,opened⟩ := created_open type layout
  unfold roundTrip
  rw [runs_bind]
  refine Runs.of_eq created ?_
  rw [runs_bind]
  refine Runs.of_returns opened ?_
  intro result t post
  obtain ⟨r,fd⟩ := result
  obtain ⟨writing,sound,_,_,pos,clean⟩ := post
  dsimp only at writing pos clean ⊢
  have start : fd.fdsPos.toNat = 0 := by rw [pos]; rfl
  rw [runs_bind]
  refine (writing.writecAll_lost (sound.synced synced) text (by omega) (by omega) ?_).mono (fun _ _ => False.elim)
    (fun _ _ => id)
  exact Nat.le_trans (cost_start t pos clean _) (by omega)

theorem readable_iff (text : List Byte) : readable text = text ↔ text ≠ [] ∧ eofByte ∉ text := by
  unfold readable
  by_cases none : text = []
  · subst none
    simp
  · rw [if_neg none,List.takeWhile_eq_self_iff]
    simp only [none,ne_eq,not_false_eq_true,true_and,decide_eq_true_eq]
    exact ⟨fun all member => all _ member rfl,fun absent c member same => absent (same ▸ member)⟩

-- The text comes back exactly if it is not empty, holds no byte that reads as
-- READ_EOF and leaves the last byte of the direct blocs alone.
theorem round_trip_exact (layout : Layout s role free) (synced : Synced s) (type : FileType) (text : List Byte)
    (room : blocsOf text.length ≤ free.length) :
    (∃ fuel, Returns (roundTrip fuel type text) s fun bytes _ => bytes = text) ↔
      text ≠ [] ∧ eofByte ∉ text ∧ text.length < 124*512 := by
  rw [← and_assoc,← readable_iff]
  by_cases near : text.length < 124*512
  · have spec := fun fuel => roundTrip_near type text fuel layout near room
    constructor
    · intro post
      obtain ⟨fuel,ran⟩ := post
      obtain ⟨bytes,t,equal,rfl⟩ := returns_iff.mp ran
      exact ⟨((spec fuel).result equal).symm,near⟩
    · intro post
      obtain ⟨same,_⟩ := post
      refine ⟨max 1 text.length+1,(spec _).mono ?_ (fun _ _ few => by omega)⟩
      intro bytes _ same
      obtain rfl := same
      exact same
  · constructor
    · intro post
      obtain ⟨fuel,ran⟩ := post
      obtain ⟨bytes,t,equal,_⟩ := returns_iff.mp ran
      exact ((roundTrip_far layout synced (Nat.le_of_not_lt near) room).result equal).elim
    · intro post
      obtain ⟨_,wrong⟩ := post
      exact absurd wrong near

theorem round_trip_exact_letter : ∃ s, initSuper 0 0 (zeros 8 32) (recordedDisk (volumeOf 64)) = (.ok (),s) ∧
    ∃ fuel, Returns (roundTrip fuel .file [65]) s fun bytes _ => bytes = [65] := by
  obtain ⟨s,equal,fresh,size⟩ := volumeOf_fresh (n := 64) (by decide) (by decide) 0 (zeros 8 32)
  exact ⟨s,equal,(round_trip_exact fresh.layout fresh.synced .file [65] (by
    rw [List.length_range',size]
    decide)).mpr ⟨by decide,by decide,by decide⟩⟩

-- The empty file reads back as one NUL.
theorem round_trip_empty : ∃ s, initSuper 0 0 (zeros 8 32) (recordedDisk (volumeOf 64)) = (.ok (),s) ∧
    Returns (roundTrip 2 .file []) s (fun bytes _ => bytes = [0]) ∧
    ¬ ∃ fuel, Returns (roundTrip fuel .file []) s fun bytes _ => bytes = [] := by
  obtain ⟨s,equal,fresh,size⟩ := volumeOf_fresh (n := 64) (by decide) (by decide) 0 (zeros 8 32)
  have spec := fun fuel => roundTrip_near .file [] fuel fresh.layout (by decide)
    (by rw [List.length_range',size]; decide)
  refine ⟨s,equal,(spec 2).mono (fun _ _ => id) (fun _ _ few => absurd few (by decide)),?_⟩
  intro post
  obtain ⟨fuel,ran⟩ := post
  obtain ⟨bytes,t,equal,rfl⟩ := returns_iff.mp ran
  exact absurd ((spec fuel).result equal) (by decide)

end AsePlusPlus
