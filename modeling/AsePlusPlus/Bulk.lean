import AsePlusPlus.Calm
import AsePlusPlus.Stream
import AsePlusPlus.RoundTrip

namespace AsePlusPlus
open Words Program

-- `count` successive calls of readc_ifile, with the bytes that they deliver as
-- long as the file is not at its end.
def readSeries : Nat → FileDesc → M (List Byte × FileDesc)
  | 0,fd => return ([],fd)
  | count+1,fd => do
      let (c,next) ← readcIfile fd
      let (rest,last) ← readSeries count next
      return (if fd.fdsSize < fd.fdsPos then rest else c.setWidth 8 :: rest,last)

-- What the caller of read_ifile would see if it made the calls itself.
def readEach (fd : FileDesc) (buf : Vector Byte nbyte) : M (Word × Vector Byte nbyte × FileDesc) := do
  let (chars,fd) ← readSeries nbyte fd
  return (BitVec.ofNat 32 chars.length,build nbyte fun i => chars[i]?.getD (cell buf i),fd)

def ReadEnds (fd : FileDesc) (s : Machine) : Prop := ∃ r t, readcIfile fd s = (.ok r,t) ∧ r.1 = readEof

structure Agrees (s : Machine) (fd : FileDesc) (buf : Vector Byte nbyte) : Prop where
  eof : (∃ r t, readIfile fd buf s = (.ok r,t) ∧ r.1 = readEof) ↔ ReadEnds fd s
  bytes : ¬ ReadEnds fd s → readIfile fd buf s = readEach fd buf s

-- Descriptors that were opened and since then only moved or read through; the
-- disk may change between the calls.
inductive ReadOnly : FileDesc → Prop where
  | opened : openIfile inumber s = (.ok (status,fd),t) → ReadOnly fd
  | sought : ReadOnly fd → seekIfile fd offset s = (.ok fd',t) → ReadOnly fd'
  | readc : ReadOnly fd → readcIfile fd s = (.ok (c,fd'),t) → ReadOnly fd'
  | read {nbyte : Nat} {buf buf' : Vector Byte nbyte} : ReadOnly fd → readIfile fd buf s = (.ok (count,buf',fd'),t) → ReadOnly fd'

variable {fd fd' : FileDesc} {s t : Machine} {n j k : Nat}

-- The buffer that a seek into a bloc of the file brings.
def fetch (inumber fbloc : Word) : M Sector := do
  let vbloc ← vblocOfFbloc inumber fbloc false
  loadBuffer vbloc

theorem calm_fetch (inumber fbloc : Word) : Calm s (fetch inumber fbloc) (fun _ => True) :=
  steady_bind (calm_vbloc _ _) fun _ _ => calm_loadBuffer _

-- The byte that lies `j` positions behind the cursor: in the buffer, or in a
-- bloc that may not be there to be read.
def FileDesc.ahead (s : Machine) (fd : FileDesc) (j : Nat) : Option Byte :=
  if iblocOfPos fd.fdsPos + j < 512 then
    some (cell fd.fdsBuf (iblocOfPos fd.fdsPos + j))
  else
    match (fetch fd.fdsInumber (blocOfPos (fd.fdsPos + BitVec.ofNat 32 j)) s).1 with
    | .ok buf => some (cell buf (iblocOfPos (fd.fdsPos + BitVec.ofNat 32 j)))
    | .error _ => none

theorem ahead_here (s : Machine) (fd : FileDesc) : fd.ahead s 0 = some (cell fd.fdsBuf (iblocOfPos fd.fdsPos)) := by
  have inside : iblocOfPos fd.fdsPos + 0 < 512 := Nat.mod_lt _ (by decide)
  unfold FileDesc.ahead
  rw [if_pos inside,Nat.add_zero]

-- A descriptor without anything to flush.
theorem seek_clean (clean : fd.fdsDirty = false) (offset : Word) :
    seekIfile fd offset = (do
      if blocOfPos (fd.fdsPos+offset) ≠ blocOfPos fd.fdsPos then
        let buf ← fetch fd.fdsInumber (blocOfPos (fd.fdsPos+offset))
        return {fd with fdsPos := fd.fdsPos+offset,fdsBuf := buf}
      else
        return {fd with fdsPos := fd.fdsPos+offset}) := by
  unfold seekIfile
  dsimp only
  split
  · unfold flushIfile fetch
    rw [if_neg (by rw [clean]; decide)]
    funext s
    simp only [bind,pure]
    rcases vblocOfFbloc fd.fdsInumber (blocOfPos (fd.fdsPos+offset)) false s with ⟨_ | _,_⟩ <;> rfl
  · rfl

theorem seek_keeps_clean (clean : fd.fdsDirty = false) (offset : Word) (s : Machine) :
    Runs (seekIfile fd offset) s (fun fd' _ => fd'.fdsDirty = false) (fun _ _ => True) := by
  rw [seek_clean clean]
  split
  · rw [runs_bind]
    exact Runs.always fun _ _ => clean
  · exact clean

theorem readc_keeps_clean (clean : fd.fdsDirty = false) (s : Machine) :
    Runs (readcIfile fd) s (fun r _ => r.2.fdsDirty = false) (fun _ _ => True) := by
  unfold readcIfile
  split
  · exact clean
  · rw [runs_bind]
    exact seek_keeps_clean clean 1 s

theorem readChars_keeps_clean (clean : fd.fdsDirty = false) (count : Nat) (s : Machine) :
    Runs (readChars count fd) s (fun r _ => r.2.fdsDirty = false) (fun _ _ => True) := by
  induction count generalizing fd s with
  | zero => exact clean
  | succ count ih =>
      rw [readChars,runs_bind]
      apply (readc_keeps_clean clean s).mono _ fun _ _ => id
      intro r t next
      rw [runs_ite]
      split
      · exact next
      · rw [runs_bind]
        exact ih next t

theorem readIfile_keeps_clean {nbyte : Nat} (clean : fd.fdsDirty = false) (buf : Vector Byte nbyte) (s : Machine) :
    Runs (readIfile fd buf) s (fun r _ => r.2.2.fdsDirty = false) (fun _ _ => True) := by
  unfold readIfile
  split
  · exact clean
  · rw [runs_bind]
    exact readChars_keeps_clean clean nbyte s

theorem ReadOnly.clean (opened : ReadOnly fd) : fd.fdsDirty = false := by
  induction opened with
  | opened equal =>
      refine Runs.result (E := fun _ _ => True) (Q := fun r _ => r.2.fdsDirty = false) ?_ equal
      simp only [openIfile,runs_bind]
      exact Runs.always fun _ _ => Runs.always fun _ _ => Runs.always fun _ _ => rfl
  | sought _ equal ih => exact (seek_keeps_clean ih _ _).result equal
  | readc _ equal ih => exact (readc_keeps_clean ih _).result equal
  | read _ equal ih =>
      exact (readIfile_keeps_clean ih _ _).result equal

-- The descriptor behind the byte that was read.
structure Onward (s : Machine) (fd : FileDesc) (t : Machine) (fd' : FileDesc) : Prop where
  clean : fd'.fdsDirty = false
  size : fd'.fdsSize = fd.fdsSize
  position : fd'.fdsPos = fd.fdsPos+1
  ahead : ∀ j, fd'.ahead t j = fd.ahead s (j+1)

theorem readc_ended (ended : fd.fdsSize < fd.fdsPos) (s : Machine) : readcIfile fd s = (.ok (readEof,fd),s) := by
  unfold readcIfile
  rw [if_pos ended]
  rfl

-- Positions in a bloc; the words wrap around at the end of one.
theorem ibloc_add (pos : Word) (j : Nat) : iblocOfPos (pos + BitVec.ofNat 32 j) = (iblocOfPos pos + j) % 512 := by
  unfold iblocOfPos
  rw [BitVec.toNat_add,BitVec.toNat_ofNat]
  omega

theorem bloc_add (pos : Word) (inside : iblocOfPos pos + j < 512) : blocOfPos (pos + BitVec.ofNat 32 j) = blocOfPos pos := by
  apply BitVec.eq_of_toNat_eq
  unfold iblocOfPos at inside
  rw [blocOfPos_toNat,blocOfPos_toNat,BitVec.toNat_add,BitVec.toNat_ofNat]
  have small := pos.isLt
  omega

theorem bloc_across (pos : Word) (last : ¬ iblocOfPos pos + 1 < 512) : blocOfPos (pos+1) ≠ blocOfPos pos := by
  intro same
  have equal := congrArg BitVec.toNat same
  unfold iblocOfPos at last
  rw [blocOfPos_toNat,blocOfPos_toNat,BitVec.toNat_add,show (1 : Word).toNat = 1 from rfl] at equal
  have small := pos.isLt
  omega

theorem pos_succ (pos : Word) (j : Nat) : pos + 1 + BitVec.ofNat 32 j = pos + BitVec.ofNat 32 (j+1) := by
  rw [BitVec.ofNat_add,BitVec.add_comm (BitVec.ofNat 32 j),← BitVec.add_assoc]
  rfl

theorem fetch_same (same : Same s t) (inumber fbloc : Word) : (fetch inumber fbloc t).1 = (fetch inumber fbloc s).1 :=
  (calm_fetch inumber fbloc).agree same (.refl s)

theorem Onward.inside (clean : fd.fdsDirty = false) (here : iblocOfPos fd.fdsPos + 1 < 512) (s : Machine) :
    Onward s fd s {fd with fdsPos := fd.fdsPos+1} := by
  refine ⟨clean,rfl,rfl,fun j => ?_⟩
  have next : iblocOfPos (fd.fdsPos+1) = iblocOfPos fd.fdsPos + 1 :=
    (ibloc_add fd.fdsPos 1).trans (Nat.mod_eq_of_lt here)
  simp only [FileDesc.ahead,next,pos_succ]
  rw [Nat.add_assoc,Nat.add_comm 1 j]

theorem Onward.across (clean : fd.fdsDirty = false) (last : ¬ iblocOfPos fd.fdsPos + 1 < 512)
    (brought : fetch fd.fdsInumber (blocOfPos (fd.fdsPos+1)) s = (.ok buf,t)) :
    Onward s fd t {fd with fdsPos := fd.fdsPos+1,fdsBuf := buf} := by
  have same : Same s t := by
    have stays := (calm_fetch (s := s) fd.fdsInumber (blocOfPos (fd.fdsPos+1))).stays (.refl s)
    rwa [brought] at stays
  have start : iblocOfPos (fd.fdsPos+1) = 0 := by
    have first := ibloc_add fd.fdsPos 1
    have low : iblocOfPos fd.fdsPos < 512 := Nat.mod_lt _ (by decide)
    exact first.trans (by omega)
  refine ⟨clean,rfl,rfl,fun j => ?_⟩
  have beyond : ¬ iblocOfPos fd.fdsPos + (j+1) < 512 := by omega
  simp only [FileDesc.ahead,start,pos_succ,if_neg beyond,Nat.zero_add]
  split
  · rename_i small
    have there : blocOfPos (fd.fdsPos + BitVec.ofNat 32 (j+1)) = blocOfPos (fd.fdsPos+1) := by
      rw [← pos_succ]
      exact bloc_add (fd.fdsPos+1) (by rw [start,Nat.zero_add]; exact small)
    have index : iblocOfPos (fd.fdsPos + BitVec.ofNat 32 (j+1)) = j := by
      rw [← pos_succ,ibloc_add,start,Nat.zero_add,Nat.mod_eq_of_lt small]
    rw [there,brought,index]
  · rw [fetch_same same]

theorem ahead_across (last : ¬ iblocOfPos fd.fdsPos + 1 < 512) :
    fd.ahead s 1 = match (fetch fd.fdsInumber (blocOfPos (fd.fdsPos+1)) s).1 with
      | .ok buf => some (cell buf (iblocOfPos (fd.fdsPos+1)))
      | .error _ => none := if_neg last

-- A read that is not at the end: it fails with the bloc that it moves into, or
-- delivers the byte under the cursor.
theorem readc_blocked (clean : fd.fdsDirty = false) (before : ¬ fd.fdsSize < fd.fdsPos) (blocked : fd.ahead s 1 = none) :
    ∃ e t, readcIfile fd s = (.error e,t) := by
  by_cases last : iblocOfPos fd.fdsPos + 1 < 512
  · unfold FileDesc.ahead at blocked
    rw [if_pos last] at blocked
    cases blocked
  · rw [ahead_across last] at blocked
    cases brought : fetch fd.fdsInumber (blocOfPos (fd.fdsPos+1)) s with
    | mk result t =>
        rw [brought] at blocked
        cases result with
        | ok buf => cases blocked
        | error e =>
            refine ⟨e,t,Runs.stops fun E => ?_⟩
            unfold readcIfile
            rw [if_neg before,runs_bind,seek_clean clean,if_pos (bloc_across fd.fdsPos last),runs_bind]
            exact runs_error brought

theorem readc_next (clean : fd.fdsDirty = false) (before : ¬ fd.fdsSize < fd.fdsPos) (free : fd.ahead s 1 = some c) :
    ∃ fd' t, readcIfile fd s = (.ok ((cell fd.fdsBuf (iblocOfPos fd.fdsPos)).signExtend 32,fd'),t) ∧ Onward s fd t fd' := by
  by_cases here : iblocOfPos fd.fdsPos + 1 < 512
  · refine ⟨_,s,Runs.equal fun Q => ?_,.inside clean here s⟩
    have stays : ¬ blocOfPos (fd.fdsPos+1) ≠ blocOfPos fd.fdsPos := not_not.mpr (bloc_add fd.fdsPos here)
    unfold readcIfile
    rw [if_neg before,Returns,runs_bind,seek_clean clean,if_neg stays]
    rfl
  · rw [ahead_across here] at free
    cases brought : fetch fd.fdsInumber (blocOfPos (fd.fdsPos+1)) s with
    | mk result t =>
        rw [brought] at free
        cases result with
        | error e => cases free
        | ok buf =>
            refine ⟨_,t,Runs.equal fun Q => ?_,.across clean here brought⟩
            unfold readcIfile
            rw [if_neg before,Returns,runs_bind,seek_clean clean,if_pos (bloc_across fd.fdsPos here),runs_bind]
            exact runs_eq brought

-- The first `j` reads each return a byte of the file.
def Traversed (s : Machine) (fd : FileDesc) (j : Nat) : Prop :=
  ∀ i < j, ¬ fd.fdsSize < fd.fdsPos + BitVec.ofNat 32 i ∧ (fd.ahead s (i+1)).isSome

-- No byte that `n` reads come to is taken for READ_EOF.
def Plain (s : Machine) (fd : FileDesc) (n : Nat) : Prop :=
  ∀ j < n, Traversed s fd (j+1) → fd.ahead s j ≠ some eofByte

-- `n` reads deliver `k` bytes.
def Delivers (s : Machine) (fd : FileDesc) (n k : Nat) : Prop :=
  k ≤ n ∧ Traversed s fd k ∧ (k = n ∨ fd.fdsSize < fd.fdsPos + BitVec.ofNat 32 k)

theorem pos_zero (pos : Word) : pos + BitVec.ofNat 32 0 = pos := BitVec.add_zero pos

section onward
variable (onward : Onward s fd t fd') (before : ¬ fd.fdsSize < fd.fdsPos) (free : (fd.ahead s 1).isSome)
include onward

theorem Onward.next_pos (j : Nat) : fd'.fdsPos + BitVec.ofNat 32 j = fd.fdsPos + BitVec.ofNat 32 (j+1) := by
  rw [onward.position]
  exact pos_succ fd.fdsPos j

include before free

theorem Onward.traversed : Traversed s fd (j+1) ↔ Traversed t fd' j := by
  constructor
  · intro went i small
    have later := went (i+1) (by omega)
    rw [onward.size,onward.next_pos,onward.ahead]
    exact later
  · intro went i small
    cases i with
    | zero =>
        rw [pos_zero]
        exact ⟨before,free⟩
    | succ i =>
        have later := went i (by omega)
        rw [onward.size,onward.next_pos,onward.ahead] at later
        exact later

theorem Onward.plain : Plain s fd (n+1) ↔ fd.ahead s 0 ≠ some eofByte ∧ Plain t fd' n := by
  constructor
  · intro plain
    refine ⟨plain 0 (by omega) ((onward.traversed before free).mpr fun i small => absurd small (Nat.not_lt_zero i)),?_⟩
    intro j small went
    rw [onward.ahead]
    exact plain (j+1) (by omega) ((onward.traversed before free).mpr went)
  · intro both j small went
    cases j with
    | zero => exact both.1
    | succ j =>
        rw [← onward.ahead]
        exact both.2 j (by omega) ((onward.traversed before free).mp went)

theorem Onward.delivers : Delivers s fd (n+1) (k+1) ↔ Delivers t fd' n k := by
  unfold Delivers
  rw [onward.traversed before free,onward.size,onward.next_pos,Nat.succ_le_succ_iff,Nat.succ.injEq]

end onward

-- The two loops, step by step.
section loops
variable (clean : fd.fdsDirty = false)

theorem series_ended (ended : fd.fdsSize < fd.fdsPos) (n : Nat) (s : Machine) : readSeries n fd s = (.ok ([],fd),s) := by
  induction n with
  | zero => rfl
  | succ n ih =>
      simp only [readSeries,bind,readc_ended ended s,ih,if_pos ended]
      rfl

theorem chars_ended (ended : fd.fdsSize < fd.fdsPos) (n : Nat) (s : Machine) : readChars n fd s = (.ok ([],fd),s) := by
  cases n with
  | zero => rfl
  | succ n =>
      simp only [readChars,bind,readc_ended ended s]
      rfl

theorem series_next (before : ¬ fd.fdsSize < fd.fdsPos) (read : readcIfile fd s = (.ok (c,fd'),t)) (n : Nat) :
    readSeries (n+1) fd s = ((readSeries n fd' >>= fun r => pure (c.setWidth 8 :: r.1,r.2)) : M _) t := by
  simp only [readSeries,bind,read,if_neg before]

theorem series_next_ok (before : ¬ fd.fdsSize < fd.fdsPos) (read : readcIfile fd s = (.ok (c,fd'),t)) :
    readSeries (n+1) fd s = (.ok r,u) ↔ ∃ q, readSeries n fd' t = (.ok q,u) ∧ r = (c.setWidth 8 :: q.1,q.2) := by
  rw [series_next before read]
  simp only [bind]
  cases readSeries n fd' t with
  | mk result v =>
      cases result with
      | error e =>
          constructor
          · intro equal
            cases equal
          · intro found
            obtain ⟨_,equal,_⟩ := found
            cases equal
      | ok q =>
          constructor
          · intro equal
            cases equal
            exact ⟨q,rfl,rfl⟩
          · intro found
            obtain ⟨q',equal,rfl⟩ := found
            cases equal
            rfl

theorem chars_next (other : c ≠ readEof) (read : readcIfile fd s = (.ok (c,fd'),t)) (n : Nat) :
    readChars (n+1) fd s = ((readChars n fd' >>= fun r => pure (c.setWidth 8 :: r.1,r.2)) : M _) t := by
  refine Eq.trans (b := (if c = readEof then pure ([],fd') else
    readChars n fd' >>= fun r => pure (c.setWidth 8 :: r.1,r.2) : M _) t) ?_ (congrFun (if_neg other) t)
  simp only [readChars,bind,read]

theorem series_blocked (read : readcIfile fd s = (.error e,t)) (n : Nat) : readSeries (n+1) fd s = (.error e,t) := by
  simp only [readSeries,bind,read]

theorem chars_blocked (read : readcIfile fd s = (.error e,t)) (n : Nat) : readChars (n+1) fd s = (.error e,t) := by
  simp only [readChars,bind,read]

theorem chars_eof (read : readcIfile fd s = (.ok (readEof,fd'),t)) (n : Nat) : readChars (n+1) fd s = (.ok ([],fd'),t) := by
  simp only [readChars,bind,read]
  rfl

include clean

theorem plain_equal (plain : Plain s fd n) : readChars n fd s = readSeries n fd s := by
  induction n generalizing fd s with
  | zero => rfl
  | succ n ih =>
      by_cases ended : fd.fdsSize < fd.fdsPos
      · rw [chars_ended ended,series_ended ended]
      cases found : fd.ahead s 1 with
      | none =>
          obtain ⟨e,t,read⟩ := readc_blocked clean ended found
          rw [chars_blocked read,series_blocked read]
      | some c =>
          obtain ⟨fd',t,read,onward⟩ := readc_next clean ended found
          obtain ⟨first,later⟩ := (onward.plain ended (by rw [found]; rfl)).mp plain
          have other : (cell fd.fdsBuf (iblocOfPos fd.fdsPos)).signExtend 32 ≠ readEof := fun eof =>
            first ((ahead_here s fd).trans (congrArg some ((signExtend_eof _).mp eof)))
          rw [chars_next other read,series_next ended read]
          simp only [bind]
          rw [ih onward.clean later]

-- Where a byte is taken for READ_EOF, read_ifile stops short of it.
theorem spoilt_shorter (spoilt : ¬ Plain s fd n) : ∃ r t, readChars n fd s = (.ok r,t) ∧
    ∀ q u, readSeries n fd s = (.ok q,u) → r.1.length < q.1.length := by
  induction n generalizing fd s with
  | zero => exact absurd (fun j small => absurd small (Nat.not_lt_zero j)) spoilt
  | succ n ih =>
      by_cases ended : fd.fdsSize < fd.fdsPos
      · refine absurd (fun j _ went => ?_) spoilt
        have first := (went 0 (Nat.succ_pos j)).1
        rw [pos_zero] at first
        exact absurd ended first
      cases found : fd.ahead s 1 with
      | none =>
          refine absurd (fun j _ went => ?_) spoilt
          have first := (went 0 (Nat.succ_pos j)).2
          rw [Nat.zero_add,found] at first
          cases first
      | some c =>
          obtain ⟨fd',t,read,onward⟩ := readc_next clean ended found
          by_cases eof : (cell fd.fdsBuf (iblocOfPos fd.fdsPos)).signExtend 32 = readEof
          · rw [eof] at read
            refine ⟨_,t,chars_eof read n,fun q u equal => ?_⟩
            obtain ⟨q',_,rfl⟩ := (series_next_ok ended read).mp equal
            exact Nat.succ_pos _
          · have later : ¬ Plain t fd' n := by
              intro plain
              refine spoilt ((onward.plain ended (by rw [found]; rfl)).mpr ⟨fun first => eof ?_,plain⟩)
              rw [ahead_here] at first
              exact (signExtend_eof _).mpr (Option.some.inj first)
            obtain ⟨r,u,ran,shorter⟩ := ih onward.clean later
            refine ⟨_,u,(chars_next eof read n).trans (by simp only [bind,ran]; rfl),fun q v equal => ?_⟩
            obtain ⟨q',more,rfl⟩ := (series_next_ok ended read).mp equal
            exact Nat.succ_lt_succ (shorter q' v more)

theorem series_delivers : (∃ r t, readSeries n fd s = (.ok r,t) ∧ r.1.length = k) ↔ Delivers s fd n k := by
  induction n generalizing fd s k with
  | zero =>
      constructor
      · intro returned
        obtain ⟨r,t,equal,length⟩ := returned
        cases equal
        cases length
        exact ⟨Nat.le_refl 0,fun i small => absurd small (Nat.not_lt_zero i),.inl rfl⟩
      · intro delivers
        exact ⟨_,s,rfl,(Nat.le_zero.mp delivers.1).symm⟩
  | succ n ih =>
      by_cases ended : fd.fdsSize < fd.fdsPos
      · rw [series_ended ended]
        constructor
        · intro returned
          obtain ⟨r,t,equal,length⟩ := returned
          cases equal
          cases length
          exact ⟨Nat.zero_le _,fun i small => absurd small (Nat.not_lt_zero i),.inr (by rw [List.length_nil,pos_zero]; exact ended)⟩
        · intro delivers
          cases k with
          | zero => exact ⟨_,s,rfl,rfl⟩
          | succ k =>
              have first := (delivers.2.1 0 (Nat.succ_pos k)).1
              rw [pos_zero] at first
              exact absurd ended first
      · have start : ¬ Delivers s fd (n+1) 0 := by
          intro delivers
          rcases delivers.2.2 with all | at_end
          · cases all
          · rw [pos_zero] at at_end
            exact ended at_end
        cases found : fd.ahead s 1 with
        | none =>
            obtain ⟨e,t,read⟩ := readc_blocked clean ended found
            rw [series_blocked read]
            constructor
            · intro returned
              obtain ⟨r,t,equal,_⟩ := returned
              cases equal
            · intro delivers
              cases k with
              | zero => exact absurd delivers start
              | succ k =>
                  have first := (delivers.2.1 0 (Nat.succ_pos k)).2
                  rw [Nat.zero_add,found] at first
                  cases first
        | some c =>
            obtain ⟨fd',t,read,onward⟩ := readc_next clean ended found
            simp only [series_next_ok ended read]
            cases k with
            | zero =>
                constructor
                · intro returned
                  obtain ⟨_,_,⟨q,_,rfl⟩,length⟩ := returned
                  cases length
                · exact fun delivers => absurd delivers start
            | succ k =>
                rw [onward.delivers ended (by rw [found]; rfl),← ih onward.clean]
                constructor
                · intro returned
                  obtain ⟨_,u,⟨q,equal,rfl⟩,length⟩ := returned
                  exact ⟨q,u,equal,Nat.succ.inj length⟩
                · intro returned
                  obtain ⟨q,u,equal,length⟩ := returned
                  exact ⟨_,u,⟨q,equal,rfl⟩,congrArg Nat.succ length⟩

-- One call of readc_ifile returns READ_EOF.
theorem readEnds_iff : ReadEnds fd s ↔
    fd.fdsSize < fd.fdsPos ∨ (fd.ahead s 0 = some eofByte ∧ (fd.ahead s 1).isSome) := by
  by_cases ended : fd.fdsSize < fd.fdsPos
  · exact ⟨fun _ => .inl ended,fun _ => ⟨_,s,readc_ended ended s,rfl⟩⟩
  cases found : fd.ahead s 1 with
  | none =>
      obtain ⟨e,t,read⟩ := readc_blocked clean ended found
      constructor
      · intro ends
        obtain ⟨r,u,equal,_⟩ := ends
        rw [read] at equal
        cases equal
      · intro either
        rcases either with beyond | ⟨_,none⟩
        · exact absurd beyond ended
        · cases none
  | some c =>
      obtain ⟨fd',t,read,_⟩ := readc_next clean ended found
      rw [ahead_here]
      constructor
      · intro ends
        obtain ⟨r,u,equal,eof⟩ := ends
        rw [read] at equal
        cases equal
        exact .inr ⟨congrArg some ((signExtend_eof _).mp eof),rfl⟩
      · intro either
        rcases either with beyond | ⟨eof,_⟩
        · exact absurd beyond ended
        · exact ⟨_,t,read,(signExtend_eof _).mpr (Option.some.inj eof)⟩

end loops

theorem pos_cases (pos size : Word) : size < pos ∨ pos = size ∨ pos < size := by
  simp only [BitVec.lt_def,BitVec.toNat_inj.symm]
  omega

section reading
variable {nbyte : Nat} (clean : fd.fdsDirty = false)

theorem readIfile_last (last : fd.fdsSize ≤ fd.fdsPos) (buf : Vector Byte nbyte) (s : Machine) :
    readIfile fd buf s = (.ok (readEof,buf,fd),s) := by
  unfold readIfile
  rw [if_pos last]
  rfl

theorem readIfile_chars (before : ¬ fd.fdsSize ≤ fd.fdsPos) (buf : Vector Byte nbyte) (s : Machine) :
    readIfile fd buf s = ((readChars nbyte fd >>= fun r =>
      pure (BitVec.ofNat 32 r.1.length,build nbyte fun i => r.1[i]?.getD (cell buf i),r.2)) : M _) s := by
  unfold readIfile
  rw [if_neg before]

theorem readIfile_counts (before : ¬ fd.fdsSize ≤ fd.fdsPos) (buf : Vector Byte nbyte)
    (ran : readChars nbyte fd s = (.ok r,t)) : readIfile fd buf s =
      (.ok (BitVec.ofNat 32 r.1.length,build nbyte fun i => r.1[i]?.getD (cell buf i),r.2),t) := by
  rw [readIfile_chars before]
  simp only [bind,ran]
  rfl

theorem readEach_counts (buf : Vector Byte nbyte) (ran : readSeries nbyte fd s = (.ok r,t)) : readEach fd buf s =
    (.ok (BitVec.ofNat 32 r.1.length,build nbyte fun i => r.1[i]?.getD (cell buf i),r.2),t) := by
  simp only [readEach,bind,ran]
  rfl

theorem collision_stops (ends : ReadEnds fd s) (within : ¬ fd.fdsSize ≤ fd.fdsPos) (some : 0 < nbyte) (buf : Vector Byte nbyte) :
    ¬ ∃ r t, readIfile fd buf s = (.ok r,t) ∧ r.1 = readEof := by
  obtain ⟨⟨c,fd'⟩,t,read,eof⟩ := ends
  obtain ⟨count,more⟩ : ∃ count, nbyte = count+1 := ⟨nbyte-1,by omega⟩
  subst more
  dsimp only at eof
  subst eof
  intro returned
  obtain ⟨r,u,equal,failed⟩ := returned
  rw [readIfile_counts within buf (chars_eof read count)] at equal
  cases equal
  cases failed

include clean

theorem series_short (ran : readSeries n fd s = (.ok r,t)) : r.1.length ≤ n :=
  ((series_delivers clean).mp ⟨r,t,ran,rfl⟩).1

-- Without a collision the two are the same program.
theorem plain_each (plain : Plain s fd nbyte) (before : ¬ fd.fdsSize ≤ fd.fdsPos) (buf : Vector Byte nbyte) :
    readIfile fd buf s = readEach fd buf s := by
  rw [readIfile_chars before]
  simp only [readEach,bind,plain_equal clean plain]

theorem spoilt_each (spoilt : ¬ Plain s fd nbyte) (small : nbyte < 2^32) (before : ¬ fd.fdsSize ≤ fd.fdsPos)
    (buf : Vector Byte nbyte) : readIfile fd buf s ≠ readEach fd buf s := by
  obtain ⟨r,t,ran,shorter⟩ := spoilt_shorter clean spoilt
  rw [readIfile_counts before buf ran]
  intro same
  cases calls : readSeries nbyte fd s with
  | mk result u =>
      cases result with
      | error e =>
          simp only [readEach,bind,calls] at same
          cases same
      | ok q =>
          rw [readEach_counts buf calls] at same
          have counts := congrArg (fun o => o.1.toOption.map fun r => r.1.toNat) same
          have less := shorter q u calls
          have most := series_short clean calls
          simp only [Except.toOption,Option.map_some,BitVec.toNat_ofNat,Option.some.injEq] at counts
          omega

-- The count of a read can be taken for READ_EOF too.
theorem plain_eof (plain : Plain s fd nbyte) (small : nbyte < 2^32) (before : ¬ fd.fdsSize ≤ fd.fdsPos)
    (buf : Vector Byte nbyte) :
    (∃ r t, readIfile fd buf s = (.ok r,t) ∧ r.1 = readEof) ↔ Delivers s fd nbyte (2^32-2) := by
  have code : readEof.toNat = 2^32-2 := by decide
  rw [← series_delivers clean,plain_each clean plain before]
  constructor
  · intro returned
    obtain ⟨r,t,equal,eof⟩ := returned
    cases calls : readSeries nbyte fd s with
    | mk result u =>
        cases result with
        | error e =>
            simp only [readEach,bind,calls] at equal
            cases equal
        | ok q =>
            rw [readEach_counts buf calls] at equal
            cases equal
            have count := congrArg BitVec.toNat eof
            have most := series_short clean calls
            rw [code,BitVec.toNat_ofNat,Nat.mod_eq_of_lt (by omega)] at count
            exact ⟨_,_,rfl,count⟩
  · intro returned
    obtain ⟨q,u,calls,length⟩ := returned
    have code' : BitVec.ofNat 32 q.1.length = readEof := by
      rw [length]
      rfl
    exact ⟨_,u,readEach_counts buf calls,code'⟩

end reading

theorem bulk_exact {nbyte : Nat} (opened : ReadOnly fd) (some : 0 < nbyte) (small : nbyte < 2^32) (buf : Vector Byte nbyte)
    (s : Machine) : Agrees s fd buf ↔
      fd.fdsSize < fd.fdsPos ∨
      (fd.fdsPos = fd.fdsSize ∧ fd.ahead s 0 = Option.some eofByte ∧ (fd.ahead s 1).isSome) ∨
      (fd.fdsPos < fd.fdsSize ∧ Plain s fd nbyte ∧ ¬ Delivers s fd nbyte (2^32-2)) := by
  have clean := opened.clean
  have ends := readEnds_iff (s := s) clean
  rcases pos_cases fd.fdsPos fd.fdsSize with beyond | last | before
  · have ended : fd.fdsSize ≤ fd.fdsPos := BitVec.le_of_lt beyond
    have agrees : Agrees s fd buf := by
      refine ⟨⟨fun _ => ends.mpr (.inl beyond),fun _ => ⟨_,s,readIfile_last ended buf s,rfl⟩⟩,fun not => ?_⟩
      exact absurd (ends.mpr (.inl beyond)) not
    exact ⟨fun _ => .inl beyond,fun _ => agrees⟩
  · have ended : fd.fdsSize ≤ fd.fdsPos := by rw [last]; exact BitVec.le_refl _
    have within : ¬ fd.fdsSize < fd.fdsPos := by rw [last]; exact BitVec.lt_irrefl _
    have short : ¬ fd.fdsPos < fd.fdsSize := by rw [last]; exact BitVec.lt_irrefl _
    have eof := readIfile_last ended buf s
    constructor
    · intro agrees
      rcases ends.mp (agrees.eof.mp ⟨_,s,eof,rfl⟩) with beyond | collides
      · exact absurd beyond within
      · exact .inr (.inl ⟨last,collides⟩)
    · intro condition
      rcases condition with beyond | ⟨_,collides⟩ | ⟨before,_⟩
      · exact absurd beyond within
      · have here := ends.mpr (.inr collides)
        exact ⟨⟨fun _ => here,fun _ => ⟨_,s,eof,rfl⟩⟩,fun not => absurd here not⟩
      · exact absurd before short
  · have within : ¬ fd.fdsSize < fd.fdsPos := BitVec.not_lt.mpr (BitVec.le_of_lt before)
    have inside : ¬ fd.fdsSize ≤ fd.fdsPos := BitVec.not_le.mpr before
    have other : fd.fdsPos ≠ fd.fdsSize := fun same => BitVec.lt_irrefl _ (same ▸ before)
    -- The first byte is under the cursor: a plain read does not start with READ_EOF.
    have goes : Plain s fd nbyte → ¬ ReadEnds fd s := by
      intro plain now
      rcases ends.mp now with beyond | ⟨collides,free⟩
      · exact within beyond
      · refine plain 0 some (fun i low => ?_) collides
        obtain rfl : i = 0 := by omega
        rw [pos_zero]
        exact ⟨within,free⟩
    constructor
    · intro agrees
      by_cases plain : Plain s fd nbyte
      · refine .inr (.inr ⟨before,plain,fun delivers => ?_⟩)
        exact goes plain (agrees.eof.mp ((plain_eof clean plain small inside buf).mpr delivers))
      · by_cases now : ReadEnds fd s
        · exact absurd (agrees.eof.mpr now) (collision_stops now inside some buf)
        · exact absurd (agrees.bytes now) (spoilt_each clean plain small inside buf)
    · intro condition
      rcases condition with beyond | ⟨last,_⟩ | ⟨_,plain,short⟩
      · exact absurd beyond within
      · exact absurd last other
      · refine ⟨⟨fun eof => ?_,fun now => absurd now (goes plain)⟩,fun _ => plain_each clean plain inside buf⟩
        exact absurd ((plain_eof clean plain small inside buf).mp eof) short

-- The root of a new volume, which is empty.
theorem root_opened (fresh : Fresh s) : ∃ t, openIfile 1 s = (.ok (0,⟨1,0,0,zeros 8 512,false⟩),t) := by
  have node : freshRole s.nsec (1 : Word).toNat = .inode := rfl
  obtain ⟨r,t,equal,_,opened⟩ := returns_iff.mp (runs_openIfile fresh.layout node)
  have size : s.entryAt (1 : Word).toNat 1 = 0 := fresh.empty
  have block : s.fblock (1 : Word).toNat 0 = zeros 8 512 := if_pos (fresh.unmapped 0)
  rw [size,block] at opened
  subst opened
  exact ⟨t,equal⟩

-- Two bytes of a file that holds Hi! are read.
theorem bulk_exact_text : ∃ s, initSuper 0 0 (zeros 8 32) (recordedDisk (volumeOf 64)) = (.ok (),s) ∧
    ∃ fd t, ReadOnly fd ∧ fd.ahead t 0 = Option.some 72 ∧ fd.ahead t 1 = Option.some 105 ∧ Agrees t fd (zeros 8 2) := by
  obtain ⟨s,equal,fresh,size⟩ := volumeOf_fresh (n := 64) (by decide) (by decide) 0 (zeros 8 32)
  obtain ⟨⟨_,fd⟩,t,_,_,_,_,again⟩ := returns_iff.mp (runs_reopened .file [72,105,33] fresh.layout (by decide) (by
    rw [List.length_range',size]
    decide))
  dsimp only at again
  obtain ⟨_,_,_,opened⟩ := again.opened
  have length : fd.fdsSize = 2 := BitVec.eq_of_toNat_eq again.size
  have shown : ∀ j < 2, fd.ahead t j = Option.some (splice (fun _ => 0) 0 [72,105,33] j) := by
    intro j few
    have view := again.content j
    unfold Machine.viewAt FileDesc.block at view
    unfold FileDesc.ahead
    rw [again.start] at view ⊢
    rw [if_pos (show j/512 = (0 : Word).toNat/512 by rw [show (0 : Word).toNat = 0 from rfl]; omega),Nat.mod_eq_of_lt (by omega)] at view
    have inside : iblocOfPos 0 + j < 512 := by
      rw [show iblocOfPos 0 = 0 by decide]
      omega
    rw [if_pos inside,show iblocOfPos 0 + j = j by rw [show iblocOfPos 0 = 0 by decide]; omega,view]
  have plain : Plain t fd 2 := by
    intro j few _
    rw [shown j few]
    have small : j = 0 ∨ j = 1 := by omega
    rcases small with rfl | rfl <;> decide
  refine ⟨s,equal,fd,t,.opened opened,shown 0 (by decide),shown 1 (by decide),
    (bulk_exact (.opened opened) (by decide) (by decide) (zeros 8 2) t).mpr (.inr (.inr ⟨?_,plain,fun delivers => ?_⟩))⟩
  · rw [again.start,length]
    decide
  · exact absurd delivers.1 (by decide)

-- read_ifile finds the end of an empty file where readc_ifile delivers a NUL.
theorem bulk_disagrees : ∃ s, initSuper 0 0 (zeros 8 32) (recordedDisk (volumeOf 64)) = (.ok (),s) ∧
    ∃ fd t, openIfile 1 s = (.ok (0,fd),t) ∧ ReadOnly fd ∧ ¬ Agrees t fd (zeros 8 1) := by
  obtain ⟨s,equal,fresh,_⟩ := volumeOf_fresh (n := 64) (by decide) (by decide) 0 (zeros 8 32)
  obtain ⟨t,opened⟩ := root_opened fresh
  refine ⟨s,equal,_,t,opened,.opened opened,fun agrees => ?_⟩
  have ended : readIfile ⟨1,0,0,zeros 8 512,false⟩ (zeros 8 1) t = (.ok (readEof,zeros 8 1,⟨1,0,0,zeros 8 512,false⟩),t) := rfl
  obtain ⟨r,u,read,eof⟩ := agrees.eof.mp ⟨_,t,ended,rfl⟩
  have first : readcIfile ⟨1,0,0,zeros 8 512,false⟩ t = (.ok (0,⟨1,0,1,zeros 8 512,false⟩),t) := rfl
  rw [first] at read
  cases read
  cases eof

end AsePlusPlus
