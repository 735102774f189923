import AsePlusPlus.Bulk
import AsePlusPlus.Namespace
import AsePlusPlus.PathWalk

namespace AsePlusPlus
open Words Program

variable {s t u : Machine} {fd fd' : FileDesc} {d : Word} {name : List Byte} {entries : List Entry}

-- The entries that read_ifile delivers from a descriptor on, all of them whole.
def Decodes (s : Machine) : List Entry → FileDesc → Prop
  | [],fd => fd.fdsSize ≤ fd.fdsPos
  | e :: rest,fd => ∃ b fd', (∀ buf : Vector Byte 20, (readIfile fd buf s).1 = .ok (20,b,fd')) ∧ Entry.decode b = e ∧
      Decodes s rest fd'

-- A directory file of whole entries whose names have their NUL within 16 bytes.
structure Legible (s : Machine) (d : Word) (entries : List Entry) : Prop where
  decodes : ∃ status fd, (openIfile d s).1 = .ok (status,fd) ∧ fd.fdsSize.toNat = 20*entries.length-1 ∧ Decodes s entries fd
  named : ∀ e ∈ entries, e.name.length ≤ 15

-- Every directory that a path leads to is legible.
structure LegibleTree (s : Machine) : Prop where
  root : s.super.rootInumber ≠ 0
  dirs : ∀ path d inode, (inumberOfPath path s).1 = .ok d → d ≠ 0 → (readInode d s).1 = .ok inode →
    inode.type = FileType.directory.code → ∃ entries, Legible s d entries

-- The parent looked up first, then the whole text behind the last '/' in it.
def viaParent (path : List Byte) : M Word := do
  let (idir,_) ← dinumberOfPath path
  if idir = 0 then
    return 0
  else
    inumberOfBasename idir (lastBasename path)

-- The search of del_entry.
def searchEntry (idir : Word) (basename : List Byte) : M (Word × FileDesc) := do
  let (_,fd) ← openIfile idir
  findEntry fd basename

-- A path walk looks up the components, cut to sixteen characters.
theorem fold_cut (icurrent : Word) (path : List Byte) :
    pathLoop icurrent path = foldPath icurrent ((components path).map (·.take 16)) := by
  induction icurrent, path using pathLoop.induct with
  | case1 icurrent =>
      rw [pathLoop,components_nil]
      rfl
  | case2 icurrent rest ih =>
      rw [pathLoop,if_pos rfl,components_slash]
      exact ih
  | case3 icurrent c rest other ih =>
      rw [components_cons c rest other,List.map_cons,pathLoop,if_neg other,foldPath]
      congr 1
      funext next
      split
      · rfl
      · exact ih next

theorem bind_pure_word (p : M Word) : (p >>= fun i => if i = 0 then pure 0 else pure i) = p := by
  funext s
  simp only [bind]
  cases p s with
  | mk result t =>
      cases result with
      | error e => rfl
      | ok i =>
          dsimp only
          split
          · rename_i zero
            rw [zero]
            rfl
          · rfl

theorem fold_snoc (icurrent : Word) (names : List (List Byte)) (c : List Byte) (real : icurrent ≠ 0) :
    foldPath icurrent (names ++ [c]) =
      (foldPath icurrent names >>= fun d => if d = 0 then pure 0 else inumberOfBasename d c) := by
  induction names generalizing icurrent with
  | nil =>
      have step : (foldPath icurrent [] >>= fun d => if d = 0 then pure 0 else inumberOfBasename d c) =
          (if icurrent = 0 then pure 0 else inumberOfBasename icurrent c : M Word) := rfl
      rw [step,if_neg real]
      exact bind_pure_word (inumberOfBasename icurrent c)
  | cons n rest ih =>
      rw [List.cons_append,foldPath,foldPath]
      funext s
      simp only [bind]
      cases inumberOfBasename icurrent n s with
      | mk result t =>
          cases result with
          | error e => rfl
          | ok next =>
              dsimp only
              by_cases missing : next = 0
              · rw [if_pos missing,if_pos missing]
                rfl
              · rw [if_neg missing,if_neg missing,ih next missing]
                rfl

-- A clean descriptor whose buffer is the bloc under its cursor, as the disk has it.
structure OnFile (s : Machine) (fd : FileDesc) (q : Nat) : Prop where
  idle : Idle s fd
  loaded : (fetch fd.fdsInumber (blocOfPos fd.fdsPos) s).1 = .ok fd.fdsBuf
  position : fd.fdsPos = BitVec.ofNat 32 q

theorem fetch_ran (same : Same s t) (brought : (fetch d f s).1 = .ok buf) : ∃ u, fetch d f t = (.ok buf,u) ∧ Same s u := by
  have equal := ((calm_fetch d f).agree (.refl s) same).symm.trans brought
  have stays := (calm_fetch (s := s) d f).stays same
  cases ran : fetch d f t with
  | mk result u =>
      rw [ran] at equal stays
      exact ⟨u,by rw [show result = .ok buf from equal],stays⟩

-- A move to a bloc that can be fetched ends on what that bloc holds.
theorem OnFile.seek (placed : OnFile s fd q) (same : Same s t) (offset : Word)
    (brought : (fetch fd.fdsInumber (blocOfPos (fd.fdsPos+offset)) s).1 = .ok buf) :
    ∃ u, seekIfile fd offset t = (.ok {fd with
      fdsPos := fd.fdsPos+offset
      fdsBuf := buf},u) ∧ Same s u := by
  rw [seek_clean placed.idle.clean]
  by_cases stays : blocOfPos (fd.fdsPos+offset) = blocOfPos fd.fdsPos
  · rw [if_neg (not_not.mpr stays)]
    rw [stays,placed.loaded] at brought
    cases brought
    exact ⟨t,rfl,same⟩
  · rw [if_pos stays]
    obtain ⟨u,ran,same'⟩ := fetch_ran same brought
    exact ⟨u,by simp only [bind,ran]; rfl,same'⟩

-- What a move that returns has fetched.
theorem OnFile.sought (placed : OnFile s fd q) (same : Same s t) (ran : seekIfile fd offset t = (.ok fd',u)) :
    (fetch fd.fdsInumber (blocOfPos (fd.fdsPos+offset)) s).1 = .ok fd'.fdsBuf ∧ Same s u ∧
      fd' = {fd with
        fdsPos := fd.fdsPos+offset
        fdsBuf := fd'.fdsBuf} := by
  rw [seek_clean placed.idle.clean] at ran
  by_cases stays : blocOfPos (fd.fdsPos+offset) = blocOfPos fd.fdsPos
  · rw [if_neg (not_not.mpr stays)] at ran
    cases ran
    rw [stays]
    exact ⟨placed.loaded,same,rfl⟩
  · rw [if_pos stays] at ran
    simp only [bind] at ran
    have stay := (calm_fetch (s := s) fd.fdsInumber (blocOfPos (fd.fdsPos+offset))).stays same
    have equal := (calm_fetch (s := s) fd.fdsInumber (blocOfPos (fd.fdsPos+offset))).agree same (.refl s)
    cases fetched : fetch fd.fdsInumber (blocOfPos (fd.fdsPos+offset)) t with
    | mk result v =>
        rw [fetched] at ran stay equal
        cases result with
        | error e => cases ran
        | ok buf =>
            cases ran
            exact ⟨equal.symm,stay,rfl⟩

theorem OnFile.readc (placed : OnFile s fd q) (same : Same s t) (read : readcIfile fd t = (.ok (c,fd'),u)) (live : c ≠ readEof) :
    OnFile s fd' (q+1) ∧ fd'.fdsInumber = fd.fdsInumber ∧ fd'.fdsSize = fd.fdsSize ∧ Same s u := by
  by_cases ended : fd.fdsSize < fd.fdsPos
  · rw [readc_ended ended] at read
    cases read
    exact absurd rfl live
  unfold readcIfile at read
  rw [if_neg ended] at read
  simp only [bind] at read
  cases sought : seekIfile fd 1 t with
  | mk result v =>
      rw [sought] at read
      cases result with
      | error e => cases read
      | ok fd1 =>
          cases read
          obtain ⟨loaded,same',frame⟩ := placed.sought same sought
          refine ⟨⟨?_,?_,?_⟩,by rw [frame],by rw [frame],same'⟩
          · rw [frame]
            exact placed.idle.moved ⟨placed.idle.clean,rfl,rfl⟩
          · rw [frame] at loaded ⊢
            exact loaded
          · rw [frame,BitVec.ofNat_add,← placed.position]
            rfl

theorem OnFile.read (placed : OnFile s fd q) (same : Same s t) (n : Nat) (ran : readChars n fd t = (.ok (chars,fd'),u))
    (whole : chars.length = n) : OnFile s fd' (q+n) ∧ fd'.fdsInumber = fd.fdsInumber ∧ fd'.fdsSize = fd.fdsSize ∧ Same s u := by
  induction n generalizing fd t q chars with
  | zero =>
      cases ran
      exact ⟨placed,rfl,rfl,same⟩
  | succ n ih =>
      cases read : readcIfile fd t with
      | mk result v =>
          cases result with
          | error e =>
              rw [chars_blocked read] at ran
              cases ran
          | ok r =>
              obtain ⟨c,fd1⟩ := r
              by_cases eof : c = readEof
              · subst eof
                rw [chars_eof read] at ran
                cases ran
                cases whole
              · rw [chars_next eof read] at ran
                simp only [bind] at ran
                obtain ⟨placed',inumber,size,same'⟩ := placed.readc same read eof
                cases rest : readChars n fd1 v with
                | mk result w =>
                    rw [rest] at ran
                    cases result with
                    | error e => cases ran
                    | ok r =>
                        cases ran
                        obtain ⟨last,inumber',size',same''⟩ := ih placed' same' rest (Nat.succ.inj whole)
                        rw [Nat.add_assoc,Nat.add_comm 1 n] at last
                        exact ⟨last,inumber'.trans inumber,size'.trans size,same''⟩

theorem chars_short (n : Nat) (fd : FileDesc) (s : Machine) :
    Runs (readChars n fd) s (fun r _ => r.1.length ≤ n) (fun _ _ => True) := by
  induction n generalizing fd s with
  | zero => exact Nat.le_refl 0
  | succ n ih =>
      rw [readChars,runs_bind]
      refine Runs.always fun r t => ?_
      rw [runs_ite]
      split
      · exact Nat.zero_le _
      · rw [runs_bind]
        exact (ih r.2 t).mono (fun _ _ few => Nat.succ_le_succ few) (fun _ _ => id)

-- A whole entry.
theorem OnFile.entry (placed : OnFile s fd q) (whole : ∀ buf : Vector Byte 20, (readIfile fd buf s).1 = .ok (20,b,fd')) :
    (∀ t buf, Same s t → ∃ u, readIfile fd buf t = (.ok (20,b,fd'),u) ∧ Same s u) ∧
      OnFile s fd' (q+20) ∧ fd'.fdsInumber = fd.fdsInumber ∧ fd'.fdsSize = fd.fdsSize := by
  have everywhere : ∀ t (buf : Vector Byte 20), Same s t → ∃ u, readIfile fd buf t = (.ok (20,b,fd'),u) ∧ Same s u := by
    intro t buf same
    have equal := ((calm_readIfile placed.idle buf).agree same (.refl s)).trans (whole buf)
    have stays := (calm_readIfile placed.idle buf).stays same
    cases ran : readIfile fd buf t with
    | mk result u =>
        rw [ran] at equal stays
        exact ⟨u,by rw [show result = _ from equal],stays⟩
  refine ⟨everywhere,?_⟩
  obtain ⟨u,ran,_⟩ := everywhere s (zeros 8 20) (.refl s)
  by_cases last : fd.fdsSize ≤ fd.fdsPos
  · rw [readIfile_last last] at ran
    cases ran
  · rw [readIfile_chars last] at ran
    simp only [bind] at ran
    cases read : readChars 20 fd s with
    | mk result v =>
        rw [read] at ran
        cases result with
        | error e => cases ran
        | ok r =>
            injection ran with result _
            injection result with result
            obtain ⟨count,_,rfl⟩ := Prod.mk.inj result |>.imp id Prod.mk.inj
            have few := (chars_short 20 fd s).result read
            have number := congrArg BitVec.toNat count
            rw [BitVec.toNat_ofNat,Nat.mod_eq_of_lt (by omega)] at number
            have twenty : (20 : Word).toNat = 20 := rfl
            exact ((placed.read (.refl s) 20 read (number.trans twenty)).imp id (fun rest => ⟨rest.1,rest.2.1⟩))

theorem onFile_open (ran : openIfile d s = (.ok (status,fd),t)) : OnFile s fd 0 ∧ fd.fdsInumber = d ∧ Same s t := by
  obtain ⟨idle,_,same⟩ := ((calm_openIfile d).runs (.refl s)).result ran
  cases read : readInode d s with
  | mk result v =>
      simp only [openIfile,bind,read] at ran
      cases result with
      | error e => cases ran
      | ok inode =>
          have moved : Same s v := by
            have stays := (calm_readInode (o := s) d).stays (.refl s)
            rwa [read] at stays
          have agree := (calm_fetch d 0).agree (.refl s) moved
          dsimp only at ran
          cases looked : vblocOfFbloc d 0 false v with
          | mk result w =>
              rw [looked] at ran
              cases result with
              | error e => cases ran
              | ok bloc =>
                  dsimp only at ran
                  cases brought : loadBuffer bloc w with
                  | mk result x =>
                      rw [brought] at ran
                      cases result with
                      | error e => cases ran
                      | ok buf =>
                          cases ran
                          have loaded : (fetch d 0 v).1 = .ok buf := by simp only [fetch,bind,looked,brought]
                          have start : blocOfPos 0 = 0 := by decide
                          rw [← start] at agree loaded
                          exact ⟨⟨idle,agree.trans loaded,rfl⟩,rfl,same⟩

-- Two descriptors of one file at one position hold the same bloc.
theorem OnFile.back (placed : OnFile s fd q) (other : OnFile s fd' q') (inumber : fd.fdsInumber = fd'.fdsInumber)
    (size : fd.fdsSize = fd'.fdsSize) (same : Same s t) (target : fd.fdsPos + (offset-fd.fdsPos) = fd'.fdsPos) :
    ∃ u, seek2Ifile fd offset t = (.ok fd',u) ∧ Same s u := by
  have brought : (fetch fd.fdsInumber (blocOfPos (fd.fdsPos + (offset-fd.fdsPos))) s).1 = .ok fd'.fdsBuf := by
    rw [target,inumber]
    exact other.loaded
  obtain ⟨u,ran,same'⟩ := placed.seek same (offset-fd.fdsPos) brought
  refine ⟨u,ran.trans ?_,same'⟩
  have clean := placed.idle.clean.trans other.idle.clean.symm
  rw [target,inumber,size,clean]

theorem seek2_start (start : fd.fdsPos = 0) : seek2Ifile fd 0 = pure fd := by
  unfold seek2Ifile seekIfile
  dsimp only
  rw [start,if_neg (by decide)]
  rw [show (0 : Word) + (0-0) = fd.fdsPos by rw [start]; rfl]

theorem find_step (read : readIfile fd buf t = (.ok (20,b,fd'),u)) (name : List Byte) (fuel : Nat) (k : Word) :
    findEntryLoop name (fuel+1) fd buf k t =
      if (Entry.decode b).entInumber ≠ 0 ∧ (Entry.decode b).name = name then (.ok (k,fd'),u)
      else findEntryLoop name fuel fd' b (k+1) u := by
  have goes : (20 : Word) ≠ readEof := by decide
  simp only [findEntryLoop,bind,read]
  by_cases hit : (Entry.decode b).entInumber ≠ 0 ∧ (Entry.decode b).name = name
  · rw [if_pos hit]
    exact congrFun ((if_neg goes).trans (if_pos hit)) u
  · rw [if_neg hit]
    exact congrFun ((if_neg goes).trans (if_neg hit)) u

-- Two names that no entry tells apart.
theorem find_same (decodes : Decodes s entries fd) (placed : OnFile s fd q)
    (alike : ∀ e ∈ entries, e.name = left ↔ e.name = right) (fuel : Nat) :
    ∀ t (buf : Vector Byte 20) k, Same s t → findEntryLoop left fuel fd buf k t = findEntryLoop right fuel fd buf k t := by
  induction entries generalizing fd q fuel with
  | nil =>
      intro t buf k _
      cases fuel with
      | zero => rfl
      | succ fuel =>
          simp only [findEntryLoop,bind,readIfile_last decodes buf t]
          rfl
  | cons e rest ih =>
      intro t buf k same
      cases fuel with
      | zero => rfl
      | succ fuel =>
          obtain ⟨b,fd',whole,entry,later⟩ := decodes
          obtain ⟨ran,placed',_,_⟩ := placed.entry whole
          obtain ⟨u,read,same'⟩ := ran t buf same
          have first := alike e List.mem_cons_self
          rw [← entry] at first
          rw [find_step read,find_step read,ih later placed' (fun e member => alike e (List.mem_cons_of_mem _ member)) fuel u b
            (k+1) same']
          exact if_congr (and_congr_right fun _ => first) rfl rfl

-- Where the scan ends, entry after entry: `j` of them lie before the cursor.
theorem find_index (name : List Byte) (decodes : Decodes s entries fd) (placed : OnFile s fd (20*j)) (fuel : Nat) (enough : entries.length < fuel) :
    ∀ t (buf : Vector Byte 20), Same s t → ∃ k fd' u, findEntryLoop name fuel fd buf (BitVec.ofNat 32 j) t = (.ok (k,fd'),u) ∧
      Same s u ∧ ((∀ e ∈ entries, ¬ (e.entInumber ≠ 0 ∧ e.name = name)) ∧ k = returnFailure ∨
        ∃ i e, entries[i]? = some e ∧ e.entInumber ≠ 0 ∧ e.name = name ∧ k = BitVec.ofNat 32 (j+i) ∧ (∃ q, OnFile s fd' q) ∧
          fd'.fdsInumber = fd.fdsInumber ∧ fd'.fdsSize = fd.fdsSize) := by
  induction entries generalizing fd j fuel with
  | nil =>
      intro t buf same
      obtain ⟨fuel,rfl⟩ : ∃ more, fuel = more+1 := ⟨fuel-1,by omega⟩
      refine ⟨returnFailure,fd,t,?_,same,.inl ⟨fun e none => absurd none List.not_mem_nil,rfl⟩⟩
      simp only [findEntryLoop,bind,readIfile_last decodes buf t]
      rfl
  | cons e rest ih =>
      intro t buf same
      obtain ⟨fuel,rfl⟩ : ∃ more, fuel = more+1 := ⟨fuel-1,by omega⟩
      obtain ⟨b,fd1,whole,entry,later⟩ := decodes
      obtain ⟨ran,placed',inumber,size⟩ := placed.entry whole
      obtain ⟨u,read,same'⟩ := ran t buf same
      rw [find_step read,entry]
      by_cases hit : e.entInumber ≠ 0 ∧ e.name = name
      · rw [if_pos hit]
        exact ⟨_,fd1,u,rfl,same',.inr ⟨0,e,rfl,hit.1,hit.2,rfl,⟨_,placed'⟩,inumber,size⟩⟩
      · rw [if_neg hit]
        have next : BitVec.ofNat 32 j + 1 = BitVec.ofNat 32 (j+1) := by rw [BitVec.ofNat_add]; rfl
        rw [next]
        obtain ⟨k,fd2,v,found,same'',result⟩ := ih later (j := j+1) placed' fuel (Nat.lt_of_succ_lt_succ enough) u b same'
        refine ⟨k,fd2,v,found,same'',?_⟩
        rcases result with ⟨none,failed⟩ | ⟨i,e',here,live,named,index,placed2,inumber2,size2⟩
        · refine .inl ⟨fun e' member => ?_,failed⟩
          rcases List.mem_cons.mp member with rfl | deeper
          · exact hit
          · exact none e' deeper
        · refine .inr ⟨i+1,e',here,live,named,?_,placed2,inumber2.trans inumber,size2.trans size⟩
          rw [index,Nat.add_assoc,Nat.add_comm 1 i]

-- The descriptor before the entry of an index.
theorem decodes_at (decodes : Decodes s entries fd) (placed : OnFile s fd (20*j)) (here : entries[i]? = some e) :
    ∃ fd1 b fd2, OnFile s fd1 (20*(j+i)) ∧ fd1.fdsInumber = fd.fdsInumber ∧ fd1.fdsSize = fd.fdsSize ∧
      (∀ buf : Vector Byte 20, (readIfile fd1 buf s).1 = .ok (20,b,fd2)) ∧ Entry.decode b = e := by
  induction entries generalizing fd j i with
  | nil => cases here
  | cons first rest ih =>
      obtain ⟨b,fd1,whole,entry,later⟩ := decodes
      cases i with
      | zero =>
          cases here
          exact ⟨fd,b,fd1,placed,rfl,rfl,whole,entry⟩
      | succ i =>
          obtain ⟨_,placed',inumber,size⟩ := placed.entry whole
          obtain ⟨fd2,b',fd3,placed2,inumber2,size2,whole2,entry2⟩ := ih later (j := j+1) placed' here
          rw [Nat.add_assoc,Nat.add_comm 1 i] at placed2
          exact ⟨fd2,b',fd3,placed2,inumber2.trans inumber,size2.trans size,whole2,entry2⟩

theorem findEntry_start (start : fd.fdsPos = 0) (name : List Byte) (s : Machine) :
    findEntry fd name s = findEntryLoop name scanFuel fd s.frame.entry 0 s := by
  unfold findEntry
  rw [seek2_start start]
  rfl

-- A legible directory, opened in any state that holds the same.
theorem Legible.opened (legible : Legible s d entries) (same : Same s t) : ∃ status fd u, openIfile d t = (.ok (status,fd),u) ∧
    Same s u ∧ OnFile s fd 0 ∧ fd.fdsInumber = d ∧ fd.fdsSize.toNat = 20*entries.length-1 ∧ Decodes s entries fd := by
  obtain ⟨status,fd,equal,size,decodes⟩ := legible.decodes
  have here : ∃ v, openIfile d s = (.ok (status,fd),v) := by
    cases ran : openIfile d s with
    | mk result v =>
        rw [ran] at equal
        exact ⟨v,by rw [show result = _ from equal]⟩
  obtain ⟨v,ran⟩ := here
  obtain ⟨placed,inumber,_⟩ := onFile_open ran
  have agree := ((calm_openIfile d).agree same (.refl s)).trans equal
  have stays := (calm_openIfile (o := s) d).stays same
  cases there : openIfile d t with
  | mk result u =>
      rw [there] at agree stays
      exact ⟨status,fd,u,by rw [show result = _ from agree],stays,placed,inumber,size,decodes⟩

-- A name is compared with names of at most fifteen characters.
theorem cut_alike (short : name'.length ≤ 15) (name : List Byte) : name' = name.take 16 ↔ name' = name := by
  by_cases few : name.length ≤ 16
  · rw [List.take_of_length_le few]
  · constructor
    · intro same
      have length := congrArg List.length same
      rw [List.length_take] at length
      omega
    · intro same
      have length := congrArg List.length same
      omega

theorem base_error (read : readInode d t = (.error e,u)) (name : List Byte) : inumberOfBasename d name t = (.error e,u) := by
  rw [inumberOfBasename,bind_error read]

theorem base_file (read : readInode d t = (.ok inode,u)) (file : inode.type ≠ FileType.directory.code) (name : List Byte) :
    inumberOfBasename d name t = (.ok 0,u) := by
  rw [inumberOfBasename,bind_ok read,if_pos file]
  rfl

-- What inumber_of_basename does with a directory once the name is searched.
def fromSlot (r : Word × FileDesc) : M Word :=
  if r.1 = returnFailure then
    return 0
  else do
    let fd ← seek2Ifile r.2 (r.1*20)
    let m ← get
    let (_,entry,fd) ← readIfile fd m.frame.entry
    let _ ← closeIfile fd
    return (Entry.decode entry).entInumber

theorem base_directory (read : readInode d t = (.ok inode,u)) (dir : inode.type = FileType.directory.code) (name : List Byte) :
    inumberOfBasename d name t = (searchEntry d name >>= fromSlot) u := by
  rw [inumberOfBasename,bind_ok read,if_neg (not_not.mpr dir)]
  simp only [searchEntry,bind]
  cases openIfile d u with
  | mk result v =>
      cases result with
      | error e => rfl
      | ok r => rfl

theorem moved_inode (read : readInode d t = (.ok inode,u)) (same : Same s t) : Same s u := by
  have stays := (calm_readInode (o := s) d).stays same
  rwa [read] at stays

theorem search_cut (legible : Legible s d entries) (same : Same s t) (name : List Byte) :
    searchEntry d (name.take 16) t = searchEntry d name t := by
  obtain ⟨status,fd,u,opened,same',placed,_,_,decodes⟩ := legible.opened same
  rw [searchEntry,searchEntry,bind_ok opened,bind_ok opened]
  dsimp only
  rw [findEntry_start placed.position,findEntry_start placed.position]
  exact find_same decodes placed (fun e member => cut_alike (legible.named e member) name) scanFuel u _ 0 same'

theorem lookup_cut (legible : Legible s d entries) (same : Same s t) (name : List Byte) :
    inumberOfBasename d (name.take 16) t = inumberOfBasename d name t := by
  cases read : readInode d t with
  | mk result u =>
      cases result with
      | error e => rw [base_error read,base_error read]
      | ok inode =>
          by_cases file : inode.type ≠ FileType.directory.code
          · rw [base_file read file,base_file read file]
          · have dir := not_not.mp file
            have searched := search_cut legible (moved_inode read same) name
            rw [base_directory read dir,base_directory read dir]
            simp only [bind,searched]

-- The scan of a legible directory ends, on the slot of the name if there is one.
theorem search_result (legible : Legible s d entries) (same : Same s t) (name : List Byte) :
    ∃ k fd u, searchEntry d name t = (.ok (k,fd),u) ∧ Same s u ∧
      ((∀ e ∈ entries, ¬ (e.entInumber ≠ 0 ∧ e.name = name)) ∧ k = returnFailure ∨
        ∃ i e, entries[i]? = some e ∧ e.entInumber ≠ 0 ∧ e.name = name ∧ k = BitVec.ofNat 32 i ∧ i < 2^32-1 ∧
          ∃ fd1 b fd2, (∀ v, Same s v → ∃ w, seek2Ifile fd (k*20) v = (.ok fd1,w) ∧ Same s w) ∧
            (∀ v (buf : Vector Byte 20), Same s v → ∃ w, readIfile fd1 buf v = (.ok (20,b,fd2),w) ∧ Same s w) ∧
            Entry.decode b = e) := by
  obtain ⟨status,fd,u,opened,same',placed,inumber,size,decodes⟩ := legible.opened same
  have bound := fd.fdsSize.isLt
  rw [size] at bound
  have enough : entries.length < scanFuel := by unfold scanFuel; omega
  obtain ⟨k,fd',v,found,same'',result⟩ := find_index name (j := 0) decodes placed scanFuel enough u u.frame.entry same'
  refine ⟨k,fd',v,?_,same'',?_⟩
  · rw [searchEntry,bind_ok opened]
    dsimp only
    rw [findEntry_start placed.position]
    exact found
  rcases result with missing | ⟨i,e,here,live,named,index,⟨q,placed'⟩,inumber',size'⟩
  · exact .inl missing
  · have inside : i < entries.length := (List.getElem?_eq_some_iff.mp here).1
    rw [Nat.zero_add] at index
    obtain ⟨fd1,b,fd2,placed1,inumber1,size1,whole,entry⟩ := decodes_at (j := 0) decodes placed here
    rw [Nat.zero_add] at placed1
    have target : fd'.fdsPos + (k*20-fd'.fdsPos) = fd1.fdsPos := by
      rw [placed1.position,index,BitVec.add_comm,BitVec.sub_add_cancel,Nat.mul_comm,BitVec.ofNat_mul]
      rfl
    refine .inr ⟨i,e,here,live,named,index,by omega,fd1,b,fd2,?_,(placed1.entry whole).1,entry⟩
    intro v same
    exact placed'.back placed1 (inumber'.trans inumber1.symm) (size'.trans size1.symm) same target

variable {path : List Byte}

theorem path_split (absolute : Absolute path) (named : lastBasename path ≠ []) (root : s.super.rootInumber ≠ 0) :
    inumberOfPath path s = (inumberOfPath (dirname path) >>= fun d =>
      if d = 0 then pure 0 else inumberOfBasename d ((lastBasename path).take 16)) s := by
  have front := path_absolute (absolute_dirname absolute) s
  rw [path_absolute absolute,fold_cut,components_dirname absolute named,List.map_append,List.map_singleton,
    fold_snoc _ _ _ root,← fold_cut]
  simp only [bind,front]

-- Where dinumber_of_path finds a directory.
structure ParentAt (s : Machine) (path : List Byte) (d : Word) (t : Machine) (inode : Inode) (u : Machine) : Prop where
  absolute : Absolute path
  found : inumberOfPath (dirname path) s = (.ok d,t)
  live : d ≠ 0
  read : readInode d t = (.ok inode,u)
  dir : inode.type = FileType.directory.code

theorem dinumber_outcome (path : List Byte) (s : Machine) :
    (¬ Absolute path ∧ dinumberOfPath path s = (.ok (0,[]),s)) ∨
    (Absolute path ∧ ((∃ e t, inumberOfPath (dirname path) s = (.error e,t) ∧ dinumberOfPath path s = (.error e,t)) ∨
      (∃ t, inumberOfPath (dirname path) s = (.ok 0,t) ∧ dinumberOfPath path s = (.ok (0,lastBasename path),t)) ∨
      ∃ d t, d ≠ 0 ∧ inumberOfPath (dirname path) s = (.ok d,t) ∧
        ((∃ e u, readInode d t = (.error e,u) ∧ dinumberOfPath path s = (.error e,u)) ∨
          (∃ inode u, readInode d t = (.ok inode,u) ∧ inode.type ≠ FileType.directory.code ∧
            dinumberOfPath path s = (.ok (0,lastBasename path),u)) ∨
          ∃ inode u, ParentAt s path d t inode u ∧ dinumberOfPath path s = (.ok (d,lastBasename path),u)))) := by
  by_cases absolute : Absolute path
  swap
  · exact .inl ⟨absolute,congrFun (if_pos absolute) s⟩
  refine .inr ⟨absolute,?_⟩
  have begun : dinumberOfPath path s = (inumberOfPath (dirname path) >>= fun idirname =>
      if idirname = 0 then pure (0,lastBasename path) else readInode idirname >>= fun inode =>
        pure (if inode.type ≠ FileType.directory.code then 0 else idirname,lastBasename path)) s :=
    congrFun (if_neg (not_not.mpr absolute)) s
  rw [begun]
  cases found : inumberOfPath (dirname path) s with
  | mk result t =>
      cases result with
      | error e => exact .inl ⟨e,t,rfl,bind_error found⟩
      | ok d =>
          rw [bind_ok found]
          by_cases missing : d = 0
          · rw [if_pos missing,missing]
            exact .inr (.inl ⟨t,rfl,rfl⟩)
          rw [if_neg missing]
          refine .inr (.inr ⟨d,t,missing,rfl,?_⟩)
          cases read : readInode d t with
          | mk result u =>
              cases result with
              | error e => exact .inl ⟨e,u,rfl,bind_error read⟩
              | ok inode =>
                  rw [bind_ok read]
                  by_cases file : inode.type ≠ FileType.directory.code
                  · rw [if_pos file]
                    exact .inr (.inl ⟨inode,u,rfl,file,rfl⟩)
                  · rw [if_neg file]
                    exact .inr (.inr ⟨inode,u,⟨absolute,found,missing,read,not_not.mp file⟩,rfl⟩)

theorem ParentAt.same (parent : ParentAt s path d t inode u) : Same s t := by
  have stays := (calm_inumberOfPath (o := s) (dirname path)).stays (.refl s)
  rwa [parent.found] at stays

theorem ParentAt.legible (parent : ParentAt s path d t inode u) (tree : LegibleTree s) : ∃ entries, Legible s d entries := by
  have agree := (calm_readInode (o := s) d).agree (.refl s) parent.same
  rw [parent.read] at agree
  exact tree.dirs (dirname path) d inode (by rw [parent.found]) parent.live agree parent.dir

theorem ParentAt.lookup (parent : ParentAt s path d t inode u) (tree : LegibleTree s) (named : lastBasename path ≠ []) :
    inumberOfPath path s = inumberOfBasename d (lastBasename path) t := by
  obtain ⟨entries,legible⟩ := parent.legible tree
  rw [path_split parent.absolute named tree.root,bind_ok parent.found,if_neg parent.live]
  exact lookup_cut legible parent.same (lastBasename path)

theorem path_parent (tree : LegibleTree s) (named : lastBasename path ≠ []) :
    (inumberOfPath path s).1 = (viaParent path s).1 := by
  rcases dinumber_outcome path s with ⟨relative,ran⟩ | ⟨absolute,⟨e,t,found,ran⟩ | ⟨t,found,ran⟩ | ⟨d,t,live,found,rest⟩⟩
  · rw [viaParent,bind_ok ran]
    exact congrArg Prod.fst (congrFun (if_pos relative) s)
  · rw [viaParent,bind_error ran,path_split absolute named tree.root,bind_error found]
  · rw [viaParent,bind_ok ran,path_split absolute named tree.root,bind_ok found]
    dsimp only
    rw [if_pos rfl,if_pos rfl]
  · rcases rest with ⟨e,u,read,ran⟩ | ⟨inode,u,read,file,ran⟩ | ⟨inode,u,parent,ran⟩
    · rw [viaParent,bind_error ran,path_split absolute named tree.root,bind_ok found,if_neg live,base_error read]
    · rw [viaParent,bind_ok ran,path_split absolute named tree.root,bind_ok found,if_neg live,base_file read file]
      dsimp only
      rw [if_pos rfl]
      rfl
    · rw [viaParent,bind_ok ran,parent.lookup tree named]
      dsimp only
      rw [if_neg live]
      exact (calm_inumberOfBasename d (lastBasename path)).agree parent.same (moved_inode parent.read parent.same)

theorem calm_searchEntry (idir : Word) (basename : List Byte) : Calm s (searchEntry idir basename) (fun _ => True) :=
  steady_bind (calm_openIfile idir) fun _ opened => (calm_findEntry opened basename).mono fun _ _ => trivial

-- What create_file finds of the name and what delete_file would remove.
def OneEntry (s : Machine) (d : Word) (name : List Byte) (r : Word) : Prop :=
  ∃ entries, Legible s d entries ∧ ∃ k fd, (searchEntry d name s).1 = .ok (k,fd) ∧
    ((r = 0 ∧ k = returnFailure) ∨ (r ≠ 0 ∧ k ≠ returnFailure ∧ ∃ e, entries[k.toNat]? = some e ∧ e.entInumber = r ∧ e.name = name))

theorem ParentAt.oneEntry (parent : ParentAt s path d t inode u) (tree : LegibleTree s) (named : lastBasename path ≠ [])
    (looked : (inumberOfPath path s).1 = .ok r) : OneEntry s d (lastBasename path) r := by
  obtain ⟨entries,legible⟩ := parent.legible tree
  have moved := moved_inode parent.read parent.same
  obtain ⟨k,fd,v,searched,same,result⟩ := search_result legible moved (lastBasename path)
  rw [parent.lookup tree named,base_directory parent.read parent.dir,bind_ok searched] at looked
  have here : (searchEntry d (lastBasename path) s).1 = .ok (k,fd) := by
    have agree := (calm_searchEntry d (lastBasename path)).agree (.refl s) moved
    rwa [searched] at agree
  refine ⟨entries,legible,k,fd,here,?_⟩
  unfold fromSlot at looked
  rcases result with ⟨none,failed⟩ | ⟨i,e,at_index,live,name,index,small,fd1,b,fd2,sought,read,entry⟩
  · rw [if_pos failed] at looked
    cases looked
    exact .inl ⟨rfl,failed⟩
  · have number : k.toNat = i := by
      rw [index,BitVec.toNat_ofNat,Nat.mod_eq_of_lt (by omega)]
    have passes : k ≠ returnFailure := by
      intro failed
      rw [failed] at number
      have constant : returnFailure.toNat = 4294967295 := by decide
      omega
    obtain ⟨w,sought,same'⟩ := sought v same
    obtain ⟨x,read,_⟩ := read w w.frame.entry same'
    rw [if_neg passes,bind_ok sought] at looked
    simp only [bind,Program.get,read] at looked
    cases closed : closeIfile fd2 x with
    | mk result y =>
        rw [closed] at looked
        cases result with
        | error e => cases looked
        | ok fd3 =>
            cases looked
            rw [entry]
            exact .inr ⟨live,passes,e,by rw [number]; exact at_index,rfl,name⟩

theorem dinumber_live (parent : (dinumberOfPath path s).1 = .ok (d,b)) (live : d ≠ 0) :
    b = lastBasename path ∧ ∃ t inode u, ParentAt s path d t inode u := by
  rcases dinumber_outcome path s with ⟨_,ran⟩ | ⟨_,⟨e,t,_,ran⟩ | ⟨t,_,ran⟩ | ⟨d',t,_,_,⟨e,u,_,ran⟩ | ⟨inode,u,_,_,ran⟩ | ⟨inode,u,found,ran⟩⟩⟩
  · rw [ran] at parent
    cases parent
    exact absurd rfl live
  · rw [ran] at parent
    cases parent
  · rw [ran] at parent
    cases parent
    exact absurd rfl live
  · rw [ran] at parent
    cases parent
  · rw [ran] at parent
    cases parent
    exact absurd rfl live
  · rw [ran] at parent
    cases parent
    exact ⟨rfl,t,inode,u,found⟩

theorem lookup_agrees (tree : LegibleTree s) (named : lastBasename path ≠ []) :
    (inumberOfPath path s).1 = (viaParent path s).1 ∧
    ∀ d b r, (dinumberOfPath path s).1 = .ok (d,b) → d ≠ 0 → (inumberOfPath path s).1 = .ok r →
      b = lastBasename path ∧ OneEntry s d b r := by
  refine ⟨path_parent tree named,fun d b r parent live looked => ?_⟩
  obtain ⟨rfl,t,inode,u,found⟩ := dinumber_live parent live
  exact ⟨rfl,found.oneEntry tree named looked⟩

section standing
variable {role : Nat → Role} {free : List Nat}

-- A scan that stands between two entries has the ones behind it to deliver.
theorem Scan.decodes {e : Nat} (scan : Scan s t role role free free (s.byteAt e) (s.slots e) k fd) (same : Same s t)
    (placed : OnFile s fd q) (left : k+n = s.slots e) : Decodes s ((List.range' k n).map (s.slotAt e)) fd := by
  induction n generalizing t k fd q with
  | zero =>
      have size := scan.size
      have position := scan.position
      exact BitVec.le_def.mpr (by omega)
  | succ n ih =>
      obtain ⟨b,fd',u,ran,entry,after,quiet,_⟩ := scan.whole (by omega)
      have whole : ∀ buf : Vector Byte 20, (readIfile fd buf s).1 = .ok (20,b,fd') := by
        intro buf
        have agree := (calm_readIfile placed.idle buf).agree (.refl s) same
        rwa [ran buf] at agree
      rw [List.range'_succ,List.map_cons]
      exact ⟨b,fd',whole,entry,ih after (same.trans quiet.same) (placed.entry whole).2.1 (by omega)⟩

-- A well-formed volume is legible where all its names have their NUL in time.
theorem Ordered.legible (ordered : Ordered s role free)
    (named : ∀ path, s.resolve path ≠ 0 → s.IsDir (s.resolve path).toNat → ∀ e ∈ s.entries (s.resolve path).toNat, e.name.length ≤ 15) :
    LegibleTree s := by
  have browsable := ordered.tree.toBrowsable
  refine ⟨ordered.tree.root_real ordered.layout,fun path d inode found live read dir => ⟨s.entries d.toNat,?_⟩⟩
  have resolved : s.resolve path = d := Except.ok.inj ((ordered.lookup path).symm.trans found)
  have node : role d.toNat = .inode := by
    rw [← resolved] at live ⊢
    exact resolve_node browsable live
  have here : s.IsDir d.toNat := by
    have inside := (ordered.layout.bound node (by simp)).2
    have stored : Returns (readInode d) s fun i _ => i = s.inodeAt d.toNat := (runs_readInode ordered.layout.mounted inside).mpr rfl
    obtain ⟨i,t,ran,equal⟩ := returns_iff.mp stored
    rw [ran] at read
    obtain rfl := Except.ok.inj read
    rw [equal] at dir
    exact dir
  have ok := browsable.dirs d.toNat node here
  obtain ⟨⟨status,fd⟩,t,opened,scan,quiet,number⟩ := returns_iff.mp (Scan.opened ordered.layout (.refl s) node ok.size ok.slotted)
  dsimp only at scan number
  obtain ⟨placed,_,same⟩ := onFile_open opened
  have size := scan.size
  have length : (s.entries d.toNat).length = s.slots d.toNat := by
    unfold Machine.entries
    rw [List.length_map,List.length_range]
  refine ⟨⟨status,fd,by rw [opened],by rw [length]; exact size,?_⟩,?_⟩
  swap
  · rw [← resolved]
    exact named path (by rw [resolved]; exact live) (by rw [resolved]; exact here)
  unfold Machine.entries
  rw [List.range_eq_range']
  exact scan.decodes same placed (Nat.zero_add _)

end standing

-- A volume whose root holds one file leads to the two of them.
theorem walk_one {e : Entry} (root : s.IsDir 1) (held : s.entries 1 = [e]) (number : e.entInumber = 2) (file : ¬ s.IsDir 2)
    (names : List (List Byte)) : s.walk 1 names = 0 ∨ s.walk 1 names = 1 ∨ s.walk 1 names = 2 := by
  have leads : ∀ c, s.step 1 c = 0 ∨ s.step 1 c = 2 := by
    intro c
    have stepped : s.step 1 c = ([e].find? (Entry.names c ·)).elim 0 (·.entInumber) := by
      unfold Machine.step Machine.child
      rw [if_pos (show s.IsDir (1 : Word).toNat from root),← held]
      rfl
    rw [stepped,List.find?_singleton]
    split
    · exact .inr number
    · exact .inl rfl
  cases names with
  | nil => exact .inr (.inl rfl)
  | cons c rest =>
      rw [Machine.walk]
      rcases leads (c.take 16) with none | next
      · rw [if_pos none]
        exact .inl rfl
      rw [next,if_neg (by decide)]
      cases rest with
      | nil => exact .inr (.inr rfl)
      | cons c' rest =>
          have ends : s.step 2 (c'.take 16) = 0 := by
            unfold Machine.step
            rw [if_neg (show ¬ s.IsDir (2 : Word).toNat from file)]
          rw [Machine.walk,if_pos ends]
          exact .inl rfl

variable {role : Nat → Role} {free : List Nat}

theorem Ordered.one_legible {e : Entry} (ordered : Ordered s role free) (root : s.super.rootInumber = 1) (dir : s.IsDir 1)
    (held : s.entries 1 = [e]) (number : e.entInumber = 2) (file : ¬ s.IsDir 2) (short : e.name.length ≤ 15) : LegibleTree s := by
  refine ordered.legible fun path live here e member => ?_
  have leads : s.resolve path = 1 := by
    unfold Machine.resolve at live here ⊢
    split at live
    · rename_i absolute
      rw [if_pos absolute,root] at here ⊢
      rw [root] at live
      rcases walk_one dir held number file (components path) with none | there | there
      · exact absurd none live
      · exact there
      · rw [there] at here
        exact absurd here file
    · exact absurd rfl live
  rw [leads,show (1 : Word).toNat = 1 from rfl,held] at member
  rw [List.mem_singleton.mp member]
  exact short

theorem Ordered.root_parent (ordered : Ordered s role free) (root : s.super.rootInumber = 1) (dir : s.IsDir 1)
    (absolute : Absolute path) (rooted : components (dirname path) = []) : (dinumberOfPath path s).1 = .ok (1,lastBasename path) := by
  have front : s.resolve (dirname path) = 1 := by
    unfold Machine.resolve
    rw [if_pos (absolute_dirname absolute),rooted]
    exact root
  have parent : Returns (dinumberOfPath path) s _ := runs_dinumberOfPath ordered.layout ordered.tree.toBrowsable
  obtain ⟨r,u,looked,first,second,_⟩ := returns_iff.mp parent
  unfold Machine.parent at first
  dsimp only at first
  rw [front,if_pos (show s.IsDir (1 : Word).toNat from dir)] at first
  rw [looked,← second absolute,← first]

-- A root with one file, whose name is fifteen characters long: it is found by its
-- name, and missed with two characters more, which a path walk cuts to sixteen.
theorem lookup_agrees_long : ∃ s t, initSuper 0 0 (zeros 8 32) (recordedDisk (volumeOf 64)) = (.ok (),s) ∧
    NameStep s (.create (slash :: List.replicate 15 97) .file 2) t ∧
    (viaParent (slash :: List.replicate 15 97) t).1 = .ok 2 ∧ OneEntry t 1 (List.replicate 15 97) 2 ∧
    (viaParent (slash :: List.replicate 17 97) t).1 = .ok 0 ∧ OneEntry t 1 (List.replicate 17 97) 0 := by
  have plain : (newcomer 2 (lastBasename (slash :: List.replicate 15 97))).Plain := by
    unfold Entry.Plain
    decide
  have absolute : Absolute (slash :: List.replicate 15 97) := by decide
  obtain ⟨s,t,equal,fresh,size,head,parent,_,ran,made,typed⟩ := first_typed absolute (by decide) (List.replicate 15 97) (by decide) plain
  obtain ⟨root,dir,slots,slot⟩ := first_entry fresh parent made
  have ordered := fresh.ordered
  rw [size] at ordered
  have absent : s.resolve (slash :: List.replicate 15 97) = 0 := by
    unfold Machine.resolve
    rw [if_pos absolute,show components (slash :: List.replicate 15 97) = [List.replicate 15 97] by decide,Machine.walk,fresh.root,
      fresh.step,if_pos rfl]
  obtain ⟨role,free,after,found,_⟩ := ordered.made (by decide) (by rw [parent]; decide) absent (by decide) made
  rw [head] at found slot
  have last : lastBasename (slash :: List.replicate 15 97) = List.replicate 15 97 := by decide
  rw [last] at slot
  have held : t.entries 1 = [newcomer 2 (List.replicate 15 97)] := by
    unfold Machine.entries
    rw [slots,← slot]
    rfl
  have file : ¬ t.IsDir 2 := by
    unfold Machine.IsDir
    rw [typed]
    decide
  have tree := after.one_legible root dir held rfl file (by decide)
  have missed : (inumberOfPath (slash :: List.replicate 17 97) t).1 = .ok 0 := by
    have step : t.step 1 (List.replicate 16 97) = 0 := by
      unfold Machine.step Machine.child
      rw [if_pos (show t.IsDir (1 : Word).toNat from dir),show (1 : Word).toNat = 1 from rfl,held,List.find?_singleton,if_neg (by decide)]
      rfl
    rw [after.lookup]
    unfold Machine.resolve
    rw [if_pos (by decide),show components (slash :: List.replicate 17 97) = [List.replicate 17 97] by decide,Machine.walk,root,
      show (List.replicate 17 (97 : Byte)).take 16 = List.replicate 16 97 by decide,step,if_pos rfl]
  have short := lookup_agrees tree (show lastBasename (slash :: List.replicate 15 97) ≠ [] by decide)
  have long := lookup_agrees tree (show lastBasename (slash :: List.replicate 17 97) ≠ [] by decide)
  have one := (short.2 1 _ 2 (after.root_parent root dir (by decide) (by decide)) (by decide) found).2
  have two := (long.2 1 _ 0 (after.root_parent root dir (by decide) (by decide)) (by decide) missed).2
  rw [last] at one
  rw [show lastBasename (slash :: List.replicate 17 97) = List.replicate 17 97 by decide] at two
  exact ⟨s,t,equal,.create (by decide) ran,short.1.symm.trans found,one,long.1.symm.trans missed,two⟩

end AsePlusPlus
