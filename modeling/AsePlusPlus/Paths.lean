import Mathlib.Data.List.TakeWhile
import AsePlusPlus.Entries
import AsePlusPlus.Formatting

namespace AsePlusPlus
open Words Program

variable {role role' : Nat → Role} {free free' : List Nat} {s t u : Machine} {fd : FileDesc} {d : Word} {name path : List Byte}

-- The inumber that a directory keeps for a name.
def Machine.child (s : Machine) (d : Nat) (name : List Byte) : Word :=
  ((s.entries d).find? (Entry.names name ·)).elim 0 (·.entInumber)

def Machine.IsDir (s : Machine) (i : Nat) : Prop := s.entryAt i 0 = FileType.directory.code

instance (s : Machine) (i : Nat) : Decidable (s.IsDir i) := inferInstanceAs (Decidable (_ = _))

def Machine.step (s : Machine) (i : Word) (name : List Byte) : Word :=
  if s.IsDir i.toNat then s.child i.toNat name else 0

-- A lookup compares the first sixteen characters of a component.
def Machine.walk (s : Machine) : Word → List (List Byte) → Word
  | i,[] => i
  | i,c :: rest => if s.step i (c.take 16) = 0 then 0 else s.walk (s.step i (c.take 16)) rest

def components (path : List Byte) : List (List Byte) := (path.splitOn slash).filter (· ≠ [])

def Absolute (path : List Byte) : Prop := path.head? = some slash

instance (path : List Byte) : Decidable (Absolute path) := inferInstanceAs (Decidable (_ = _))

def Machine.resolve (s : Machine) (path : List Byte) : Word :=
  if Absolute path then s.walk s.super.rootInumber (components path) else 0

structure DirOk (s : Machine) (d : Nat) : Prop where
  size : (s.entryAt d 1).toNat = 20*s.slots d-1
  slotted : Slotted (s.byteAt d) (s.slots d)
  mapped : ∀ q, q < 20*s.slots d → s.lookup d (q/512) ≠ 0

-- Every directory is readable and leads to inodes only.
structure Browsable (s : Machine) (role : Nat → Role) : Prop where
  root : role s.super.rootInumber.toNat = .inode
  dirs : ∀ d, role d = .inode → s.IsDir d → DirOk s d
  nodes : ∀ d, role d = .inode → s.IsDir d → ∀ e ∈ s.entries d, e.entInumber ≠ 0 → role e.entInumber.toNat = .inode

-- What the names lead to is on disk, whatever the device did last.
theorem Same.slots (same : Same s t) (d : Nat) : t.slots d = s.slots d := by obtain ⟨_,_,_,rfl⟩ := same; rfl
theorem Same.slotAt (same : Same s t) (d k : Nat) : t.slotAt d k = s.slotAt d k := by obtain ⟨_,_,_,rfl⟩ := same; rfl
theorem Same.entries (same : Same s t) (d : Nat) : t.entries d = s.entries d := by obtain ⟨_,_,_,rfl⟩ := same; rfl
theorem Same.step (same : Same s t) (i : Word) (name : List Byte) : t.step i name = s.step i name := by
  obtain ⟨_,_,_,rfl⟩ := same; rfl
theorem Same.walk (same : Same s t) (i : Word) (names : List (List Byte)) : t.walk i names = s.walk i names := by
  induction names generalizing i with
  | nil => rfl
  | cons c rest ih => rw [Machine.walk,Machine.walk,same.step,ih]
theorem Same.resolve (same : Same s t) (path : List Byte) : t.resolve path = s.resolve path := by
  unfold Machine.resolve
  rw [same.super,same.walk]
theorem Same.isDir (same : Same s t) (i : Nat) : t.IsDir i ↔ s.IsDir i := by obtain ⟨_,_,_,rfl⟩ := same; rfl
theorem Browsable.same (browsable : Browsable s role) (same : Same s t) : Browsable t role := by
  obtain ⟨_,_,_,rfl⟩ := same
  exact ⟨browsable.root,fun d node dir => ⟨(browsable.dirs d node dir).1,(browsable.dirs d node dir).2,(browsable.dirs d node dir).3⟩,browsable.nodes⟩

theorem find_first {hit : Entry → Prop} [DecidablePred hit] {content : Nat → Byte} (first : First hit content 0 m n) :
    ((List.range m).map (slotOf content)).find? (hit ·) = if n < m then some (slotOf content n) else none := by
  by_cases found : n < m
  · rw [if_pos found,List.find?_eq_some_iff_getElem]
    refine ⟨by simpa using first.here found,n,by simpa using found,by simp,fun j before => ?_⟩
    simpa using first.before j (Nat.zero_le j) before
  · rw [if_neg found,List.find?_eq_none]
    have high := first.high
    simp only [List.mem_map,List.mem_range,decide_eq_true_eq]
    intro e post
    obtain ⟨j,inside,rfl⟩ := post
    exact first.before j (Nat.zero_le j) (by omega)

theorem child_first (s : Machine) (d : Nat) (first : First (Entry.names name) (s.byteAt d) 0 (s.slots d) n) :
    s.child d name = if n < s.slots d then (s.slotAt d n).entInumber else 0 := by
  unfold Machine.child Machine.entries
  rw [show s.slotAt d = slotOf (s.byteAt d) from rfl,find_first first]
  split <;> rfl

-- Closing a directory that was only read.
theorem Scan.close {content : Nat → Byte} (scan : Scan s t role role free free content m k fd) (still : Still s t)
    (size : (s.entryAt fd.file 1).toNat = 20*m-1) : Returns (closeIfile fd) t fun _ u => Still s u := by
  have inside := (scan.layout.bound scan.here (by simp)).2
  have quiet := Quiet.load t fd.file
  rw [Returns,runs_close_clean scan.layout.mounted inside scan.clean]
  refine still.trans (quiet.still.trans ⟨resized_same _ ?_,(resized_sound (scan.layout.quiet quiet) scan.here _).confined⟩)
  refine BitVec.eq_of_toNat_eq (scan.size.trans ?_)
  rw [quiet.same.entryAt,still.same.entryAt]
  exact size.symm

-- find_entry on an open directory.
theorem Scan.find {content : Nat → Byte} (scan : Scan s t role role' free free' content m k fd) (name : List Byte) :
    Returns (findEntry fd name) t fun r u => ∃ n, First (Entry.names name) content 0 m n ∧
      Scan s u role role' free free' content m (if n < m then n+1 else m) r.2 ∧ Quiet t u ∧
      (if n < m then r.1.toNat = n else r.1 = returnFailure) ∧ r.2.fdsInumber = fd.fdsInumber := by
  have few := scan.slotted.few
  unfold findEntry
  simp only [Returns,runs_bind,runs_get]
  refine (scan.seek2 (show (0 : Word).toNat = 20*0 from rfl) (Nat.zero_le m)).mono ?_ (fun _ _ => id)
  intro fd' u post
  obtain ⟨start,quiet,inumber⟩ := post
  rw [findEntryLoop_eq]
  refine (start.loop t.frame.entry (Nat.zero_le m) rfl (by unfold scanFuel; omega)).mono ?_ (fun _ _ => id)
  intro r v post
  obtain ⟨n,first,last,quiet',value,inumber'⟩ := post
  refine ⟨n,first,last,quiet.trans quiet',?_,inumber'.trans inumber⟩
  split
  · rename_i found; rw [if_pos found] at value; exact value
  · rename_i found
    rw [if_neg found] at value
    obtain ⟨_,_,failed⟩ := value
    exact failed

theorem index_ne_failure {w : Word} (index : w.toNat = n) (few : n < 3174) : w ≠ returnFailure := by
  intro same
  obtain rfl := same
  have constant : returnFailure.toNat = 4294967295 := by decide
  omega

theorem index_scaled {w : Word} (index : w.toNat = n) (few : n ≤ 3174) : (w*20).toNat = 20*n := by
  have constant : (20 : Word).toNat = 20 := rfl
  rw [BitVec.toNat_mul,index,constant]
  omega

theorem runs_inumberOfBasename (layout : Layout s role free) (readable : s.IsDir d.toNat → DirOk s d.toNat)
    (node : role d.toNat = .inode) : Returns (inumberOfBasename d name) s fun r t => r = s.step d name ∧ Still s t := by
  have inside := (layout.bound node (by simp)).2
  have quiet := Quiet.load s d.toNat
  unfold inumberOfBasename Machine.step
  rw [Returns,runs_bind,runs_readInode layout.mounted inside,inodeAt_type]
  by_cases dir : s.IsDir d.toNat
  swap
  · rw [if_pos (show s.entryAt d.toNat 0 ≠ _ from dir),if_neg dir]
    exact ⟨rfl,quiet.still⟩
  obtain ⟨size,slotted,_⟩ := readable dir
  have few := slotted.few
  rw [if_neg (fun wrong => wrong dir),if_pos dir,runs_bind]
  refine (Scan.opened layout quiet node size slotted).mono ?_ (fun _ _ => id)
  intro result t post
  obtain ⟨r,fd⟩ := result
  obtain ⟨scan,quiet1,number⟩ := post
  dsimp only at scan number ⊢
  rw [runs_bind]
  refine (scan.find name).mono ?_ (fun _ _ => id)
  intro result u post
  obtain ⟨status,fd1⟩ := result
  obtain ⟨n,first,found,quiet2,value,number1⟩ := post
  dsimp only at found value number1 ⊢
  have child := child_first s d.toNat first
  rw [child]
  have still := quiet1.still.trans quiet2.still
  by_cases present : n < s.slots d.toNat
  swap
  · rw [if_neg present] at value ⊢
    rw [if_pos value]
    exact ⟨rfl,still⟩
  rw [if_pos present] at value found ⊢
  rw [if_neg (index_ne_failure value (by omega)),runs_bind]
  refine (found.seek2 (index_scaled value (by omega)) (Nat.le_of_lt present)).mono ?_ (fun _ _ => id)
  intro fd2 v post
  obtain ⟨back,quiet3,number2⟩ := post
  rw [runs_bind,runs_get,runs_bind]
  refine (back.entry v.frame.entry present).mono ?_ (fun _ _ => id)
  intro result w post
  obtain ⟨count,entry,fd3⟩ := result
  obtain ⟨read,quiet4,_,slot,number3⟩ := post
  dsimp only at read slot number3 ⊢
  have file : fd3.file = d.toNat := by
    unfold FileDesc.file
    rw [number3,number2,number1,number]
  have walked := still.trans (quiet3.still.trans quiet4.still)
  rw [runs_bind]
  refine (read.close walked (by rw [file]; exact size)).mono ?_ (fun _ _ => id)
  intro _ x closed
  rw [runs_pure,slot]
  exact ⟨rfl,closed⟩

theorem components_nil : components [] = [] := rfl

theorem components_slash (rest : List Byte) : components (slash :: rest) = components rest := by
  unfold components
  rw [List.splitOn_cons_eq_if_modifyHead,if_pos (by simp)]
  rfl

theorem components_append (a b : List Byte) : components (a ++ slash :: b) = components a ++ components b := by
  unfold components
  rw [List.splitOn_append_cons_self,List.filter_append]

theorem components_single (plain : slash ∉ name) (some : name ≠ []) : components name = [name] := by
  unfold components
  rw [List.splitOn_eq_singleton plain]
  simp [some]

theorem slash_takeWhile (path : List Byte) : slash ∉ path.takeWhile (· ≠ slash) := by
  intro member
  simpa using List.mem_takeWhile_imp member

-- The leading component, and what the loop goes on with.
theorem components_cons (c : Byte) (rest : List Byte) (other : c ≠ slash) : components (c :: rest) =
    (c :: rest).takeWhile (· ≠ slash) :: components ((c :: rest).dropWhile (· ≠ slash)).tail := by
  have head : (c :: rest).takeWhile (· ≠ slash) ≠ [] := by
    rw [List.takeWhile_cons_of_pos (by simpa using other)]
    simp
  have plain := slash_takeWhile (c :: rest)
  have split : (c :: rest).takeWhile (· ≠ slash) ++ (c :: rest).dropWhile (· ≠ slash) = c :: rest :=
    List.takeWhile_append_dropWhile
  generalize (c :: rest).takeWhile (· ≠ slash) = first at head plain split ⊢
  have stop := List.head?_dropWhile_not (fun x : Byte => decide (x ≠ slash)) (c :: rest)
  generalize (c :: rest).dropWhile (· ≠ slash) = last at split stop ⊢
  rw [← split]
  cases last with
  | nil => rw [List.append_nil,components_single plain head]; rfl
  | cons x more =>
      have here : x = slash := by simpa using stop
      subst here
      rw [components_append,components_single plain head]
      rfl

theorem step_node (browsable : Browsable s role) (node : role d.toNat = .inode) (live : s.step d name ≠ 0) :
    role (s.step d name).toNat = .inode := by
  unfold Machine.step Machine.child at live ⊢
  split at live
  swap
  · exact absurd rfl live
  rename_i dir
  rw [if_pos dir]
  cases found : (s.entries d.toNat).find? (Entry.names name ·) with
  | none => rw [found] at live; exact absurd rfl live
  | some e =>
      rw [found] at live
      exact browsable.nodes _ node dir e (List.mem_of_find?_eq_some found) live

theorem walk_node (browsable : Browsable s role) (node : role d.toNat = .inode) (names : List (List Byte))
    (live : s.walk d names ≠ 0) : role (s.walk d names).toNat = .inode := by
  induction names generalizing d with
  | nil => exact node
  | cons c rest ih =>
      unfold Machine.walk at live ⊢
      split at live
      · exact absurd rfl live
      · rename_i some
        rw [if_neg some]
        exact ih (step_node browsable node some) live

theorem runs_pathLoop (layout : Layout s role free) (browsable : Browsable s role) (node : role d.toNat = .inode)
    (path : List Byte) : Returns (pathLoop d path) s fun r t => r = s.walk d (components path) ∧ Still s t := by
  induction long : path.length using Nat.strongRecOn generalizing path d s with
  | ind n ih =>
      subst long
      cases path with
      | nil =>
          rw [pathLoop]
          exact ⟨rfl,.refl s⟩
      | cons c rest =>
          rw [pathLoop]
          by_cases separator : c = slash
          · subst separator
            rw [if_pos rfl,components_slash]
            exact ih rest.length (by simp) layout browsable node rest rfl
          rw [if_neg separator,components_cons c rest separator,Machine.walk,Returns,runs_bind]
          refine (runs_inumberOfBasename layout (browsable.dirs _ node) node).mono ?_ (fun _ _ => id)
          intro i t post
          obtain ⟨rfl,still⟩ := post
          split
          · exact ⟨rfl,still⟩
          rename_i live
          have shorter : ((c :: rest).dropWhile (· ≠ slash)).tail.length < (c :: rest).length := by
            have dropped := (List.dropWhile_sublist (p := (· ≠ slash)) (l := c :: rest)).length_le
            simp only [List.length_tail,List.length_cons] at dropped ⊢
            omega
          refine (ih _ shorter (layout.same still.same) (browsable.same still.same) (step_node browsable node live) _ rfl).mono ?_
            (fun _ _ => id)
          intro r u post
          obtain ⟨rfl,still'⟩ := post
          exact ⟨still.same.walk _ _,still.trans still'⟩

theorem runs_inumberOfPath (layout : Layout s role free) (browsable : Browsable s role) (path : List Byte) :
    Returns (inumberOfPath path) s fun r t => r = s.resolve path ∧ Still s t := by
  unfold inumberOfPath Machine.resolve
  by_cases absolute : Absolute path
  swap
  · rw [if_pos (show path.head? ≠ some slash from absolute),if_neg absolute]
    exact ⟨rfl,.refl s⟩
  · rw [if_neg (fun wrong => wrong absolute),if_pos absolute]
    simp only [Returns,runs_bind,runs_get]
    exact runs_pathLoop layout browsable browsable.root path

-- The directory that is to hold the last component.
def Machine.parent (s : Machine) (path : List Byte) : Word :=
  let d := s.resolve (dirname path)
  if s.IsDir d.toNat then d else 0

theorem lastBasename_plain (path : List Byte) : slash ∉ lastBasename path := by
  unfold lastBasename
  rw [List.mem_reverse]
  exact slash_takeWhile _

theorem dirname_append (path : List Byte) : dirname path ++ lastBasename path = path := by
  unfold dirname lastBasename
  have split : (path.reverse.takeWhile (· ≠ slash)) ++ (path.reverse.dropWhile (· ≠ slash)) = path.reverse :=
    List.takeWhile_append_dropWhile
  have whole := congrArg List.reverse split
  rw [List.reverse_append,List.reverse_reverse] at whole
  generalize (path.reverse.dropWhile (· ≠ slash)).reverse = front at whole
  generalize (path.reverse.takeWhile (· ≠ slash)).reverse = last at whole ⊢
  subst whole
  simp

-- The dirname ends in a slash.
theorem dirname_ends (some : slash ∈ path) : ∃ before, dirname path = before ++ [slash] := by
  have front := List.dropWhile_eq_nil_iff (p := (fun x : Byte => decide (x ≠ slash))) (l := path.reverse)
  have stop := List.head?_dropWhile_not (fun x : Byte => decide (x ≠ slash)) path.reverse
  have split : (path.reverse.takeWhile (· ≠ slash)) ++ (path.reverse.dropWhile (· ≠ slash)) = path.reverse :=
    List.takeWhile_append_dropWhile
  have whole := congrArg List.reverse split
  rw [List.reverse_append,List.reverse_reverse] at whole
  have same : dirname path = (path.reverse.dropWhile (· ≠ slash)).reverse :=
    List.append_cancel_right ((dirname_append path).trans whole.symm)
  cases rest : path.reverse.dropWhile (· ≠ slash) with
  | nil =>
      have all := front.mp rest slash (List.mem_reverse.mpr some)
      simp at all
  | cons x more =>
      rw [rest] at stop same
      have here : x = slash := by simpa using stop
      subst here
      exact ⟨more.reverse,by rw [same,List.reverse_cons]⟩

theorem dirname_slash (absolute : Absolute path) : ∃ before, dirname path = before ++ [slash] :=
  dirname_ends (List.mem_of_mem_head? absolute)

theorem components_dirname (absolute : Absolute path) (some : lastBasename path ≠ []) :
    components path = components (dirname path) ++ [lastBasename path] := by
  obtain ⟨before,equal⟩ := dirname_slash absolute
  have whole := dirname_append path
  rw [equal,List.append_assoc,List.singleton_append] at whole
  have front : components (dirname path) = components before := by
    rw [equal,components_append,components_nil,List.append_nil]
  rw [front,← components_single (lastBasename_plain path) some,← components_append,whole]

theorem absolute_dirname (absolute : Absolute path) : Absolute (dirname path) := by
  obtain ⟨before,equal⟩ := dirname_slash absolute
  have whole := dirname_append path
  unfold Absolute at absolute ⊢
  rw [equal] at whole ⊢
  rw [← whole] at absolute
  cases before <;> exact absolute

theorem relative_dirname (relative : ¬ Absolute path) : ¬ Absolute (dirname path) := by
  intro wrong
  apply relative
  have whole := dirname_append path
  unfold Absolute at wrong ⊢
  rw [← whole]
  cases front : dirname path with
  | nil => rw [front] at wrong; cases wrong
  | cons c more => rw [front] at wrong; exact wrong

theorem parent_relative (relative : ¬ Absolute path) : s.parent path = 0 := by
  unfold Machine.parent Machine.resolve
  rw [if_neg (relative_dirname relative)]
  exact ite_self 0

theorem resolve_node (browsable : Browsable s role) (live : s.resolve path ≠ 0) :
    role (s.resolve path).toNat = .inode := by
  unfold Machine.resolve at live ⊢
  split at live
  · rename_i absolute
    rw [if_pos absolute]
    exact walk_node browsable browsable.root _ live
  · exact absurd rfl live

theorem runs_dinumberOfPath (layout : Layout s role free) (browsable : Browsable s role) :
    Returns (dinumberOfPath path) s fun r t => r.1 = s.parent path ∧ (Absolute path → r.2 = lastBasename path) ∧
      Still s t := by
  unfold dinumberOfPath
  by_cases absolute : Absolute path
  swap
  · rw [if_pos (show path.head? ≠ some slash from absolute),parent_relative absolute]
    exact ⟨rfl,fun wrong => absurd wrong absolute,.refl s⟩
  rw [if_neg (fun wrong => wrong absolute),Returns,runs_bind]
  refine (runs_inumberOfPath layout browsable _).mono ?_ (fun _ _ => id)
  intro i t post
  obtain ⟨rfl,still⟩ := post
  unfold Machine.parent
  by_cases null : s.resolve (dirname path) = 0
  · rw [if_pos null,null]
    exact ⟨(ite_self 0).symm,fun _ => rfl,still⟩
  have layout' := layout.same still.same
  have inside := (layout'.bound (resolve_node browsable null) (by simp)).2
  rw [if_neg null,runs_bind,runs_readInode layout'.mounted inside,inodeAt_type,still.same.entryAt]
  dsimp only
  refine ⟨?_,fun _ => rfl,still.trans (Quiet.load _ _).still⟩
  dsimp only
  by_cases dir : s.IsDir (s.resolve (dirname path)).toNat
  · rw [if_pos dir,if_neg (fun wrong => wrong dir)]
  · rw [if_neg dir,if_pos (show s.entryAt _ 0 ≠ _ from dir)]

theorem freshRole_node (n d : Nat) : freshRole n d = .inode ↔ d = 1 := by
  unfold freshRole unusedRole
  by_cases same : d = 1
  · subst same
    simp
  · rw [Function.update_of_ne same]
    split <;> simp [same]

theorem Fresh.slots (fresh : Fresh s) : s.slots 1 = 0 := by
  unfold Machine.slots
  rw [fresh.empty]
  decide

theorem Fresh.entries (fresh : Fresh s) : s.entries 1 = [] := by
  unfold Machine.entries
  rw [fresh.slots]
  rfl

-- The empty root of a formatted volume.
theorem Fresh.browsable (fresh : Fresh s) : Browsable s (freshRole s.nsec) := by
  refine ⟨by rw [fresh.root]; exact (freshRole_node _ _).mpr rfl,fun d node _ => ?_,fun d node _ e member => ?_⟩
  · obtain rfl := (freshRole_node _ _).mp node
    have none : ∀ q, ¬ q < 20*s.slots 1 := fun q low => by rw [fresh.slots] at low; exact Nat.not_lt_zero q low
    refine ⟨?_,⟨?_,fun q low => absurd low (none q)⟩,fun q low => absurd low (none q)⟩
    · rw [fresh.empty,fresh.slots]; rfl
    · rw [fresh.slots]; exact Nat.zero_le _
  · obtain rfl := (freshRole_node _ _).mp node
    rw [fresh.entries] at member
    cases member

theorem Fresh.step (fresh : Fresh s) (name : List Byte) : s.step 1 name = 0 := by
  have child : s.child 1 name = 0 := by
    unfold Machine.child
    rw [fresh.entries]
    rfl
  unfold Machine.step
  split
  · exact child
  · rfl

end AsePlusPlus
