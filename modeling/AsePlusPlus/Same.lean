import AsePlusPlus.Writing

namespace AsePlusPlus
open Words Program

variable {role role' : Nat → Role} {free free' : List Nat} {s t u : Machine} {fd : FileDesc} {content : Nat → Byte}

-- `t` holds what `s` holds: the device has moved, and what was written was
-- there already.
def Same (s t : Machine) : Prop :=
  ∃ master head journal, t = {s with hda := ⟨s.hda.sectors,master,head⟩,journal := journal}

theorem Same.refl (s : Machine) : Same s s := ⟨s.hda.master,s.hda.head,s.journal,rfl⟩
theorem Same.trans (one : Same r s) (two : Same s t) : Same r t := by
  obtain ⟨_,_,_,rfl⟩ := one
  obtain ⟨master,head,journal,rfl⟩ := two
  exact ⟨master,head,journal,rfl⟩
theorem Quiet.same (quiet : Quiet s t) : Same s t := by
  obtain ⟨master,head,rfl⟩ := quiet
  exact ⟨master,head,s.journal,rfl⟩
theorem Same.sectors (same : Same s t) : t.hda.sectors = s.hda.sectors := by obtain ⟨_,_,_,rfl⟩ := same; rfl
theorem Same.blk (same : Same s t) (b : Nat) : t.blk b = s.blk b := by obtain ⟨_,_,_,rfl⟩ := same; rfl
theorem Same.super (same : Same s t) : t.super = s.super := by obtain ⟨_,_,_,rfl⟩ := same; rfl
theorem Same.nsec (same : Same s t) : t.nsec = s.nsec := by obtain ⟨_,_,_,rfl⟩ := same; rfl
theorem Same.frame (same : Same s t) : t.frame = s.frame := by obtain ⟨_,_,_,rfl⟩ := same; rfl
theorem Same.cwd (same : Same s t) : t.cwd = s.cwd := by obtain ⟨_,_,_,rfl⟩ := same; rfl
theorem Same.entryAt (same : Same s t) (b k : Nat) : t.entryAt b k = s.entryAt b k := by
  obtain ⟨_,_,_,rfl⟩ := same; rfl
theorem Same.lookup (same : Same s t) (i f : Nat) : t.lookup i f = s.lookup i f := by obtain ⟨_,_,_,rfl⟩ := same; rfl
theorem Same.byteAt (same : Same s t) (i q : Nat) : t.byteAt i q = s.byteAt i q := by obtain ⟨_,_,_,rfl⟩ := same; rfl
theorem Same.synced (same : Same s t) (synced : Synced s) : Synced t := by obtain ⟨_,_,_,rfl⟩ := same; exact synced

theorem Layout.same (layout : Layout s role free) (same : Same s t) : Layout t role free := by
  obtain ⟨_,_,_,rfl⟩ := same
  obtain ⟨m,⟨linked,magic,inside,count⟩,frees,bounds,blocks⟩ := layout
  exact ⟨⟨m.1,m.2,m.3,m.4,m.5⟩,⟨linked,magic,inside,count⟩,frees,bounds,blocks⟩

-- The same, and nothing outside the volume was named meanwhile.
structure Still (s t : Machine) : Prop where
  same : Same s t
  confined : Confined s t

theorem Still.refl (s : Machine) : Still s s := ⟨.refl s,.refl s⟩
theorem Still.trans (one : Still r s) (two : Still s t) : Still r t :=
  ⟨one.same.trans two.same,one.confined.trans two.confined⟩
theorem Quiet.still (quiet : Quiet s t) : Still s t := ⟨quiet.same,quiet.confined⟩
theorem Still.sound (still : Still s t) : Sound s t := ⟨still.confined,still.same.synced⟩
theorem Still.grew (still : Still s t) (layout : Layout s role free) : Grew s t role role free free :=
  Starved.grew ⟨still.confined.toWithin,still.same.super,fun c _ => still.same.blk c⟩ layout

-- Recording the size that is recorded already.
theorem resized_same {inumber : Word} (size : Word) (equal : size = s.entryAt inumber.toNat 1) :
    Same s (s.resized inumber size) := by
  have back : putWord (s.blk inumber.toNat) 1 size = s.blk inumber.toNat := by
    rw [equal]
    exact putWord_same _ rfl
  have sectors : (s.resized inumber size).hda.sectors = s.hda.sectors := by
    funext p
    by_cases here : p = s.start+inumber.toNat
    · subst here
      exact (if_pos rfl).trans back
    · exact if_neg here
  refine ⟨(s.resized inumber size).hda.master,(s.resized inumber size).hda.head,(s.resized inumber size).journal,?_⟩
  rw [← sectors]
  rfl

end AsePlusPlus
