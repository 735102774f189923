import AsePlusPlus.Torn

namespace AsePlusPlus
open Words Program Resumption

variable {role role' role'' : Nat → Role} {free free' free'' rest : List Nat} {o s t u v w : Machine} {fd : FileDesc}
variable {b d f k n p q : Nat} {path text : List Byte} {content new : Nat → Byte} {I : Machine → Prop} {type : FileType} {i : Word}
variable {found : Store.Files (List Byte) (List Byte) → Prop}

-- The power goes in `w`, during a command that was given in `s`: what the next mount
-- finds is in order, and its files are as `found` says.
structure Salvaged (s w : Machine) (found : Store.Files (List Byte) (List Byte) → Prop) : Prop where
  ordered : ∃ role free, Ordered w.cut role free
  framed : Framed s w.cut
  found : found w.cut.files

theorem cut_synced (s : Machine) : Synced s.cut := rfl

theorem Same.ordered (same : Same s t) (synced : Synced s) (ordered : Ordered s role free) : Ordered t role free := by
  have kept : Retains (fun _ => True) s t role role free free := same.keeps ordered (.inl synced)
  exact kept.ordered

theorem salvaged_blind (s : Machine) (found : Store.Files (List Byte) (List Byte) → Prop) : Blind fun w => Salvaged s w found := by
  intro w t level salvaged
  obtain ⟨⟨role,free,ordered⟩,framed,files⟩ := salvaged
  have same := level.cut
  refine ⟨⟨role,free,same.ordered (cut_synced w) ordered⟩,?_,?_⟩
  · have within := same.within
    exact ⟨within.mbr.trans framed.mbr,within.volume.trans framed.volume,fun p outside =>
      (congrFun same.sectors p).trans (framed.outside p outside)⟩
  · rw [same.files]
    exact files

-- Where nothing is owed, the mount finds what there is.
theorem Synced.salvaged (synced : Synced t) (ordered : Ordered t role free) (within : Within s t) (files : found t.files) : Salvaged s t found := by
  have same := synced.cut
  exact ⟨⟨role,free,by rw [same]; exact ordered⟩,by rw [same]; exact within.framed,by rw [same]; exact files⟩

theorem Veiled.salvaged (veiled : Veiled b o t role role' free') (ordered : Ordered o role free) (away : role b ≠ .inode ∨ o.IsDir b)
    (within : Within s o) (synced : Synced t) (files : found o.files) : Salvaged s t found := by
  refine synced.salvaged (veiled.ordered ordered synced) (within.trans veiled.within) ?_
  rw [veiled.files ordered away]
  exact files

theorem Torn.veiled (torn : Torn b n o t role role' free free' new) (seen : ∀ q, o.Shows b b q → t.byteAt b q = o.byteAt b q) :
    Veiled b o t role role' free' := by
  refine ⟨torn.layout,torn.within,torn.toCarries.root,fun j => ⟨torn.nodes j,torn.node⟩,torn.types,torn.sizes,fun j f node live => ?_,
    fun j q node shown => ?_⟩
  · rw [torn.kept j f node live]
    exact live
  · by_cases here : j = b
    · subst here
      exact seen q shown
    · unfold Machine.byteAt
      rw [torn.files j _ node here]

-- A slot of which the first `n` blocs of its directory have been written.
def Machine.halved (s : Machine) (d k n : Nat) (buf : Vector Byte 20) : Vector Byte 20 :=
  build 20 fun i => if (20*k+i)/512 < n then cell buf i else s.byteAt d (20*k+i)

section slot
variable {buf : Vector Byte 20} (ok : DirOk o d) (node : role d = .inode)
include ok node

theorem Torn.inscribed (torn : Torn d n o t role role' free free' (splice (o.byteAt d) (20*k) buf.toList)) (inside : k < o.slots d) :
    Inscribed o t role role' free free' d k (o.halved d k n buf) := by
  have length : buf.toList.length = 20 := Vector.length_toList
  refine ⟨torn.toExtends,?_,fun i small => ?_,fun q away => ?_,fun q low high => ?_,fun j other away => ?_⟩
  · rw [torn.sizes d node,ok.size]
    omega
  · unfold Machine.halved
    rw [cell_build _ small,torn.blocs,splice_cell _ _ _ small]
  · rw [torn.blocs q]
    split
    · exact splice_outside _ _ (by rw [length]; exact away)
    · rfl
  · have live := ok.mapped q (by omega)
    rw [torn.kept d _ node live]
    exact live
  · refine ⟨torn.sizes j other,funext fun q => ?_⟩
    unfold Machine.byteAt
    rw [torn.files j _ other away]

variable (dir : o.IsDir d)
include dir

-- While a slot is written the directory is the old one, or the slot is there, or
-- there is its front.
theorem minds_slot (low : k ≤ o.slots d) (blind : Blind I)
    (before : ∀ t role' free', Veiled d o t role role' free' → Synced t → I t)
    (after : ∀ t role' free' n, k < o.slots d → 20*k/512 < n → Inscribed o t role role' free free' d k (o.halved d k n buf) →
      Sound o t → Synced t → I t) : Minds I d o role free (20*k) buf.toList := by
  have length : buf.toList.length = 20 := Vector.length_toList
  have hidden : ∀ t role' free' n, k = o.slots d ∨ n ≤ 20*k/512 →
      Torn d n o t role role' free free' (splice (o.byteAt d) (20*k) buf.toList) → Veiled d o t role role' free' := by
    intro t role' free' n early torn
    refine torn.veiled fun q shown => ?_
    unfold Machine.Shows at shown
    rw [if_pos dir] at shown
    rw [torn.blocs q]
    split
    · exact splice_before _ _ (by omega)
    · rfl
  refine ⟨blind,fun t role' free' n torn synced => ?_,fun t role' free' n q x torn synced some first last hole => ?_⟩
  · by_cases early : k = o.slots d ∨ n ≤ 20*k/512
    · exact before t role' free' (hidden t role' free' n early torn) synced
    · exact after t role' free' n (by omega) (by omega) (torn.inscribed ok node (by omega)) torn.sound synced
  · rw [length] at last
    by_cases append : k = o.slots d
    · obtain ⟨c,rest,rfl⟩ := List.exists_cons_of_ne_nil some
      exact before _ _ _ ((hidden t role' _ n (.inl append) torn).trans (torn.layout.claimed_veiled x d))
        (claimed_synced t x torn.layout.chain.head_ne)
    · have live := ok.mapped q (by omega)
      rw [← torn.kept d _ node live] at live
      exact absurd hole live

end slot

-- A slot that lies in one bloc is there as a whole.
theorem halved_whole {buf : Vector Byte 20} (single : 20*k/512 = (20*k+19)/512) (written : 20*k/512 < n) : s.halved d k n buf = buf := by
  refine ext_cell fun i small => ?_
  unfold Machine.halved
  rw [cell_build _ small,if_pos (by omega)]

-- The number of an entry never lies in two.
theorem halved_number {buf : Vector Byte 20} (written : 20*k/512 < n) :
    (Entry.decode (s.halved d k n buf)).entInumber = (Entry.decode buf).entInumber := by
  refine joined_congr fun j small => ?_
  unfold Machine.halved
  rw [cell_build _ (by omega),if_pos (by omega)]

-- A new file shows its first byte at most.
theorem minds_text (node : role b = .inode) (plain : ¬ o.IsDir b) (blind : Blind I)
    (before : ∀ t role' free', Veiled b o t role role' free' → (t.byteAt b 0 = o.byteAt b 0 ∨ t.byteAt b 0 = splice (o.byteAt b) 0 text 0) →
      Synced t → I t) : Minds I b o role free 0 text := by
  have first : ∀ t role' free' n, Torn b n o t role role' free free' (splice (o.byteAt b) 0 text) →
      t.byteAt b 0 = o.byteAt b 0 ∨ t.byteAt b 0 = splice (o.byteAt b) 0 text 0 := by
    intro t role' free' n torn
    rw [torn.blocs 0]
    split
    · exact .inr rfl
    · exact .inl rfl
  have hidden : ∀ t role' free' n, Torn b n o t role role' free free' (splice (o.byteAt b) 0 text) → Veiled b o t role role' free' := by
    intro t role' free' n torn
    refine torn.veiled fun q shown => ?_
    unfold Machine.Shows at shown
    rw [if_neg plain] at shown
    exact absurd rfl shown.1
  refine ⟨blind,fun t role' free' n torn synced => ?_,fun t role' free' n q x torn synced some _ _ _ => ?_⟩
  · exact before t role' free' (hidden t role' free' n torn) (first t role' free' n torn) synced
  · obtain ⟨c,rest,rfl⟩ := List.exists_cons_of_ne_nil some
    have same : (t.claimed x).byteAt b 0 = t.byteAt b 0 := by
      unfold Machine.byteAt
      rw [torn.layout.claimed_fblock x (torn.node node)]
    refine before _ _ _ ((hidden t role' _ n torn).trans (torn.layout.claimed_veiled x b)) ?_ (claimed_synced t x torn.layout.chain.head_ne)
    rw [same]
    exact first t role' _ n torn

end AsePlusPlus
