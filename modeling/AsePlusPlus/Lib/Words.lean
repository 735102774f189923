namespace Words

abbrev Byte := BitVec 8
abbrev Word := BitVec 32

variable {w n : Nat}

-- Total access to a fixed-size buffer: zero outside, and a store outside the
-- buffer changes nothing.
def cell (v : Vector (BitVec w) n) (i : Nat) : BitVec w := v[i]?.getD 0
def put (v : Vector (BitVec w) n) (i : Nat) (x : BitVec w) : Vector (BitVec w) n := v.setIfInBounds i x
def build (n : Nat) (f : Nat → BitVec w) : Vector (BitVec w) n := Vector.ofFn fun i => f i.val
def zeros (w n : Nat) : Vector (BitVec w) n := Vector.replicate n 0

theorem cell_eq_getElem (v : Vector (BitVec w) n) (h : i < n) : cell v i = v[i] := by simp [cell,h]

theorem cell_build (f : Nat → BitVec w) (h : i < n) : cell (build n f) i = f i := by simp [cell,build,h]

theorem cell_put (v : Vector (BitVec w) n) (x : BitVec w) (h : i < n) (j : Nat) :
    cell (put v i x) j = if j = i then x else cell v j := by
  unfold cell put
  rw [Vector.getElem?_setIfInBounds]
  by_cases same : i = j
  · subst j; simp [h]
  · simp [same,Ne.symm same]

@[simp] theorem cell_zeros (i : Nat) : cell (zeros w n) i = 0 := by
  unfold cell zeros
  by_cases h : i < n <;> simp [h]

theorem ext_cell {u v : Vector (BitVec w) n} (same : ∀ i, i < n → cell u i = cell v i) : u = v := by
  apply Vector.ext
  intro i h
  simpa only [cell_eq_getElem _ h] using same i h

theorem build_cell (v : Vector (BitVec w) n) : build n (cell v) = v :=
  ext_cell fun _ h => cell_build _ h

-- Little-endian words: `joined` reads four consecutive bytes, `byteOf` is the
-- k-th byte of a word.
def joined (b : Nat → Byte) : Word := (b 3 ++ b 2) ++ (b 1 ++ b 0)
def byteOf (x : Word) (k : Nat) : Byte := (x >>> (8*k)).setWidth 8

theorem joined_byteOf (x : Word) : joined (byteOf x) = x := by
  apply BitVec.eq_of_getLsbD_eq
  intro i h
  simp only [joined,byteOf,BitVec.getLsbD_append,BitVec.getLsbD_setWidth,BitVec.getLsbD_ushiftRight]
  grind

theorem byteOf_joined (b : Nat → Byte) (h : k < 4) : byteOf (joined b) k = b k := by
  apply BitVec.eq_of_getLsbD_eq
  intro i small
  simp only [joined,byteOf,BitVec.getLsbD_append,BitVec.getLsbD_setWidth,BitVec.getLsbD_ushiftRight]
  have cases : k = 0 ∨ k = 1 ∨ k = 2 ∨ k = 3 := by omega
  rcases cases with rfl | rfl | rfl | rfl <;> grind

-- A byte buffer seen as an array of words, as a C cast of the buffer does.
def wordAt (b : Vector Byte n) (k : Nat) : Word := joined fun j => cell b (4*k+j)
def ofWords (n : Nat) (f : Nat → Word) : Vector Byte n := build n fun i => byteOf (f (i/4)) (i%4)

theorem joined_congr {b c : Nat → Byte} (same : ∀ j, j < 4 → b j = c j) : joined b = joined c := by
  unfold joined
  rw [same 0 (by decide),same 1 (by decide),same 2 (by decide),same 3 (by decide)]

theorem wordAt_ofWords (f : Nat → Word) (h : 4*k+4 ≤ n) : wordAt (ofWords n f) k = f k := by
  unfold wordAt
  rw [← joined_byteOf (f k)]
  apply joined_congr
  intro j small
  have quotient : (4*k+j)/4 = k := by omega
  have rest : (4*k+j)%4 = j := by omega
  rw [ofWords,cell_build _ (by omega),quotient,rest]

theorem cell_ofWords (f : Nat → Word) (h : i < n) : cell (ofWords n f) i = byteOf (f (i/4)) (i%4) :=
  cell_build _ h

theorem cell_eq_byteOf (b : Vector Byte n) (i : Nat) : cell b i = byteOf (wordAt b (i/4)) (i%4) := by
  unfold wordAt
  rw [byteOf_joined _ (Nat.mod_lt _ (by decide))]
  congr 1
  omega

theorem ofWords_wordAt (b : Vector Byte n) : ofWords n (wordAt b) = b := by
  apply ext_cell
  intro i h
  rw [cell_ofWords _ h,← cell_eq_byteOf]

theorem wordAt_congr {b : Vector Byte n} {c : Vector Byte m} (same : ∀ j, j < 4 → cell b (4*k+j) = cell c (4*k+j)) :
    wordAt b k = wordAt c k := joined_congr same

@[simp] theorem wordAt_zeros (k : Nat) : wordAt (zeros 8 n) k = 0 := by
  simp [wordAt,joined]

def putWord (b : Vector Byte n) (k : Nat) (x : Word) : Vector Byte n :=
  ofWords n fun j => if j = k then x else wordAt b j

theorem wordAt_putWord (b : Vector Byte n) (x : Word) (h : 4*j+4 ≤ n) :
    wordAt (putWord b k x) j = if j = k then x else wordAt b j := wordAt_ofWords _ h

-- The first bytes of a buffer replaced by a shorter (or equally long) one.
def overlay (front : Vector Byte m) (b : Vector Byte n) : Vector Byte n :=
  build n fun i => if i < m then cell front i else cell b i

theorem cell_overlay (front : Vector Byte m) (b : Vector Byte n) (h : i < n) :
    cell (overlay front b) i = if i < m then cell front i else cell b i := cell_build _ h

theorem overlay_same (front b : Vector Byte n) : overlay front b = front := by
  apply ext_cell
  intro i h
  rw [cell_overlay _ _ h,if_pos h]

theorem wordAt_overlay (front : Vector Byte m) (b : Vector Byte n) (inside : 4*k+4 ≤ m) (h : 4*k+4 ≤ n) :
    wordAt (overlay front b) k = wordAt front k := by
  apply wordAt_congr
  intro j small
  rw [cell_overlay _ _ (by omega),if_pos (by omega)]

-- A C string held in a buffer: the bytes before the first NUL.
def cstring (b : Vector Byte n) : List Byte := b.toList.takeWhile (· ≠ 0)

-- strncpy: at most `n` bytes of the string, padded with NULs.
def strncpy (n : Nat) (s : List Byte) : Vector Byte n := build n fun i => s[i]?.getD 0

-- One less and one more, as a signed number.
theorem toInt_pred {v : Word} (up : 0 < v.toInt) : (v-1).toInt = v.toInt-1 := by
  have small := v.isLt
  rw [BitVec.toInt_eq_toNat_cond] at up
  rw [BitVec.toInt_eq_toNat_cond,BitVec.toInt_eq_toNat_cond,BitVec.toNat_sub]
  have one : (1 : Word).toNat = 1 := rfl
  rw [one]
  omega

theorem toInt_succ {v : Word} (room : v ≠ 0x7FFFFFFF) : (v+1).toInt = v.toInt+1 := by
  have small := v.isLt
  have apart : v.toNat ≠ 0x7FFFFFFF := by
    intro equal
    exact room (BitVec.eq_of_toNat_eq equal)
  rw [BitVec.toInt_eq_toNat_cond,BitVec.toInt_eq_toNat_cond,BitVec.toNat_add]
  have one : (1 : Word).toNat = 1 := rfl
  rw [one]
  omega

end Words
