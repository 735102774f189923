import AsePlusPlus.Lib.Words

namespace AsePlusPlus
open Words

-- hardware_ini.h
def hdaMaxcylinder : Nat := 1024
def hdaMaxsector : Nat := 32
def maxvol : Nat := 8

-- mbr.h, superbloc.h, tools.h, ifile.h
def mbrMagic : Word := 0xD0CABEEF
def superMagic : Word := 0xACCD1001
def blocMagic : Word := 0xAC1DAC1D
def blocNull : Word := 0
def returnFailure : Word := -1
def returnSuccess : Word := 0
def readEof : Word := -2

abbrev Sector := Vector Byte 512

structure Vol where
  volCylinder : Word
  volSector : Word
  volNsectors : Word
  volType : Word
  valide : Word
  deriving DecidableEq

def Vol.empty : Vol := ⟨0,0,0,0,0⟩

structure Mbr where
  mbrVol : Vector Vol 8
  nbvols : Word
  magicNumber : Word

-- A slot beyond the table is not a volume; nothing reads one past `assert(nvol < MAXVOL)`.
def Mbr.vol (m : Mbr) (nvol : Nat) : Vol := m.mbrVol[nvol]?.getD .empty

def Vol.word (v : Vol) : Nat → Word
  | 0 => v.volCylinder
  | 1 => v.volSector
  | 2 => v.volNsectors
  | 3 => v.volType
  | _ => v.valide

-- struct mbr_s: eight records of five words, then `nbvols` and the magic.
def Mbr.encode (m : Mbr) : Vector Byte 168 := ofWords 168 fun k =>
  if k < 40 then (m.vol (k/5)).word (k%5) else if k = 40 then m.nbvols else m.magicNumber

def Mbr.decode (b : Sector) : Mbr where
  mbrVol := Vector.ofFn fun i =>
    ⟨wordAt b (5*i),wordAt b (5*i+1),wordAt b (5*i+2),wordAt b (5*i+3),wordAt b (5*i+4)⟩
  nbvols := wordAt b 40
  magicNumber := wordAt b 41

theorem Mbr.decode_encode (m : Mbr) (rest : Sector) : Mbr.decode (overlay m.encode rest) = m := by
  have field : ∀ k, k < 42 → wordAt (overlay m.encode rest) k =
      if k < 40 then (m.vol (k/5)).word (k%5) else if k = 40 then m.nbvols else m.magicNumber := by
    intro k small
    rw [wordAt_overlay _ _ (by omega) (by omega),Mbr.encode,wordAt_ofWords _ (by omega)]
  obtain ⟨vols,nb,magic⟩ := m
  simp only [Mbr.decode,Mbr.mk.injEq]
  refine ⟨?_,by simp [field 40],by simp [field 41]⟩
  apply Vector.ext
  intro i small
  rw [Vector.getElem_ofFn]
  have part : ∀ f, f < 5 → wordAt (overlay (Mbr.mk vols nb magic).encode rest) (5*i+f) = (vols[i]).word f := by
    intro f bound
    have quotient : (5*i+f)/5 = i := by omega
    have remainder : (5*i+f)%5 = f := by omega
    rw [field _ (by omega),if_pos (by omega),quotient,remainder]
    simp [Mbr.vol,small]
  have first := part 0 (by decide)
  rw [Nat.add_zero] at first
  rw [first,part 1 (by decide),part 2 (by decide),part 3 (by decide),part 4 (by decide)]
  rfl

structure Super where
  magic : Word
  numero : Word
  nom : Vector Byte 32
  id : Word
  premierLibre : Word
  nbBlocLibre : Word
  rootInumber : Word
  deriving DecidableEq

-- struct superbloc_s: 14 words, the name being bytes 8..39.
def Super.word (s : Super) : Nat → Word
  | 0 => s.magic
  | 1 => s.numero
  | 10 => s.id
  | 11 => s.premierLibre
  | 12 => s.nbBlocLibre
  | 13 => s.rootInumber
  | k => wordAt s.nom (k-2)

def Super.encode (s : Super) : Vector Byte 56 := ofWords 56 s.word

def Super.decode (b : Sector) : Super where
  magic := wordAt b 0
  numero := wordAt b 1
  nom := build 32 fun i => cell b (8+i)
  id := wordAt b 10
  premierLibre := wordAt b 11
  nbBlocLibre := wordAt b 12
  rootInumber := wordAt b 13

theorem Super.wordAt_encode (s : Super) (rest : Sector) (h : k < 14) :
    wordAt (overlay s.encode rest) k = s.word k := by
  rw [wordAt_overlay _ _ (by omega) (by omega),Super.encode,wordAt_ofWords _ (by omega)]

theorem Super.decode_encode (s : Super) (rest : Sector) : Super.decode (overlay s.encode rest) = s := by
  have name : build 32 (fun i => cell (overlay s.encode rest) (8+i)) = s.nom := by
    apply ext_cell
    intro i small
    have index : (8+i)/4 = i/4+2 := by omega
    have offset : (8+i)%4 = i%4 := by omega
    have word : s.word (i/4+2) = wordAt s.nom (i/4) := by
      have cases : i/4 < 8 := by omega
      unfold Super.word
      split <;> first | omega | rfl
    rw [cell_build _ small,cell_eq_byteOf,index,offset,Super.wordAt_encode _ _ (by omega),word,← cell_eq_byteOf]
  obtain ⟨magic,numero,nom,id,premier,nb,root⟩ := s
  simp only [Super.decode,Super.mk.injEq]
  exact ⟨Super.wordAt_encode _ _ (by decide),Super.wordAt_encode _ _ (by decide),name,
    Super.wordAt_encode _ _ (by decide),Super.wordAt_encode _ _ (by decide),
    Super.wordAt_encode _ _ (by decide),Super.wordAt_encode _ _ (by decide)⟩

structure FreeBloc where
  magic : Word
  nextFree : Word
  deriving DecidableEq

def FreeBloc.encode (f : FreeBloc) : Vector Byte 8 := ofWords 8 fun k => if k = 0 then f.magic else f.nextFree
def FreeBloc.decode (b : Vector Byte n) : FreeBloc := ⟨wordAt b 0,wordAt b 1⟩

theorem FreeBloc.decode_encode (f : FreeBloc) (rest : Sector) : FreeBloc.decode (overlay f.encode rest) = f := by
  unfold FreeBloc.decode FreeBloc.encode
  rw [wordAt_overlay _ _ (by decide) (by decide),wordAt_overlay _ _ (by decide) (by decide),
    wordAt_ofWords _ (by decide),wordAt_ofWords _ (by decide)]
  simp

-- inode.h
inductive FileType where
  | file
  | directory
  | special
  deriving DecidableEq, Repr

def FileType.code : FileType → Word
  | .file => 0
  | .directory => 1
  | .special => 2

structure Inode where
  type : Word
  size : Word
  blocsDirects : Vector Word 124
  blocsIndirect : Word
  blocsDoubleIndirect : Word
  deriving DecidableEq

-- struct inode_s fills a bloc exactly: type, size, 124 direct pointers and the
-- two index pointers.
def Inode.word (i : Inode) (k : Nat) : Word :=
  if k = 0 then i.type else if k = 1 then i.size else if k < 126 then cell i.blocsDirects (k-2)
  else if k = 126 then i.blocsIndirect else i.blocsDoubleIndirect

def Inode.encode (i : Inode) : Sector := ofWords 512 i.word

def Inode.decode (b : Sector) : Inode where
  type := wordAt b 0
  size := wordAt b 1
  blocsDirects := build 124 fun k => wordAt b (k+2)
  blocsIndirect := wordAt b 126
  blocsDoubleIndirect := wordAt b 127

theorem Inode.decode_encode (i : Inode) : Inode.decode i.encode = i := by
  have field : ∀ k, k < 128 → wordAt i.encode k = i.word k := fun k small => wordAt_ofWords _ (by omega)
  have directs : build 124 (fun k => wordAt i.encode (k+2)) = i.blocsDirects := by
    apply ext_cell
    intro k small
    rw [cell_build _ small,field _ (by omega),Inode.word,if_neg (by omega),if_neg (by omega),if_pos (by omega)]
    rfl
  obtain ⟨type,size,blocs,indirect,double⟩ := i
  simp only [Inode.decode,Inode.mk.injEq]
  exact ⟨field 0 (by decide),field 1 (by decide),directs,field 126 (by decide),field 127 (by decide)⟩

theorem Inode.encode_decode (b : Sector) : (Inode.decode b).encode = b := by
  refine Eq.trans ?_ (ofWords_wordAt b)
  apply ext_cell
  intro i small
  rw [Inode.encode,cell_ofWords _ small,cell_ofWords _ small]
  congr 1
  have bound : i/4 < 128 := by omega
  generalize i/4 = k at bound
  unfold Inode.word Inode.decode
  by_cases zero : k = 0
  · simp [zero]
  by_cases one : k = 1
  · simp [one]
  by_cases direct : k < 126
  · rw [if_neg zero,if_neg one,if_pos direct]
    dsimp only
    rw [cell_build _ (by omega)]
    congr 1
    omega
  · rw [if_neg zero,if_neg one,if_neg direct]
    by_cases last : k = 126
    · simp [last]
    · have double : k = 127 := by omega
      simp [double]

-- An index bloc: `int indirect[NB_BLOCS_BY_BLOC]`.
abbrev Table := Vector Word 128

def Table.encode (t : Table) : Sector := ofWords 512 (cell t)
def Table.decode (b : Sector) : Table := build 128 (wordAt b)

theorem Table.cell_decode (b : Sector) (h : k < 128) : cell (Table.decode b) k = wordAt b k := cell_build _ h

theorem Table.decode_encode (t : Table) : Table.decode (Table.encode t) = t := by
  apply ext_cell
  intro k small
  rw [Table.cell_decode _ small,Table.encode,wordAt_ofWords _ (by omega)]

-- ifile.h
structure FileDesc where
  fdsInumber : Word
  fdsSize : Word
  fdsPos : Word
  fdsBuf : Sector
  fdsDirty : Bool

-- dir.h
structure Entry where
  entInumber : Word
  entBasename : Vector Byte 16
  deriving DecidableEq

def Entry.encode (e : Entry) : Vector Byte 20 :=
  build 20 fun i => if i < 4 then byteOf e.entInumber i else cell e.entBasename (i-4)

def Entry.decode (b : Vector Byte 20) : Entry := ⟨wordAt b 0,build 16 fun i => cell b (i+4)⟩

theorem Entry.decode_encode (e : Entry) : Entry.decode e.encode = e := by
  have number : wordAt e.encode 0 = e.entInumber := by
    rw [← joined_byteOf e.entInumber]
    apply joined_congr
    intro j small
    rw [Entry.encode,cell_build _ (by omega),if_pos (by omega)]
    simp
  have name : build 16 (fun i => cell e.encode (i+4)) = e.entBasename := by
    apply ext_cell
    intro i small
    rw [cell_build _ small,Entry.encode,cell_build _ (by omega),if_neg (by omega)]
    simp
  cases e
  simp only [Entry.decode,Entry.mk.injEq]
  exact ⟨number,name⟩

end AsePlusPlus
