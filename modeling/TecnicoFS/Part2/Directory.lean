import TecnicoFS.Part2.Operations

/-!
# Part 2: the root directory

The root directory lies as raw bytes in block 0. The lemmas here say how the
two fields of an entry see the stores the code makes: a new entry is filled in
without touching the others, and nothing stored outside block 0 is visible.
From them, `find_in_dir` is a first-match scan over entry names.
-/

namespace TecnicoFS.Part2

variable {m : Memory UInt8} {a i j : Nat} {n : Int} {name : CString} {bs : List UInt8}

/-! ## Fields of an entry -/

/-- The block of the root directory. -/
def rootBlock : Fin dataBlocks := 0

/-- The address of entry `i` of the root directory. -/
def rootEntry (i : Nat) : Nat := entryAddr rootBlock i

theorem rootEntry_eq (i : Nat) : rootEntry i = 44 * i := by
  simp [rootEntry, entryAddr, blockAddr, rootBlock]

/-- The name an entry of the root directory holds. -/
def entryName (m : Memory UInt8) (i : Nat) : List UInt8 := cstr (dName m (rootEntry i))

/-- `setDInumber` is read back by `dInumber`, for any number a C `int` holds. -/
theorem dInumber_setDInumber (hlo : -2 ^ 31 ≤ n) (hhi : n < 2 ^ 31) :
    dInumber (setDInumber m a n) a = n := by
  have hload : Memory.load (setDInumber m a n) (a + maxFileName) 4 = intBytes 4 n := by
    conv => lhs; rw [← length_intBytes 4 n]
    exact Memory.load_store_same _ _ _
  rw [dInumber, hload]
  apply leInt_intBytes
  · norm_num; omega
  · norm_num; omega

theorem dInumber_store_disjoint (h : a + 44 ≤ i ∨ i + bs.length ≤ a + 40) :
    dInumber (Memory.store m i bs) a = dInumber m a := by
  unfold dInumber
  rw [Memory.load_store_disjoint]
  simp only [maxFileName]
  omega

theorem dName_store_disjoint (h : a + 40 ≤ i ∨ i + bs.length ≤ a) :
    dName (Memory.store m i bs) a = dName m a := by
  unfold dName
  rw [Memory.load_store_disjoint]
  simp only [maxFileName]
  omega

/-! ## Filling an entry -/

/-- What `add_dir_entry` stores in entry `i` of the root directory. -/
def fillEntry (m : Memory UInt8) (i : Nat) (n : Int) (name : CString) : Memory UInt8 :=
  setDName (setDInumber m (rootEntry i) n) (rootEntry i) name

theorem fillEntry_dInumber (hlo : -2 ^ 31 ≤ n) (hhi : n < 2 ^ 31) :
    dInumber (fillEntry m i n name) (rootEntry i) = n := by
  unfold fillEntry setDName
  rw [dInumber_store_disjoint (Or.inr (by simp)), dInumber_setDInumber hlo hhi]

theorem fillEntry_entryName : entryName (fillEntry m i n name) i = name.bytes.take 39 := by
  have hload : dName (fillEntry m i n name) (rootEntry i) = strncpy 39 name ++ [0] := by
    have hlen : (strncpy 39 name ++ [0]).length = 40 := by simp
    have hsame := Memory.load_store_same (setDInumber m (rootEntry i) n) (rootEntry i)
      (strncpy 39 name ++ [0])
    rwa [hlen] at hsame
  have hlen : (strncpy 39 name ++ [0]).length ≤ 39 + 1 := by simp
  rw [entryName, hload, ← cstr_strncpy 39 name, List.take_of_length_le hlen]

/-- Filling an entry leaves the other entries as they are. -/
theorem fillEntry_other (h : j ≠ i) :
    dInumber (fillEntry m i n name) (rootEntry j) = dInumber m (rootEntry j) ∧
      entryName (fillEntry m i n name) j = entryName m j := by
  unfold fillEntry setDName setDInumber entryName
  simp only [rootEntry_eq]
  constructor
  · rw [dInumber_store_disjoint, dInumber_store_disjoint]
    · simp only [length_intBytes, maxFileName]
      omega
    · simp only [List.length_append, length_strncpy, List.length_singleton, maxFileName]
      omega
  · rw [dName_store_disjoint, dName_store_disjoint]
    · simp only [length_intBytes, maxFileName]
      omega
    · simp only [List.length_append, length_strncpy, List.length_singleton, maxFileName]
      omega

/-- Filling an entry stays inside block 0. -/
theorem fillEntry_outside {x : Nat} (hi : i < maxDirEntries) (hx : blockSize ≤ x) :
    fillEntry m i n name x = m x := by
  unfold fillEntry setDName setDInumber
  simp only [rootEntry_eq, maxDirEntries, blockSize, dirEntrySize, maxFileName] at *
  rw [Memory.store_of_ge, Memory.store_of_ge]
  · simp only [length_intBytes]
    omega
  · simp only [List.length_append, length_strncpy, List.length_singleton]
    omega

/-- A store outside block 0 leaves the directory as it is. -/
theorem entry_store_outside (hi : i < maxDirEntries) (ha : blockSize ≤ a) :
    dInumber (Memory.store m a bs) (rootEntry i) = dInumber m (rootEntry i) ∧
      entryName (Memory.store m a bs) i = entryName m i := by
  unfold entryName
  simp only [rootEntry_eq, maxDirEntries, blockSize, dirEntrySize, maxFileName] at *
  constructor
  · rw [dInumber_store_disjoint (Or.inl (by omega))]
  · rw [dName_store_disjoint (Or.inl (by omega))]

/-- A new directory has only empty entries. -/
theorem dInumber_clearEntries {c : Nat} (hi : i < c) :
    dInumber (clearEntries m rootBlock c) (rootEntry i) = -1 := by
  induction c with
  | zero => omega
  | succ c ih =>
      unfold clearEntries
      by_cases h : i = c
      · subst h
        exact dInumber_setDInumber (by decide) (by decide)
      · have hlt : i < c := by omega
        have haddr : entryAddr rootBlock c = 44 * c := rootEntry_eq c
        rw [setDInumber, dInumber_store_disjoint, ih hlt]
        simp only [haddr, rootEntry_eq, length_intBytes, maxFileName]
        omega

/-! ## Looking up a name -/

/-- Entry `i` is in use and holds the name. -/
def EntryMatches (m : Memory UInt8) (name : CString) (i : Nat) : Prop :=
  dInumber m (rootEntry i) ≠ -1 ∧ entryName m i = name.bytes.take maxFileName

instance : Decidable (EntryMatches m name i) := inferInstanceAs (Decidable (_ ∧ _))

theorem strncmp_dName :
    strncmp maxFileName (dName m (rootEntry i)) name.cells = 0 ↔
      entryName m i = name.bytes.take maxFileName := by
  have hlen : (dName m (rootEntry i)).length ≤ maxFileName := by simp [dName]
  rw [strncmp_eq_zero, List.take_of_length_le hlen, cstr_cells_take, entryName]

/-- The i-node of the root directory, as `tfs_init` leaves it. -/
def rootInode : Inode := ⟨.tDirectory, blockSize, 0⟩

/-- `find_in_dir` on the root directory is a first-match scan. -/
theorem findInDir_root {fs : FS} (hroot : fs.inodeTable 0 = rootInode) :
    findInDir fs rootDirInum name =
      match firstFit fun i : Fin maxDirEntries => EntryMatches fs.fsData name i with
      | none => -1
      | some i => dInumber fs.fsData (rootEntry i) := by
  have hidx : index? inodeTableSize rootDirInum = some 0 := index?_eq_some.mpr rfl
  have hblk : dataBlockGet (fs.inodeTable 0).iDataBlock = some rootBlock := by
    rw [hroot]
    exact index?_eq_some.mpr rfl
  have hscan : (firstFit fun i : Fin maxDirEntries =>
      dInumber fs.fsData (entryAddr rootBlock i) ≠ -1 ∧
        strncmp maxFileName (dName fs.fsData (entryAddr rootBlock i)) name.cells = 0) =
      firstFit fun i : Fin maxDirEntries => EntryMatches fs.fsData name i := by
    apply firstFit_congr
    intro i
    rw [EntryMatches, ← strncmp_dName]
    rfl
  have htype : ¬ (fs.inodeTable 0).iNodeType ≠ .tDirectory := by simp [hroot, rootInode]
  unfold findInDir
  rw [hidx]
  simp only [hblk, hscan, if_neg htype]
  rfl

/-- `add_dir_entry` on the root directory fills the first empty entry. -/
theorem addDirEntry_root {fs : FS} {k : Fin inodeTableSize} (hroot : fs.inodeTable 0 = rootInode)
    (hname : name.bytes ≠ []) :
    addDirEntry fs rootDirInum (k : Nat) name =
      match firstFit fun i : Fin maxDirEntries => dInumber fs.fsData (rootEntry i) = -1 with
      | none => (-1, fs)
      | some i => (0, { fs with fsData := fillEntry fs.fsData i (k : Nat) name }) := by
  have hidx : index? inodeTableSize rootDirInum = some 0 := index?_eq_some.mpr rfl
  have hblk : dataBlockGet (fs.inodeTable 0).iDataBlock = some rootBlock := by
    rw [hroot]
    exact index?_eq_some.mpr rfl
  have hlen : name.strlen ≠ 0 := by simpa [CString.strlen] using hname
  have htype : ¬ (fs.inodeTable 0).iNodeType ≠ .tDirectory := by simp [hroot, rootInode]
  unfold addDirEntry
  rw [hidx, index?_natCast]
  simp only [hblk, if_neg htype, if_neg hlen]
  rfl

end TecnicoFS.Part2
