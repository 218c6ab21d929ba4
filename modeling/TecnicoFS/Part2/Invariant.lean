import TecnicoFS.Part2.Directory
import TecnicoFS.Lib.Ownership
import Mathlib.Order.Interval.Finset.Fin

/-!
# Part 2: the coupling invariant

`Inv k fs` ties the five tables together in a state with `k` files:

* the i-nodes taken are exactly `0 .. k`, and entry `i` of the root directory
  names i-node `i + 1`;
* the blocks taken are exactly the ones owned: i-node 0 owns the block of the
  directory, a file owns its `i_data_block` while its size is positive. A file
  of size 0 may keep a stale block number, which therefore owns nothing;
* a handle entry is untouched or refers to a file, at an offset that need not lie in
  its block, but lies within `fs_data`.

Then come the elementary effects of the operations on the state, each with the
proof that it keeps the invariant.
-/

namespace TecnicoFS.Part2

/-- The block an i-node owns: its data block, while it is allocated and not
empty. -/
def ownBlock (fs : FS) (n : Fin inodeTableSize) : Option (Fin dataBlocks) :=
  if fs.freeinodeTs n = .taken ∧ 0 < (fs.inodeTable n).iSize then
    dataBlockGet (fs.inodeTable n).iDataBlock
  else none

/-- I-node `n` is one of the `k` files. -/
def IsFile (k : Nat) (n : Fin inodeTableSize) : Prop := 0 < (n : Nat) ∧ (n : Nat) ≤ k

/-- The entry refers to one of the `k` files, at an offset within `fs_data`. -/
def FileEntry (k : Nat) (e : OpenFileEntry) : Prop :=
  ∃ n, IsFile k n ∧ e.ofInumber = (n : Nat) ∧ e.ofOffset ≤ fsDataSize

/-- The five tables agree. -/
structure Inv (k : Nat) (fs : FS) : Prop where
  files_le : k ≤ maxDirEntries
  root : fs.inodeTable 0 = rootInode
  inodes : ∀ n, fs.freeinodeTs n = .taken ↔ (n : Nat) ≤ k
  files : ∀ n, IsFile k n →
    (fs.inodeTable n).iNodeType = .tFile ∧ (fs.inodeTable n).iSize ≤ blockSize
  entries : ∀ i < maxDirEntries,
    dInumber fs.fsData (rootEntry i) = if i < k then ((i + 1 : Nat) : Int) else -1
  blocks : ∀ n, fs.freeinodeTs n = .taken → 0 < (fs.inodeTable n).iSize →
    ∃ b, ownBlock fs n = some b
  exclusive : Exclusive (ownBlock fs) fun b => fs.freeBlocks b = .taken
  handles : ∀ h, (fs.openFileTable h = ⟨0, 0⟩ ∧ fs.freeOpenFileEntries h = .free) ∨
    FileEntry k (fs.openFileTable h)
  flag : fs.openFlag = 1

/-- A block is a part of `fs_data`. -/
theorem blockSize_le : blockSize ≤ fsDataSize := Nat.le_mul_of_pos_right _ (by decide)

theorem FileEntry.mono {k k' : Nat} {e : OpenFileEntry} (hk : k ≤ k') (h : FileEntry k e) :
    FileEntry k' e := by
  obtain ⟨n, hn, hnum, hoff⟩ := h
  exact ⟨n, ⟨hn.1, hn.2.trans hk⟩, hnum, hoff⟩

/-- The i-node a file number below 50 stands for. -/
def inodeNo (n : Nat) (h : n < inodeTableSize) : Fin inodeTableSize := ⟨n, h⟩

variable {k : Nat} {fs : FS} {n : Fin inodeTableSize} {b : Fin dataBlocks}
  {h : Fin maxOpenFiles}

theorem not_free_iff {s : AllocationState} : ¬ s = .free ↔ s = .taken := by
  cases s <;> simp

theorem ownBlock_eq_some :
    ownBlock fs n = some b ↔ fs.freeinodeTs n = .taken ∧ 0 < (fs.inodeTable n).iSize ∧
      (fs.inodeTable n).iDataBlock = (b : Nat) := by
  unfold ownBlock dataBlockGet
  by_cases hc : fs.freeinodeTs n = .taken ∧ 0 < (fs.inodeTable n).iSize
  · rw [if_pos hc, index?_eq_some]
    simp only [hc, true_and]
  · rw [if_neg hc]
    simp only [reduceCtorEq, false_iff]
    rintro ⟨h1, h2, -⟩
    exact hc ⟨h1, h2⟩

theorem ownBlock_of_empty (h : (fs.inodeTable n).iSize = 0) : ownBlock fs n = none := by
  simp [ownBlock, h]

/-! ## What the invariant says -/

namespace Inv

theorem files_lt (hinv : Inv k fs) : k + 1 < inodeTableSize := by
  have := hinv.files_le
  simp only [maxDirEntries, blockSize, dirEntrySize, maxFileName, inodeTableSize] at *
  omega

theorem taken_of_isFile (hinv : Inv k fs) (hn : IsFile k n) : fs.freeinodeTs n = .taken :=
  (hinv.inodes n).mpr hn.2

/-- The root directory owns block 0. -/
theorem root_own (hinv : Inv k fs) : ownBlock fs 0 = some rootBlock := by
  rw [ownBlock_eq_some, hinv.root]
  exact ⟨(hinv.inodes 0).mpr (Nat.zero_le k), by decide, rfl⟩

/-- No file owns the block of the root directory. -/
theorem own_ne_root (hinv : Inv k fs) (hn : 0 < (n : Nat)) (hb : ownBlock fs n = some b) :
    b ≠ rootBlock := by
  rintro rfl
  have hzero := hinv.exclusive.inj n 0 rootBlock hb hinv.root_own
  rw [hzero] at hn
  exact absurd hn (by decide)

/-- Only allocated i-nodes own blocks. -/
theorem own_le (hb : ownBlock fs n = some b) (hinv : Inv k fs) : (n : Nat) ≤ k :=
  (hinv.inodes n).mp (ownBlock_eq_some.mp hb).1

/-- At most `k + 1` blocks are taken. -/
theorem taken_card (hinv : Inv k fs) :
    (Finset.univ.filter fun b => fs.freeBlocks b = .taken).card ≤ k + 1 := by
  have hk : k < inodeTableSize := Nat.lt_of_succ_lt hinv.files_lt
  have hcard : (Finset.Iic (inodeNo k hk)).card = k + 1 := Fin.card_Iic _
  rw [← hcard]
  apply hinv.exclusive.card_le
  intro n b hb
  rw [Finset.mem_Iic, Fin.le_def]
  exact own_le hb hinv

/-- There is always a free block. -/
theorem exists_free_block (hinv : Inv k fs) : ∃ b, fs.freeBlocks b = .free := by
  by_contra hnone
  have hall : ∀ b, fs.freeBlocks b = .taken := fun b =>
    not_free_iff.mp fun hb => hnone ⟨b, hb⟩
  have hcard := hinv.taken_card
  rw [Finset.filter_true_of_mem (fun b _ => hall b)] at hcard
  have hle := hinv.files_le
  simp only [Finset.card_univ, Fintype.card_fin, dataBlocks, maxDirEntries, blockSize,
    dirEntrySize, maxFileName] at *
  omega

/-- The first free i-node is the one after the last file. -/
theorem firstFit_inode (hinv : Inv k fs) :
    (firstFit fun n => fs.freeinodeTs n = .free) = some (inodeNo (k + 1) hinv.files_lt) := by
  rw [firstFit_eq_some]
  constructor
  · by_contra hc
    have := (hinv.inodes _).mp (not_free_iff.mp hc)
    simp only [inodeNo] at this
    omega
  · intro j hj
    have hjk : (j : Nat) ≤ k := by
      have : (j : Nat) < k + 1 := hj
      omega
    exact not_free_iff.mpr ((hinv.inodes j).mpr hjk)

/-- The first empty directory entry is the one after the last file's. -/
theorem firstFit_entry (hinv : Inv k fs) (hk : k < maxDirEntries) :
    (firstFit fun i : Fin maxDirEntries => dInumber fs.fsData (rootEntry i) = -1) =
      some ⟨k, hk⟩ := by
  rw [firstFit_eq_some]
  constructor
  · rw [hinv.entries k hk, if_neg (Nat.lt_irrefl k)]
  · intro j hj
    have hjk : (j : Nat) < k := hj
    rw [hinv.entries j j.isLt, if_pos hjk]
    omega

theorem firstFit_entry_full (hinv : Inv k fs) (hk : k = maxDirEntries) :
    (firstFit fun i : Fin maxDirEntries => dInumber fs.fsData (rootEntry i) = -1) = none := by
  rw [firstFit_eq_none]
  intro j
  rw [hinv.entries j j.isLt, if_pos (hk ▸ j.isLt)]
  omega

end Inv

/-! ## Elementary effects

Each effect is the state change of one branch of the code; `Steps.lean` shows
that the code makes these changes and no others. -/

/-- The truncation of a file that owns a block. -/
def dropBlock (fs : FS) (n : Fin inodeTableSize) (b : Fin dataBlocks) : FS :=
  { fs with
    freeBlocks := Function.update fs.freeBlocks b .free
    inodeTable := Function.update fs.inodeTable n { fs.inodeTable n with iSize := 0 } }

/-- A creation rolled back: only the free i-node it used has changed. -/
def scrapInode (fs : FS) (n : Fin inodeTableSize) : FS :=
  { fs with inodeTable := Function.update fs.inodeTable n ⟨.tFile, 0, -1⟩ }

/-- A creation: a new i-node and a new entry of the root directory. -/
def newFile (fs : FS) (n : Fin inodeTableSize) (i : Nat) (name : CString) : FS :=
  { fs with
    freeinodeTs := Function.update fs.freeinodeTs n .taken
    inodeTable := Function.update fs.inodeTable n ⟨.tFile, 0, -1⟩
    fsData := fillEntry fs.fsData i (n : Nat) name }

@[simp] theorem newFile_fsData (fs : FS) (n : Fin inodeTableSize) (i : Nat) (name : CString) :
    (newFile fs n i name).fsData = fillEntry fs.fsData i (n : Nat) name := by
  simp only [newFile]

/-- A handle handed out. -/
def newHandle (fs : FS) (h : Fin maxOpenFiles) (inumber : Int) (offset : Nat) : FS :=
  { fs with
    freeOpenFileEntries := Function.update fs.freeOpenFileEntries h .taken
    openFileTable := Function.update fs.openFileTable h ⟨inumber, offset⟩
    openFilesCount := fs.openFilesCount + 1 }

/-- A handle closed. -/
def dropHandle (fs : FS) (h : Fin maxOpenFiles) : FS :=
  { fs with
    openFilesCount := fs.openFilesCount - 1
    freeOpenFileEntries := Function.update fs.freeOpenFileEntries h .free }

/-- A handle moved by a read. -/
def moveHandle (fs : FS) (h : Fin maxOpenFiles) (offset : Nat) : FS :=
  { fs with
    openFileTable := Function.update fs.openFileTable h
      { fs.openFileTable h with ofOffset := offset } }

/-- A write through handle `h` on file `n`, into block `b`. -/
def writeAt (fs : FS) (h : Fin maxOpenFiles) (n : Fin inodeTableSize) (b : Fin dataBlocks)
    (data : List UInt8) : FS :=
  { fs with
    freeBlocks := Function.update fs.freeBlocks b .taken
    fsData := Memory.store fs.fsData (blockAddr b + (fs.openFileTable h).ofOffset) data
    openFileTable := Function.update fs.openFileTable h
      { fs.openFileTable h with ofOffset := (fs.openFileTable h).ofOffset + data.length }
    inodeTable := Function.update fs.inodeTable n
      { fs.inodeTable n with
        iSize := max (fs.inodeTable n).iSize ((fs.openFileTable h).ofOffset + data.length)
        iDataBlock := (b : Nat) } }

@[simp] theorem writeAt_fsData (fs : FS) (h : Fin maxOpenFiles) (n : Fin inodeTableSize)
    (b : Fin dataBlocks) (data : List UInt8) : (writeAt fs h n b data).fsData =
      Memory.store fs.fsData (blockAddr b + (fs.openFileTable h).ofOffset) data := by
  simp only [writeAt]

/-- The block a write goes to: the one the file owns, or, for an empty file,
the first free one. -/
def WriteTarget (fs : FS) (n : Fin inodeTableSize) (b : Fin dataBlocks) : Prop :=
  ownBlock fs n = some b ∨
    (fs.inodeTable n).iSize = 0 ∧ (firstFit fun i => fs.freeBlocks i = .free) = some b

/-! ## Ownership under the effects -/

theorem ownBlock_congr {fs' : FS} (ht : fs'.freeinodeTs n = fs.freeinodeTs n)
    (hi : fs'.inodeTable n = fs.inodeTable n) : ownBlock fs' n = ownBlock fs n := by
  unfold ownBlock
  rw [ht, hi]

theorem root_ne_of_pos {m : Fin inodeTableSize} (hm : 0 < (m : Nat)) :
    (0 : Fin inodeTableSize) ≠ m := by
  rintro rfl
  exact absurd hm (by decide)

theorem blockAddr_ge (hb : b ≠ rootBlock) : blockSize ≤ blockAddr b := by
  have hpos : 0 < (b : Nat) := by
    rcases Nat.eq_zero_or_pos (b : Nat) with h0 | h0
    · exact absurd (Fin.ext h0) hb
    · exact h0
  simp only [blockAddr, blockSize]
  omega

theorem WriteTarget.ne_root (hinv : Inv k fs) (hn : 0 < (n : Nat)) (hw : WriteTarget fs n b) :
    b ≠ rootBlock := by
  rcases hw with hown | ⟨-, hfit⟩
  · exact hinv.own_ne_root hn hown
  · rintro rfl
    have hfree := (firstFit_eq_some.mp hfit).1
    rw [hinv.exclusive.taken_of_own hinv.root_own] at hfree
    cases hfree

/-! ## The effects keep the invariant -/

/-- Truncating releases the block; the stale number stays behind. -/
theorem dropBlock_inv (hinv : Inv k fs) (hn : IsFile k n) (hb : ownBlock fs n = some b) :
    Inv k (dropBlock fs n b) := by
  have hother : ∀ m, m ≠ n → (dropBlock fs n b).inodeTable m = fs.inodeTable m := fun m hm =>
    Function.update_of_ne hm _ _
  have hself : (dropBlock fs n b).inodeTable n = { fs.inodeTable n with iSize := 0 } :=
    Function.update_self n _ _
  have hown : ∀ m, m ≠ n → ownBlock (dropBlock fs n b) m = ownBlock fs m := fun m hm =>
    ownBlock_congr rfl (hother m hm)
  refine
    { files_le := hinv.files_le
      root := ?_
      inodes := hinv.inodes
      files := ?_
      entries := hinv.entries
      blocks := ?_
      exclusive := ?_
      handles := hinv.handles
      flag := hinv.flag }
  · rw [hother 0 (root_ne_of_pos hn.1), hinv.root]
  · intro m hm
    by_cases hmn : m = n
    · rw [hmn, hself]
      exact ⟨(hinv.files n hn).1, Nat.zero_le _⟩
    · rw [hother m hmn]
      exact hinv.files m hm
  · intro m ht hsize
    by_cases hmn : m = n
    · rw [hmn, hself] at hsize
      exact absurd hsize (Nat.lt_irrefl 0)
    · rw [hother m hmn] at hsize
      rw [hown m hmn]
      exact hinv.blocks m ht hsize
  -- the block is free again, and nobody else owned it
  · refine hinv.exclusive.release hb (ownBlock_of_empty (by rw [hself])) hown ?_
    intro c
    by_cases hcb : c = b
    · subst hcb
      simp [dropBlock]
    · simp [dropBlock, hcb]

/-- A rolled back creation touches only a free i-node. -/
theorem scrapInode_inv (hinv : Inv k fs) (hn : (n : Nat) = k + 1) :
    Inv k (scrapInode fs n) := by
  have hother : ∀ m, m ≠ n → (scrapInode fs n).inodeTable m = fs.inodeTable m := fun m hm =>
    Function.update_of_ne hm _ _
  have hself : (scrapInode fs n).inodeTable n = ⟨.tFile, 0, -1⟩ := Function.update_self n _ _
  have hfree : fs.freeinodeTs n ≠ .taken := by
    intro ht
    have := (hinv.inodes n).mp ht
    omega
  -- an i-node that is not taken owns nothing, before and after
  have hown : ∀ m, ownBlock (scrapInode fs n) m = ownBlock fs m := by
    intro m
    by_cases hmn : m = n
    · rw [hmn, ownBlock_of_empty (by rw [hself])]
      simp [ownBlock, hfree]
    · exact ownBlock_congr rfl (hother m hmn)
  refine
    { files_le := hinv.files_le
      root := ?_
      inodes := hinv.inodes
      files := ?_
      entries := hinv.entries
      blocks := ?_
      exclusive := hinv.exclusive.congr hown fun _ => Iff.rfl
      handles := hinv.handles
      flag := hinv.flag }
  · rw [hother 0 (root_ne_of_pos (by omega)), hinv.root]
  · intro m hm
    rw [hother m (by rintro rfl; have := hm.2; omega)]
    exact hinv.files m hm
  · intro m ht hsize
    have hmn : m ≠ n := by
      rintro rfl
      exact hfree ht
    rw [hother m hmn] at hsize
    rw [hown]
    exact hinv.blocks m ht hsize

/-- A creation adds one file at the end of the directory. -/
theorem newFile_inv {name : CString} (hinv : Inv k fs) (hn : (n : Nat) = k + 1)
    (hk : k < maxDirEntries) : Inv (k + 1) (newFile fs n k name) := by
  have hother : ∀ m, m ≠ n → (newFile fs n k name).inodeTable m = fs.inodeTable m :=
    fun m hm => Function.update_of_ne hm _ _
  have hself : (newFile fs n k name).inodeTable n = ⟨.tFile, 0, -1⟩ :=
    Function.update_self n _ _
  have hts : ∀ m, m ≠ n → (newFile fs n k name).freeinodeTs m = fs.freeinodeTs m :=
    fun m hm => Function.update_of_ne hm _ _
  have hfree : fs.freeinodeTs n ≠ .taken := by
    intro ht
    have := (hinv.inodes n).mp ht
    omega
  -- a new file is empty, so the blocks are owned as before
  have hown : ∀ m, ownBlock (newFile fs n k name) m = ownBlock fs m := by
    intro m
    by_cases hmn : m = n
    · rw [hmn, ownBlock_of_empty (by rw [hself])]
      simp [ownBlock, hfree]
    · exact ownBlock_congr (hts m hmn) (hother m hmn)
  refine
    { files_le := hk
      root := ?_
      inodes := ?_
      files := ?_
      entries := ?_
      blocks := ?_
      exclusive := hinv.exclusive.congr hown fun _ => Iff.rfl
      handles := ?_
      flag := hinv.flag }
  · rw [hother 0 (root_ne_of_pos (by omega)), hinv.root]
  · intro m
    by_cases hmn : m = n
    · subst hmn
      simp [newFile, hn]
    · rw [hts m hmn, hinv.inodes m]
      have : (m : Nat) ≠ n := fun hc => hmn (Fin.ext hc)
      omega
  · intro m hm
    by_cases hmn : m = n
    · rw [hmn, hself]
      exact ⟨rfl, Nat.zero_le _⟩
    · rw [hother m hmn]
      have : (m : Nat) ≠ n := fun hc => hmn (Fin.ext hc)
      have hm2 := hm.2
      exact hinv.files m ⟨hm.1, by omega⟩
  -- the new entry is the first one that is empty
  · intro i hi
    rw [newFile_fsData]
    by_cases hik : i = k
    · have hn' : ((k + 1 : Nat) : Int) = ((n : Nat) : Int) := by rw [hn]
      have hn50 := n.isLt
      simp only [inodeTableSize] at hn50
      rw [hik, if_pos (Nat.lt_succ_self k), hn', fillEntry_dInumber (by omega) (by omega)]
    · rw [(fillEntry_other hik).1, hinv.entries i hi]
      by_cases hlt : i < k
      · rw [if_pos hlt, if_pos (by omega)]
      · rw [if_neg hlt, if_neg (by omega)]
  · intro m ht hsize
    have hmn : m ≠ n := by
      rintro rfl
      rw [hself] at hsize
      exact absurd hsize (Nat.lt_irrefl 0)
    rw [hother m hmn] at hsize
    rw [hts m hmn] at ht
    rw [hown]
    exact hinv.blocks m ht hsize
  · intro j
    rcases hinv.handles j with hc | hf
    · exact Or.inl hc
    · exact Or.inr (hf.mono (Nat.le_succ k))

/-- Handing out, closing and moving a handle only touches the handle table. -/
theorem newHandle_inv {offset : Nat} (hinv : Inv k fs) (hn : IsFile k n)
    (hoff : offset ≤ fsDataSize) : Inv k (newHandle fs h (n : Nat) offset) := by
  refine { hinv with handles := ?_ }
  intro j
  by_cases hj : j = h
  · subst hj
    right
    exact ⟨n, hn, by simp [newHandle], by simpa [newHandle] using hoff⟩
  · simpa [newHandle, hj] using hinv.handles j

theorem dropHandle_inv (hinv : Inv k fs) : Inv k (dropHandle fs h) := by
  refine { hinv with handles := ?_ }
  intro j
  by_cases hj : j = h
  · subst hj
    rcases hinv.handles j with hc | hf
    · left
      exact ⟨hc.1, by simp [dropHandle]⟩
    · right
      exact hf
  · simpa [dropHandle, hj] using hinv.handles j

theorem moveHandle_inv {offset : Nat} (hinv : Inv k fs)
    (hf : FileEntry k (fs.openFileTable h)) (hoff : offset ≤ fsDataSize) :
    Inv k (moveHandle fs h offset) := by
  refine { hinv with handles := ?_ }
  intro j
  by_cases hj : j = h
  · subst hj
    right
    obtain ⟨n, hn, hnum, -⟩ := hf
    exact ⟨n, hn, by simpa [moveHandle] using hnum, by simpa [moveHandle] using hoff⟩
  · simpa [moveHandle, hj] using hinv.handles j

/-- A write keeps the directory (it goes to another block) and makes the file
the owner of the block it wrote. -/
theorem writeAt_inv {data : List UInt8} (hinv : Inv k fs) (hn : IsFile k n)
    (hnum : (fs.openFileTable h).ofInumber = (n : Nat)) (hw : WriteTarget fs n b)
    (hpos : 0 < data.length)
    (hfit : (fs.openFileTable h).ofOffset + data.length ≤ blockSize) :
    Inv k (writeAt fs h n b data) := by
  have hother : ∀ m, m ≠ n → (writeAt fs h n b data).inodeTable m = fs.inodeTable m :=
    fun m hm => Function.update_of_ne hm _ _
  have hself : (writeAt fs h n b data).inodeTable n =
      { fs.inodeTable n with
        iSize := max (fs.inodeTable n).iSize ((fs.openFileTable h).ofOffset + data.length)
        iDataBlock := (b : Nat) } := Function.update_self n _ _
  have hown : ∀ m, m ≠ n → ownBlock (writeAt fs h n b data) m = ownBlock fs m := fun m hm =>
    ownBlock_congr rfl (hother m hm)
  have htaken : (writeAt fs h n b data).freeinodeTs n = .taken := hinv.taken_of_isFile hn
  have hownself : ownBlock (writeAt fs h n b data) n = some b := by
    rw [ownBlock_eq_some, hself]
    exact ⟨htaken, lt_of_lt_of_le (by omega) (le_max_right _ _), rfl⟩
  have hfree : ∀ c, (writeAt fs h n b data).freeBlocks c = .taken ↔
      fs.freeBlocks c = .taken ∨ c = b := by
    intro c
    by_cases hcb : c = b
    · subst hcb
      simp [writeAt]
    · simp [writeAt, hcb]
  refine
    { files_le := hinv.files_le
      root := ?_
      inodes := hinv.inodes
      files := ?_
      entries := ?_
      blocks := ?_
      exclusive := ?_
      handles := ?_
      flag := hinv.flag }
  · rw [hother 0 (root_ne_of_pos hn.1), hinv.root]
  · intro m hm
    by_cases hmn : m = n
    · rw [hmn, hself]
      exact ⟨(hinv.files n hn).1, max_le (hinv.files n hn).2 hfit⟩
    · rw [hother m hmn]
      exact hinv.files m hm
  · intro i hi
    rw [← hinv.entries i hi]
    have hge : blockSize ≤ blockAddr b + (fs.openFileTable h).ofOffset :=
      (blockAddr_ge (hw.ne_root hinv hn.1)).trans (Nat.le_add_right _ _)
    exact (entry_store_outside hi hge).1
  · intro m ht hsize
    by_cases hmn : m = n
    · exact ⟨b, hmn ▸ hownself⟩
    · rw [hother m hmn] at hsize
      rw [hown m hmn]
      exact hinv.blocks m ht hsize
  · rcases hw with hold | ⟨hempty, hfirst⟩
    · -- the file already owns the block
      refine hinv.exclusive.congr ?_ ?_
      · intro m
        by_cases hmn : m = n
        · rw [hmn, hownself, hold]
        · exact hown m hmn
      · intro c
        rw [hfree]
        constructor
        · rintro (hc | rfl)
          · exact hc
          · exact hinv.exclusive.taken_of_own hold
        · exact Or.inl
    · -- a fresh block
      have hfreeb : ¬ fs.freeBlocks b = .taken := by
        rw [(firstFit_eq_some.mp hfirst).1]
        exact fun hc => by cases hc
      exact hinv.exclusive.acquire (ownBlock_of_empty hempty) hfreeb hownself hown hfree
  · intro j
    by_cases hj : j = h
    · subst hj
      right
      exact ⟨n, hn, by simpa [writeAt] using hnum,
        by simpa [writeAt] using hfit.trans blockSize_le⟩
    · simpa [writeAt, hj] using hinv.handles j

end TecnicoFS.Part2
