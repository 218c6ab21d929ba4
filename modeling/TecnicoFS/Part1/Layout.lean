import TecnicoFS.Part1.WriteLoop

/-!
# Part 1: the blocks of all files

A file is a used i-node of type `T_FILE`. In a state with `Layout` no block is in two places of
the files, none is the block of the root directory, and all are taken. The contents of a file
are its bytes up to its size, through its block map.
-/

namespace TecnicoFS.Part1

open Threads Threads.Prog
open Part2 (blockSize dataBlocks inodeTableSize maxOpenFiles blockAddr dataBlockGet)

variable {fs fs' : FS} {n m : Fin inodeTableSize} {h : Fin maxOpenFiles} {off : Nat}
  {data : List UInt8} {b : Fin dataBlocks}

/-- A used i-node that is not a directory. -/
def IsFile (fs : FS) (n : Fin inodeTableSize) : Prop :=
  fs.freeinodeTs n = .taken ∧ (fs.inodeTable n).iNodeType = .tFile

/-- A handle that is in use and refers to the file `n`. -/
structure Opens (fs : FS) (h : Fin maxOpenFiles) (n : Fin inodeTableSize) : Prop where
  taken : fs.freeOpenFileEntries h = .taken
  refers : (fs.openFileTable h).ofInumber = ((n : Nat) : Int)
  isFile : IsFile fs n

/-- The number of the block of the root directory. -/
def FS.rootRef (fs : FS) : Int := (fs.inodeTable 0).iDataBlock 0

/-- The places of all files hold different blocks, all of them taken and none of them the root
directory's. -/
structure Layout (fs : FS) : Prop where
  taken : ∀ n r, IsFile fs n → fs.ref n r ≠ -1 →
    ∃ b : Fin dataBlocks, fs.ref n r = ((b : Nat) : Int) ∧ fs.freeBlocks b = .taken
  distinct : ∀ n m r r', IsFile fs n → IsFile fs m → fs.ref n r ≠ -1 →
    fs.ref n r = fs.ref m r' → n = m ∧ r = r'
  root : ∀ n r, IsFile fs n → fs.ref n r ≠ -1 → fs.ref n r ≠ fs.rootRef

theorem isFile_congr (hstates : fs'.freeinodeTs = fs.freeinodeTs)
    (htype : (fs'.inodeTable n).iNodeType = (fs.inodeTable n).iNodeType) :
    IsFile fs' n ↔ IsFile fs n := by
  rw [IsFile, IsFile, hstates, htype]

theorem Layout.file (hl : Layout fs) (hn : IsFile fs n) : FileLayout fs n :=
  ⟨fun r => hl.taken n r hn, fun r r' hr heq => (hl.distinct n n r r' hn hn hr heq).2⟩

/-- Every position of the file lies in a block it has. -/
def Mapped (fs : FS) (n : Fin inodeTableSize) : Prop :=
  ∀ j, j < stopBlock (fs.inodeTable n).iSize → fs.slot n j ≠ -1

/-- The bytes of a file. -/
def FS.contents (fs : FS) (n : Fin inodeTableSize) : List (Option UInt8) :=
  (List.range (fs.inodeTable n).iSize).map (fs.fileByte n)

theorem contents_length : (fs.contents n).length = (fs.inodeTable n).iSize := by
  rw [FS.contents, List.length_map, List.length_range]

theorem contents_getElem? (p : Nat) : (fs.contents n)[p]? =
    if p < (fs.inodeTable n).iSize then some (fs.fileByte n p) else none := by
  by_cases hp : p < (fs.inodeTable n).iSize <;> simp [FS.contents, hp]

theorem div_lt_stopBlock {p size : Nat} (hp : p < size) : p / blockSize < stopBlock size := by
  simp only [stopBlock, blockSize]
  omega

theorem Mapped.fileByte (hm : Mapped fs n) (hl : FileLayout fs n) {p : Nat}
    (hp : p < (fs.inodeTable n).iSize) : fs.fileByte n p ≠ none := by
  rcases blockAt_of_slot hl (hm _ (div_lt_stopBlock hp)) with ⟨b, hb⟩
  rw [FS.fileByte, hb]
  simp

/-- A file whose blocks are all there keeps its bytes outside those that are written. -/
theorem Wrote.contents (hw : Wrote h n off data fs fs') (hl : FileLayout fs n) (hm : Mapped fs n)
    (hoff : off ≤ (fs.inodeTable n).iSize) (hdata : data ≠ []) :
    fs'.contents n = Memory.overwrite (fs.contents n) off (data.map some) := by
  have hlen : data.length ≠ 0 := by simpa using hdata
  apply List.ext_getElem?
  intro p
  rw [Memory.getElem?_overwrite (by rwa [contents_length]), contents_getElem?, hw.size, grown,
    if_neg hlen, List.length_map, List.getElem?_map, contents_getElem?]
  by_cases hin : off ≤ p ∧ p < off + data.length
  · have hcell : p - off < data.length := by omega
    rw [if_pos hin, if_pos (by omega), hw.written p hin.1 hin.2, List.getElem?_eq_getElem hcell]
    rfl
  · rw [if_neg hin]
    by_cases hp : p < (fs.inodeTable n).iSize
    · rw [if_pos hp, if_pos (by omega), hw.bytes p (by omega) (hm.fileByte hl hp)]
    · rw [if_neg hp, if_neg (by omega)]

end TecnicoFS.Part1
