import TecnicoFS.Part2.Operations
import TecnicoFS.Lib.Threads

/-!
# Part 1: the file system state and its locks (`fs/state.c`)

Part 1 has no global lock: every i-node, data block, handle and directory entry has a lock
of its own, next to `open_file_lock` and `open_files_mutex`. A function is a program over
these locks: every lock operation is a step, and so is every stretch of statements between
two of them that reads or changes the tables.

`config.h` and the directory entries are those of part 2, and so are the constants and the
layout of an entry. An i-node has ten direct blocks and one block of block numbers.

A lock array or a table that is indexed out of range ends the thread (`crash`), and so does
a store outside `fs_data`. The simulated delays have no effect and are left out.
-/

namespace TecnicoFS.Part1

open Threads Threads.Prog
open Part2 (InodeType AllocationState OpenFileEntry blockSize dataBlocks inodeTableSize
  maxOpenFiles maxFileName maxDirEntries blockAddr entryAddr dName dInumber setDInumber setDName
  dataBlockGet inodeGet getOpenFileEntry)

/-! ## Data model -/

/-- `MAX_DIRECT_BLOCKS`. -/
abbrev maxDirectBlocks : Nat := 10

instance : NeZero maxDirectBlocks := ⟨by decide⟩

/-- The size of `fs_data`. -/
abbrev fsDataSize : Nat := blockSize * dataBlocks

structure Inode where
  iNodeType : InodeType
  iSize : Nat
  iDataBlock : Fin maxDirectBlocks → Int
  iIndirectDataBlock : Int

/-- The static variables of `state.c`. -/
structure FS where
  inodeTable : Fin inodeTableSize → Inode
  freeinodeTs : Fin inodeTableSize → AllocationState
  fsData : Memory UInt8
  freeBlocks : Fin dataBlocks → AllocationState
  openFileTable : Fin maxOpenFiles → OpenFileEntry
  freeOpenFileEntries : Fin maxOpenFiles → AllocationState
  openFilesCount : Int

/-- The locks of `state.c`. -/
inductive Lock where
  | openFileLock
  | openFilesMutex
  | openFile (h : Fin maxOpenFiles)
  | inode (n : Fin inodeTableSize)
  | dirEntry (i : Fin maxDirEntries)
  | dataBlock (b : Fin dataBlocks)
deriving DecidableEq

/-- The condition variable of `state.c`. -/
inductive Cond where
  | openFilesCond
deriving DecidableEq

/-- The programs of part 1. -/
abbrev Op (α : Type) : Type := Prog FS Lock Cond α

/-- The state of a freshly loaded program: zeroed storage. -/
def boot : FS where
  inodeTable := fun _ => ⟨.tFile, 0, fun _ => 0, 0⟩
  freeinodeTs := fun _ => .free
  fsData := fun _ => 0
  freeBlocks := fun _ => .free
  openFileTable := fun _ => ⟨0, 0⟩
  freeOpenFileEntries := fun _ => .free
  openFilesCount := 0

theorem eq_free_iff {state : AllocationState} : state = .free ↔ state ≠ .taken := by
  cases state with
  | free => simp
  | taken => simp

/-! ## Assignments -/

namespace FS

/-- An assignment to fields of `inode_table[n]`. -/
@[simps] def setInode (fs : FS) (n : Fin inodeTableSize) (inode : Inode) : FS :=
  { fs with inodeTable := Function.update fs.inodeTable n inode }

/-- An assignment to `freeinode_ts[n]`. -/
@[simps] def setInodeState (fs : FS) (n : Fin inodeTableSize) (state : AllocationState) : FS :=
  { fs with freeinodeTs := Function.update fs.freeinodeTs n state }

/-- An assignment to `free_blocks[b]`. -/
@[simps] def setBlockState (fs : FS) (b : Fin dataBlocks) (state : AllocationState) : FS :=
  { fs with freeBlocks := Function.update fs.freeBlocks b state }

/-- Bytes stored in `fs_data`. -/
@[simps] def setData (fs : FS) (data : Memory UInt8) : FS := { fs with fsData := data }

@[simp] theorem fsData_setData (fs : FS) (data : Memory UInt8) : (fs.setData data).fsData = data :=
  rfl

/-- An assignment to fields of `open_file_table[h]`. -/
@[simps] def setHandle (fs : FS) (h : Fin maxOpenFiles) (entry : OpenFileEntry) : FS :=
  { fs with openFileTable := Function.update fs.openFileTable h entry }

/-- An assignment to `free_open_file_entries[h]`. -/
@[simps] def setHandleState (fs : FS) (h : Fin maxOpenFiles) (state : AllocationState) : FS :=
  { fs with freeOpenFileEntries := Function.update fs.freeOpenFileEntries h state }

/-- An assignment to `open_files_count`. -/
@[simps] def setCount (fs : FS) (count : Int) : FS := { fs with openFilesCount := count }

/-- `memcpy` into `fs_data`, which has to stay inside it. -/
def store? (fs : FS) (a : Nat) (bs : List UInt8) : Option FS :=
  if a + bs.length ≤ fsDataSize then some (fs.setData (Memory.store fs.fsData a bs)) else none

/-- The `int` at an address of `fs_data`. -/
def intAt (fs : FS) (a : Nat) : Int := leInt (Memory.load fs.fsData a 4)

end FS

/-! ## Initialisation -/

/-- `state_init`. -/
def stateInit : Op Unit :=
  modify fun fs => { fs with
    freeinodeTs := fun _ => .free
    freeBlocks := fun _ => .free
    freeOpenFileEntries := fun _ => .free }

/-! ## Data blocks -/

/-- The scan of `data_block_alloc`. -/
def allocFirst : List (Fin dataBlocks) → Op Int
  | [] => pure (-1)
  | b :: bs => do
      lock (.dataBlock b)
      let state ← read fun fs => fs.freeBlocks b
      if state = .free then
        modify fun fs => fs.setBlockState b .taken
        unlock (.dataBlock b)
        pure ((b : Nat) : Int)
      else
        unlock (.dataBlock b)
        allocFirst bs

/-- `data_block_alloc`: the first free block, or -1. -/
def dataBlockAlloc : Op Int := allocFirst (List.finRange dataBlocks)

theorem dataBlockAlloc_eq : dataBlockAlloc = allocFirst (List.finRange dataBlocks) := rfl

-- a scan of 1024 blocks is not to be unfolded where only its outcome matters
attribute [irreducible] dataBlockAlloc

/-- `data_block_free`: the lock array is indexed before the number is checked. -/
def dataBlockFree (blockNumber : Int) : Op Int :=
  match index? dataBlocks blockNumber with
  | none => crash
  | some b => do
      lock (.dataBlock b)
      modify fun fs => fs.setBlockState b .free
      unlock (.dataBlock b)
      pure 0

/-! ## I-nodes -/

/-- The loop that labels the entries of a new directory as empty. -/
def clearDirEntries (fs : FS) (b : Fin dataBlocks) : FS :=
  fs.setData (Part2.clearEntries fs.fsData b maxDirEntries)

/-- What `inode_create` does to an i-node it has marked `TAKEN`, with no lock held. -/
def initInode (n : Fin inodeTableSize) : InodeType → Op Int
  | .tFile => do
      modify fun fs => fs.setInode n { fs.inodeTable n with iNodeType := .tFile }
      modify fun fs => fs.setInode n
        { fs.inodeTable n with iSize := 0, iDataBlock := fun _ => -1, iIndirectDataBlock := -1 }
      pure ((n : Nat) : Int)
  | .tDirectory => do
      -- the type is set before it is known whether there is a block for the entries
      modify fun fs => fs.setInode n { fs.inodeTable n with iNodeType := .tDirectory }
      let b ← dataBlockAlloc
      if b = -1 then
        modify fun fs => fs.setInodeState n .free
        pure (-1)
      else
        modify fun fs => fs.setInode n
          { fs.inodeTable n with
            iSize := blockSize
            iDataBlock := Function.update (fs.inodeTable n).iDataBlock 0 b
            iIndirectDataBlock := -1 }
        match dataBlockGet b with
        | none => do
            modify fun fs => fs.setInodeState n .free
            pure (-1)
        | some b => do
            modify fun fs => clearDirEntries fs b
            pure ((n : Nat) : Int)

/-- The scan of `inode_create`. -/
def createFirst (nType : InodeType) : List (Fin inodeTableSize) → Op Int
  | [] => pure (-1)
  | n :: ns => do
      lock (.inode n)
      let state ← read fun fs => fs.freeinodeTs n
      if state = .free then
        modify fun fs => fs.setInodeState n .taken
        -- the fields are filled in after the lock has been released
        unlock (.inode n)
        initInode n nType
      else
        unlock (.inode n)
        createFirst nType ns

/-- `inode_create`. -/
def inodeCreate (nType : InodeType) : Op Int := createFirst nType (List.finRange inodeTableSize)

/-- The loop of `inode_delete` over the direct blocks. `data_block_free` takes the lock that
the loop already holds. -/
def freeDirectBlocks (n : Fin inodeTableSize) : List (Fin maxDirectBlocks) → Op Int
  | [] => pure 0
  | i :: is => do
      let block ← read fun fs => (fs.inodeTable n).iDataBlock i
      match index? dataBlocks block with
      | none => crash
      | some b => do
          lock (.dataBlock b)
          -- `data_block_free` takes this lock a second time
          let r ← dataBlockFree block
          unlock (.dataBlock b)
          if r = -1 then pure (-1) else freeDirectBlocks n is

/-- `inode_delete`, called with the lock of the i-node held. -/
def inodeDelete (inumber : Int) : Op Int :=
  match index? inodeTableSize inumber with
  | none => pure (-1)
  | some n => do
      let state ← read fun fs => fs.freeinodeTs n
      if state = .free then pure (-1)
      else
        modify fun fs => fs.setInodeState n .free
        let size ← read fun fs => (fs.inodeTable n).iSize
        -- the indirect block and the blocks in it stay taken
        if 0 < size then freeDirectBlocks n (List.finRange maxDirectBlocks) else pure 0

/-! ## Directories -/

/-- The scan of `add_dir_entry` for the first empty entry. The two fields of the entry are
filled in one after the other. -/
def fillFirst (b : Fin dataBlocks) (subInumber : Int) (subName : CString) :
    List (Fin maxDirEntries) → Op Int
  | [] => pure (-1)
  | i :: is => do
      lock (.dirEntry i)
      let inumber ← read fun fs => dInumber fs.fsData (entryAddr b i)
      if inumber = -1 then
        modify fun fs => fs.setData (setDInumber fs.fsData (entryAddr b i) subInumber)
        modify fun fs => fs.setData (setDName fs.fsData (entryAddr b i) subName)
        unlock (.dirEntry i)
        pure 0
      else
        unlock (.dirEntry i)
        fillFirst b subInumber subName is

/-- `add_dir_entry`. -/
def addDirEntry (inumber subInumber : Int) (subName : CString) : Op Int :=
  match index? inodeTableSize inumber, index? inodeTableSize subInumber with
  | some n, some _ => do
      readLock (.inode n)
      let nType ← read fun fs => (fs.inodeTable n).iNodeType
      unlock (.inode n)
      if nType ≠ .tDirectory then pure (-1)
      else if subName.strlen = 0 then pure (-1)
      else
        readLock (.inode n)
        let block ← read fun fs => (fs.inodeTable n).iDataBlock 0
        unlock (.inode n)
        match dataBlockGet block with
        | none => pure (-1)
        | some b => fillFirst b subInumber subName (List.finRange maxDirEntries)
  | _, _ => pure (-1)

/-- The scan of `find_in_dir`. The number of the entry is read again once its lock has been
released. -/
def findFirst (b : Fin dataBlocks) (subName : CString) : List (Fin maxDirEntries) → Op Int
  | [] => pure (-1)
  | i :: is => do
      readLock (.dirEntry i)
      let found ← read fun fs =>
        decide (dInumber fs.fsData (entryAddr b i) ≠ -1 ∧
          strncmp maxFileName (dName fs.fsData (entryAddr b i)) subName.cells = 0)
      unlock (.dirEntry i)
      if found then read fun fs => dInumber fs.fsData (entryAddr b i)
      else findFirst b subName is

/-- `find_in_dir`: the lock array is indexed before the number is checked. -/
def findInDir (inumber : Int) (subName : CString) : Op Int :=
  match index? inodeTableSize inumber with
  | none => crash
  | some n => do
      readLock (.inode n)
      let inode ← read fun fs => fs.inodeTable n
      unlock (.inode n)
      if inode.iNodeType ≠ .tDirectory then pure (-1)
      else
        match dataBlockGet (inode.iDataBlock 0) with
        | none => pure (-1)
        | some b => findFirst b subName (List.finRange maxDirEntries)

/-! ## The open file table -/

/-- The scan of `add_to_open_file_table`. -/
def addFirst (inumber : Int) (offset : Nat) : List (Fin maxOpenFiles) → Op Int
  | [] => pure (-1)
  | h :: hs => do
      lock (.openFile h)
      let state ← read fun fs => fs.freeOpenFileEntries h
      if state = .free then
        lock .openFilesMutex
        modify fun fs => (fs.setHandleState h .taken).setHandle h ⟨inumber, offset⟩
        modify fun fs => fs.setCount (fs.openFilesCount + 1)
        -- released in the order in which they were taken
        unlock (.openFile h)
        unlock .openFilesMutex
        pure ((h : Nat) : Int)
      else
        unlock (.openFile h)
        addFirst inumber offset hs

/-- `add_to_open_file_table`. -/
def addToOpenFileTable (inumber : Int) (offset : Nat) : Op Int :=
  addFirst inumber offset (List.finRange maxOpenFiles)

/-- `remove_from_open_file_table`: the lock array is indexed before the handle is checked,
and the lock of the handle is only taken to read. -/
def removeFromOpenFileTable (fhandle : Int) : Op Int :=
  match index? maxOpenFiles fhandle with
  | none => crash
  | some h => do
      readLock (.openFile h)
      let state ← read fun fs => fs.freeOpenFileEntries h
      if state ≠ .taken then
        unlock (.openFile h)
        pure (-1)
      else
        lock .openFilesMutex
        modify fun fs => fs.setCount (fs.openFilesCount - 1)
        let count ← read fun fs => fs.openFilesCount
        -- the waiting thread is woken before the entry is marked `FREE`
        if count = 0 then wakeOne .openFilesCond
        modify fun fs => fs.setHandleState h .free
        unlock .openFilesMutex
        unlock (.openFile h)
        pure 0

end TecnicoFS.Part1
