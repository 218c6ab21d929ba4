import TecnicoFS.Lib.Memory
import TecnicoFS.Lib.Words
import TecnicoFS.Lib.CString
import TecnicoFS.Lib.Table

/-!
# Part 2: the file system state (`fs/state.c`)

The five tables of the file system and the functions on them, as `state.c`
computes them. A pointer into a table is an index of that table; the functions
that return a pointer or `NULL` return an `Option`. `fs_data` is one flat
memory, so the root directory lies in it as raw bytes, next to the file blocks.

Static storage starts zeroed (`boot`); `state_init` only resets the allocation
tables and `open_flag`, so everything else keeps its old value. The locks and
the simulated delays have no effect on a single thread and are left out.
-/

namespace TecnicoFS.Part2

/-! ## Configuration (`fs/config.h`) -/

/-- `ROOT_DIR_INUM`. -/
def rootDirInum : Int := 0

abbrev blockSize : Nat := 1024
abbrev dataBlocks : Nat := 1024

/-- The size of `fs_data`. -/
abbrev fsDataSize : Nat := blockSize * dataBlocks
abbrev inodeTableSize : Nat := 50
abbrev maxOpenFiles : Nat := 20
abbrev maxFileName : Nat := 40

/-- `sizeof(dir_entry_t)`: the name and the inode number. -/
abbrev dirEntrySize : Nat := maxFileName + 4

/-- `MAX_DIR_ENTRIES`: 23. -/
abbrev maxDirEntries : Nat := blockSize / dirEntrySize

/-! No table is empty. -/

instance : NeZero dataBlocks := ⟨by decide⟩
instance : NeZero inodeTableSize := ⟨by decide⟩
instance : NeZero maxOpenFiles := ⟨by decide⟩
instance : NeZero maxDirEntries := ⟨by decide⟩

/-! ## Data model (`fs/state.h`) -/

inductive InodeType where
  | tFile
  | tDirectory
deriving DecidableEq, Repr

structure Inode where
  iNodeType : InodeType
  iSize : Nat
  iDataBlock : Int
deriving DecidableEq, Repr

inductive AllocationState where
  | free
  | taken
deriving DecidableEq, Repr

structure OpenFileEntry where
  ofInumber : Int
  ofOffset : Nat
deriving DecidableEq, Repr

/-- The static variables of `state.c`. -/
structure FS where
  inodeTable : Fin inodeTableSize → Inode
  freeinodeTs : Fin inodeTableSize → AllocationState
  fsData : Memory UInt8
  freeBlocks : Fin dataBlocks → AllocationState
  openFileTable : Fin maxOpenFiles → OpenFileEntry
  freeOpenFileEntries : Fin maxOpenFiles → AllocationState
  openFilesCount : Int
  openFlag : Int

/-- The state of a freshly loaded program: zeroed storage, except for
`open_flag`. -/
def boot : FS where
  inodeTable := fun _ => ⟨.tFile, 0, 0⟩
  freeinodeTs := fun _ => .free
  fsData := fun _ => 0
  freeBlocks := fun _ => .free
  openFileTable := fun _ => ⟨0, 0⟩
  freeOpenFileEntries := fun _ => .free
  openFilesCount := 0
  openFlag := 1

/-! ## Initialisation -/

/-- `state_init`. -/
def stateInit (fs : FS) : FS :=
  { fs with
    openFlag := 1
    freeinodeTs := fun _ => .free
    freeBlocks := fun _ => .free
    freeOpenFileEntries := fun _ => .free }

/-! ## Data blocks -/

/-- The address of the first byte of a block. -/
def blockAddr (b : Fin dataBlocks) : Nat := b * blockSize

/-- `data_block_alloc`: the first free block, or -1. -/
def dataBlockAlloc (fs : FS) : Int × FS :=
  match firstFit fun i => fs.freeBlocks i = .free with
  | some i => ((i : Nat), { fs with freeBlocks := Function.update fs.freeBlocks i .taken })
  | none => (-1, fs)

/-- `data_block_free`. -/
def dataBlockFree (fs : FS) (blockNumber : Int) : Int × FS :=
  match index? dataBlocks blockNumber with
  | none => (-1, fs)
  | some b => (0, { fs with freeBlocks := Function.update fs.freeBlocks b .free })

/-- `data_block_get`. -/
def dataBlockGet (blockNumber : Int) : Option (Fin dataBlocks) :=
  index? dataBlocks blockNumber

/-! ## Directory entries -/

/-- The address of entry `i` of the directory in block `b`. -/
def entryAddr (b : Fin dataBlocks) (i : Nat) : Nat := blockAddr b + dirEntrySize * i

/-- The field `d_name` of the entry at an address. -/
def dName (m : Memory UInt8) (addr : Nat) : List UInt8 := Memory.load m addr maxFileName

/-- The field `d_inumber` of the entry at an address. -/
def dInumber (m : Memory UInt8) (addr : Nat) : Int :=
  leInt (Memory.load m (addr + maxFileName) 4)

/-- The assignment `dir_entry->d_inumber = inumber`. -/
def setDInumber (m : Memory UInt8) (addr : Nat) (inumber : Int) : Memory UInt8 :=
  Memory.store m (addr + maxFileName) (intBytes 4 inumber)

/-- `strncpy(d_name, sub_name, MAX_FILE_NAME - 1)` and the final NUL. -/
def setDName (m : Memory UInt8) (addr : Nat) (subName : CString) : Memory UInt8 :=
  Memory.store m addr (strncpy (maxFileName - 1) subName ++ [0])

/-- The loop that labels the first `n` entries of a new directory as empty. -/
def clearEntries (m : Memory UInt8) (b : Fin dataBlocks) : Nat → Memory UInt8
  | 0 => m
  | n + 1 => setDInumber (clearEntries m b n) (entryAddr b n) (-1)

/-! ## I-nodes -/

/-- `inode_create`. -/
def inodeCreate (fs : FS) (nType : InodeType) : Int × FS :=
  match firstFit fun n => fs.freeinodeTs n = .free with
  | none => (-1, fs)
  | some n =>
      let taken := { fs with
        freeinodeTs := Function.update fs.freeinodeTs n .taken
        inodeTable := Function.update fs.inodeTable n { fs.inodeTable n with iNodeType := nType } }
      match nType with
      | .tFile =>
          ((n : Nat), { taken with
            inodeTable := Function.update taken.inodeTable n ⟨nType, 0, -1⟩ })
      | .tDirectory =>
          match dataBlockAlloc taken with
          | (b, fs') =>
              if b = -1 then
                (-1, { fs' with freeinodeTs := Function.update fs'.freeinodeTs n .free })
              else
                let sized := { fs' with
                  inodeTable := Function.update fs'.inodeTable n ⟨nType, blockSize, b⟩ }
                match dataBlockGet b with
                | none =>
                    (-1, { sized with freeinodeTs := Function.update sized.freeinodeTs n .free })
                | some blk =>
                    ((n : Nat), { sized with
                      fsData := clearEntries sized.fsData blk maxDirEntries })

/-- `inode_delete`. -/
def inodeDelete (fs : FS) (inumber : Int) : Int × FS :=
  match index? inodeTableSize inumber with
  | none => (-1, fs)
  | some n =>
      if fs.freeinodeTs n = .free then (-1, fs)
      else
        let freed := { fs with freeinodeTs := Function.update fs.freeinodeTs n .free }
        if 0 < (fs.inodeTable n).iSize then
          match dataBlockFree freed (fs.inodeTable n).iDataBlock with
          | (r, fs') => if r = -1 then (-1, fs') else (0, fs')
        else (0, freed)

/-- `inode_get`. -/
def inodeGet (inumber : Int) : Option (Fin inodeTableSize) :=
  index? inodeTableSize inumber

/-! ## Directories -/

/-- `add_dir_entry`. -/
def addDirEntry (fs : FS) (inumber subInumber : Int) (subName : CString) : Int × FS :=
  match index? inodeTableSize inumber, index? inodeTableSize subInumber with
  | some n, some _ =>
      if (fs.inodeTable n).iNodeType ≠ .tDirectory then (-1, fs)
      else if subName.strlen = 0 then (-1, fs)
      else
        match dataBlockGet (fs.inodeTable n).iDataBlock with
        | none => (-1, fs)
        | some b =>
            -- finds and fills the first empty entry
            match firstFit fun i : Fin maxDirEntries =>
                dInumber fs.fsData (entryAddr b i) = -1 with
            | none => (-1, fs)
            | some i =>
                (0, { fs with
                  fsData := setDName (setDInumber fs.fsData (entryAddr b i) subInumber)
                    (entryAddr b i) subName })
  | _, _ => (-1, fs)

/-- `find_in_dir`. -/
def findInDir (fs : FS) (inumber : Int) (subName : CString) : Int :=
  match index? inodeTableSize inumber with
  | none => -1
  | some n =>
      if (fs.inodeTable n).iNodeType ≠ .tDirectory then -1
      else
        match dataBlockGet (fs.inodeTable n).iDataBlock with
        | none => -1
        | some b =>
            match firstFit fun i : Fin maxDirEntries =>
                dInumber fs.fsData (entryAddr b i) ≠ -1 ∧
                strncmp maxFileName (dName fs.fsData (entryAddr b i)) subName.cells = 0 with
            | none => -1
            | some i => dInumber fs.fsData (entryAddr b i)

/-! ## The open file table -/

/-- `add_to_open_file_table`. -/
def addToOpenFileTable (fs : FS) (inumber : Int) (offset : Nat) : Int × FS :=
  match firstFit fun h => fs.freeOpenFileEntries h = .free with
  | none => (-1, fs)
  | some h =>
      ((h : Nat), { fs with
        freeOpenFileEntries := Function.update fs.freeOpenFileEntries h .taken
        openFileTable := Function.update fs.openFileTable h ⟨inumber, offset⟩
        openFilesCount := fs.openFilesCount + 1 })

/-- `remove_from_open_file_table`. -/
def removeFromOpenFileTable (fs : FS) (fhandle : Int) : Int × FS :=
  match index? maxOpenFiles fhandle with
  | none => (-1, fs)
  | some h =>
      if fs.freeOpenFileEntries h ≠ .taken then (-1, fs)
      else
        (0, { fs with
          openFilesCount := fs.openFilesCount - 1
          freeOpenFileEntries := Function.update fs.freeOpenFileEntries h .free })

/-- `get_open_file_entry`. -/
def getOpenFileEntry (fhandle : Int) : Option (Fin maxOpenFiles) :=
  index? maxOpenFiles fhandle

end TecnicoFS.Part2
