import TecnicoFS.Part2.State
import TecnicoFS.Lib.Machine

/-!
# Part 2: the file system operations (`fs/operations.c`)

The calls as one thread sees them: every `tfs_*` function takes the global
lock, runs its body and releases the lock, so here it is its body. Paths are
C strings; no caller passes a null path.

A call that leaves the memory of the file system crashes (`none`): a `memcpy` that
runs past the end of `fs_data`, and `name + 1` read past the end of an empty path. A
write that is not clipped at the end of its block has a length near 2^64, and always
runs past it. A read from an offset behind the end of its file may leave its block,
and returns what is there as long as it stays in `fs_data`.
-/

namespace TecnicoFS.Part2

/-! ## Flags (`common/common.h`) -/

def tfsOCreat : BitVec 32 := 0b001
def tfsOTrunc : BitVec 32 := 0b010
def tfsOAppend : BitVec 32 := 0b100

/-- The test `flags & flag`. -/
def hasFlag (flags flag : BitVec 32) : Bool := flags &&& flag != 0

/-! ## Initialisation -/

/-- `tfs_init`. -/
def tfsInit (fs : FS) : Int × FS :=
  match inodeCreate (stateInit fs) .tDirectory with
  | (root, fs') => if root ≠ rootDirInum then (-1, fs') else (0, fs')

/-! ## Paths -/

/-- `valid_pathname`. -/
def validPathname (name : CString) : Bool :=
  1 < name.strlen && name.bytes.head? == some '/'.toUInt8

/-- `tfs_lookup`. -/
def tfsLookup (fs : FS) (name : CString) : Int :=
  if validPathname name then findInDir fs rootDirInum name.tail else -1

/-! ## Open and close -/

/-- The truncation step of `_tfs_open_unsynchronized`; `none` where the free of
the data block fails. -/
def truncateOpened (fs : FS) (n : Fin inodeTableSize) (flags : BitVec 32) : Option FS :=
  if hasFlag flags tfsOTrunc ∧ 0 < (fs.inodeTable n).iSize then
    match dataBlockFree fs (fs.inodeTable n).iDataBlock with
    | (r, fs') =>
        if r = -1 then none
        else
          some { fs' with
            inodeTable := Function.update fs'.inodeTable n { fs'.inodeTable n with iSize := 0 } }
  else some fs

/-- `_tfs_open_unsynchronized`. -/
def tfsOpenUnsynchronized (fs : FS) (name : CString) (flags : BitVec 32) :
    Option (Int × FS) :=
  if 0 ≤ tfsLookup fs name then
    match inodeGet (tfsLookup fs name) with
    | none => some (-1, fs)
    | some n =>
        match truncateOpened fs n flags with
        | none => some (-1, fs)
        | some fs' =>
            some (addToOpenFileTable fs' (tfsLookup fs name)
              (if hasFlag flags tfsOAppend then (fs'.inodeTable n).iSize else 0))
  else if hasFlag flags tfsOCreat then
    match inodeCreate fs .tFile with
    | (inum, fs') =>
        if inum = -1 then some (-1, fs')
        -- `name + 1` of an empty path is outside the string
        else if name.bytes = [] then none
        else
          match addDirEntry fs' rootDirInum inum name.tail with
          | (r, fs'') =>
              if r = -1 then some (-1, (inodeDelete fs'' inum).2)
              else some (addToOpenFileTable fs'' inum 0)
  else some (-1, fs)

/-- `tfs_open`. -/
def tfsOpen (fs : FS) (name : CString) (flags : BitVec 32) : Option (Int × FS) :=
  if fs.openFlag = 0 then some (-1, fs) else tfsOpenUnsynchronized fs name flags

/-- `tfs_close`. -/
def tfsClose (fs : FS) (fhandle : Int) : Int × FS :=
  removeFromOpenFileTable fs fhandle

/-! ## Write and read -/

/-- How many bytes `tfs_write` writes: clipped at the end of the block. -/
def clipWrite (toWrite ofOffset : Nat) : Nat :=
  if blockSize < wordAdd toWrite ofOffset then wordSub blockSize ofOffset else toWrite

/-- The allocation step of `tfs_write`: an empty file gets a new block. -/
def allocIfEmpty (fs : FS) (n : Fin inodeTableSize) : FS :=
  if (fs.inodeTable n).iSize = 0 then
    match dataBlockAlloc fs with
    | (b, fs') =>
        { fs' with
          inodeTable := Function.update fs'.inodeTable n
            { fs'.inodeTable n with iDataBlock := b } }
  else fs

/-- `tfs_write`: the caller's buffer is the list of its bytes. -/
def tfsWrite (fs : FS) (fhandle : Int) (buffer : List UInt8) : Option (Int × FS) :=
  match getOpenFileEntry fhandle with
  | none => some (-1, fs)
  | some h =>
      match inodeGet (fs.openFileTable h).ofInumber with
      | none => some (-1, fs)
      | some n =>
          let file := fs.openFileTable h
          let toWrite := clipWrite buffer.length file.ofOffset
          if toWrite = 0 then some (wordToInt toWrite, fs)
          else
            let fs' := allocIfEmpty fs n
            match dataBlockGet (fs'.inodeTable n).iDataBlock with
            | none => some (-1, fs')
            | some b =>
                if blockSize < file.ofOffset + toWrite then none
                else
                  let offset := wordAdd file.ofOffset toWrite
                  some (wordToInt toWrite, { fs' with
                    fsData := Memory.store fs'.fsData (blockAddr b + file.ofOffset)
                      (buffer.take toWrite)
                    openFileTable := Function.update fs'.openFileTable h
                      { file with ofOffset := offset }
                    inodeTable := Function.update fs'.inodeTable n
                      { fs'.inodeTable n with iSize := max (fs'.inodeTable n).iSize offset } })

/-- How many bytes `tfs_read` reads. -/
def clipRead (iSize ofOffset len : Nat) : Nat :=
  min (wordSub iSize ofOffset) len

/-- `tfs_read`: the returned count and the bytes copied to the caller's buffer. -/
def tfsRead (fs : FS) (fhandle : Int) (len : Nat) : Option ((Int × List UInt8) × FS) :=
  match getOpenFileEntry fhandle with
  | none => some ((-1, []), fs)
  | some h =>
      match inodeGet (fs.openFileTable h).ofInumber with
      | none => some ((-1, []), fs)
      | some n =>
          let file := fs.openFileTable h
          let toRead := clipRead (fs.inodeTable n).iSize file.ofOffset len
          if toRead = 0 then some ((wordToInt toRead, []), fs)
          else
            match dataBlockGet (fs.inodeTable n).iDataBlock with
            | none => some ((-1, []), fs)
            | some b =>
                if fsDataSize < blockAddr b + file.ofOffset + toRead then none
                else
                  some ((wordToInt toRead,
                      Memory.load fs.fsData (blockAddr b + file.ofOffset) toRead),
                    { fs with
                      openFileTable := Function.update fs.openFileTable h
                        { file with ofOffset := wordAdd file.ofOffset toRead } })

/-! ## The file system as a machine -/

/-- The calls of the library. -/
inductive Call where
  | lookup (name : CString)
  | open (name : CString) (flags : BitVec 32)
  | close (fhandle : Int)
  | write (fhandle : Int) (buffer : List UInt8)
  | read (fhandle : Int) (len : Nat)
deriving DecidableEq

/-- A result: the value returned and the bytes delivered to the caller. -/
structure Ret where
  value : Int
  bytes : List UInt8
deriving DecidableEq, Repr

/-- One call. -/
def exec (fs : FS) : Call → Option (Ret × FS)
  | .lookup name => some (⟨tfsLookup fs name, []⟩, fs)
  | .open name flags => (tfsOpen fs name flags).map fun p => (⟨p.1, []⟩, p.2)
  | .close fhandle => some (⟨(tfsClose fs fhandle).1, []⟩, (tfsClose fs fhandle).2)
  | .write fhandle buffer => (tfsWrite fs fhandle buffer).map fun p => (⟨p.1, []⟩, p.2)
  | .read fhandle len => (tfsRead fs fhandle len).map fun p => (⟨p.1.1, p.1.2⟩, p.2)

/-- The file system after `tfs_init`. -/
def machine : Machine FS Call Ret := ⟨(tfsInit boot).2, exec⟩

/-- The handle is marked TAKEN. -/
def IsOpen (fs : FS) (fhandle : Int) : Prop :=
  ∃ h, getOpenFileEntry fhandle = some h ∧ fs.freeOpenFileEntries h = .taken

instance (fs : FS) (fhandle : Int) : Decidable (IsOpen fs fhandle) :=
  inferInstanceAs (Decidable (∃ h, getOpenFileEntry fhandle = some h ∧
    fs.freeOpenFileEntries h = .taken))

end TecnicoFS.Part2
