import TecnicoFS.Part1.State

/-!
# Part 1: the file system operations (`fs/operations.c`)

`tfs_open`, `tfs_close`, `tfs_write` and `tfs_read` as programs over the locks. The loops of
`tfs_write` and `tfs_read` recurse on the number of iterations that are left; their local
variables are arguments. A read delivers the bytes it copied, also where it fails later.
-/

namespace TecnicoFS.Part1

open Threads Threads.Prog
open Part2 (rootDirInum validPathname hasFlag tfsOCreat tfsOTrunc tfsOAppend blockSize dataBlocks
  inodeTableSize maxOpenFiles maxDirEntries blockAddr dataBlockGet inodeGet getOpenFileEntry)

/-- `tfs_init`. -/
def tfsInit : Op Int := do
  stateInit
  let root ← inodeCreate .tDirectory
  if root ≠ rootDirInum then pure (-1) else pure 0

/-- `tfs_lookup`. -/
def tfsLookup (name : CString) : Op Int :=
  if validPathname name then findInDir rootDirInum name.tail else pure (-1)

/-! ## Open and close -/

/-- How many blocks a truncation takes a file of this size to have. -/
def truncatedBlocks (size : Nat) : Nat :=
  if size / blockSize % blockSize ≠ 0 then size / blockSize + 1 else size / blockSize

/-- The loop of `tfs_open` that frees the direct blocks; `false` where a free fails. -/
def freeBlocks (n : Fin inodeTableSize) : List (Fin maxDirectBlocks) → Op Bool
  | [] => pure true
  | i :: is => do
      let block ← read fun fs => (fs.inodeTable n).iDataBlock i
      let r ← dataBlockFree block
      if r = -1 then pure false
      else
        modify fun fs => fs.setInode n
          { fs.inodeTable n with
            iDataBlock := Function.update (fs.inodeTable n).iDataBlock i (-1) }
        freeBlocks n is

/-- The truncation step of `tfs_open`; `false` where a free fails. -/
def truncate (n : Fin inodeTableSize) : Op Bool := do
  let size ← read fun fs => (fs.inodeTable n).iSize
  if size = 0 then pure true
  else
    let freed ← freeBlocks n ((List.finRange maxDirectBlocks).take (truncatedBlocks size))
    if freed then
      let indirectFreed ←
        if maxDirectBlocks ≤ truncatedBlocks size then do
          let block ← read fun fs => (fs.inodeTable n).iIndirectDataBlock
          let r ← dataBlockFree block
          if r = -1 then pure false
          else
            modify fun fs => fs.setInode n { fs.inodeTable n with iIndirectDataBlock := -1 }
            pure true
        else pure true
      if indirectFreed then
        modify fun fs => fs.setInode n { fs.inodeTable n with iSize := 0 }
        pure true
      else pure false
    else pure false

/-- `tfs_open` on a path that was found: the i-node and the initial offset. The lock array
is indexed before `inode_get` checks the number. -/
def openExisting (inum : Int) (flags : BitVec 32) : Op (Option (Int × Nat)) :=
  match index? inodeTableSize inum with
  | none => crash
  | some n => do
      lock (.inode n)
      let truncated ← if hasFlag flags tfsOTrunc then truncate n else pure true
      -- the handle that is given out starts at the size after the truncation
      if truncated then
        let offset ←
          if hasFlag flags tfsOAppend then read fun fs => (fs.inodeTable n).iSize else pure 0
        unlock .openFileLock
        unlock (.inode n)
        pure (some (inum, offset))
      else
        unlock .openFileLock
        unlock (.inode n)
        pure none

/-- `tfs_open` on a path that is created. -/
def openCreated (name : CString) : Op (Option (Int × Nat)) := do
  let inum ← inodeCreate .tFile
  match index? inodeTableSize inum with
  | none => do
      unlock .openFileLock
      pure none
  | some n => do
      lock (.inode n)
      let r ← addDirEntry rootDirInum inum name.tail
      if r = -1 then
        -- without an entry the i-node is given up, whatever `inode_delete` returns
        let _ ← inodeDelete inum
        unlock .openFileLock
        unlock (.inode n)
        pure none
      else
        unlock .openFileLock
        unlock (.inode n)
        pure (some (inum, 0))

/-- `tfs_open`. -/
def tfsOpen (name : CString) (flags : BitVec 32) : Op Int :=
  if validPathname name then do
    lock .openFileLock
    let inum ← tfsLookup name
    let opened ←
      if 0 ≤ inum then openExisting inum flags
      else if hasFlag flags tfsOCreat then openCreated name
      else do
        unlock .openFileLock
        pure none
    -- both locks are released by now
    match opened with
    | none => pure (-1)
    | some (inum, offset) => addToOpenFileTable inum offset
  else pure (-1)

/-- `tfs_close`. -/
def tfsClose (fhandle : Int) : Op Int := removeFromOpenFileTable fhandle

/-- `tfs_destroy_after_all_closed`. The locks that it destroys after its wait are no part of the
state: a run ends where one of them is in use then, or is used afterwards. -/
def tfsDestroyAfterAllClosed : Op Int := do
  lock .openFilesMutex
  await .openFilesCond .openFilesMutex (fun fs => fs.openFilesCount = 0) (pure ())
  unlock .openFilesMutex
  pure 0

/-! ## Blocks of a file -/

/-- The number of the first block of a file that the loop of a read or a write does not
reach. -/
def endBlock (offset count : Nat) : Nat :=
  if 0 < count % blockSize then wordAdd offset count / blockSize + 1
  else wordAdd offset count / blockSize

/-- The direct block `i` of a write, allocated if there is none. -/
def writeDirect (n : Fin inodeTableSize) (i : Fin maxDirectBlocks) :
    Op (Option (Fin dataBlocks)) := do
  let block ← read fun fs => (fs.inodeTable n).iDataBlock i
  let there ←
    if block = -1 then do
      let b ← dataBlockAlloc
      modify fun fs => fs.setInode n
        { fs.inodeTable n with
          iDataBlock := Function.update (fs.inodeTable n).iDataBlock i b }
      pure (decide (b ≠ -1))
    else pure true
  if there then read fun fs => dataBlockGet ((fs.inodeTable n).iDataBlock i) else pure none

/-- The loop that fills the first `count` numbers of a new indirect block with -1. -/
def clearIndirect (table : Fin dataBlocks) : Nat → Op Unit
  | 0 => pure ()
  | count + 1 => do
      clearIndirect table count
      modify? fun fs => fs.store? (blockAddr table + 4 * count) (intBytes 4 (-1))

/-- The indirect block of a write, allocated if there is none. The loop that fills it runs
to `BLOCK_SIZE - MAX_DIRECT_BLOCKS` numbers of four bytes each. -/
def writeIndirectTable (n : Fin inodeTableSize) : Op (Option (Fin dataBlocks)) := do
  let block ← read fun fs => (fs.inodeTable n).iIndirectDataBlock
  let there ←
    if block = -1 then do
      let b ← dataBlockAlloc
      -- a failed allocation is noticed by `data_block_get` only
      modify fun fs => fs.setInode n { fs.inodeTable n with iIndirectDataBlock := b }
      match dataBlockGet b with
      | none => pure false
      | some table => do
          clearIndirect table (blockSize - maxDirectBlocks)
          pure true
    else pure true
  if there then read fun fs => dataBlockGet (fs.inodeTable n).iIndirectDataBlock else pure none

/-- The address of number `i - MAX_DIRECT_BLOCKS` of an indirect block, if it is inside
`fs_data`. -/
def slotAddr (table : Fin dataBlocks) (i : Nat) : Option Nat :=
  if blockAddr table + 4 * (i - maxDirectBlocks) + 4 ≤ fsDataSize then
    some (blockAddr table + 4 * (i - maxDirectBlocks))
  else none

/-- The block `i` of a write past the direct blocks, allocated if there is none. -/
def writeIndirect (n : Fin inodeTableSize) (i : Nat) : Op (Option (Fin dataBlocks)) := do
  let table ← writeIndirectTable n
  match table with
  | none => pure none
  | some table =>
      match slotAddr table i with
      | none => crash
      | some a => do
          let block ← read fun fs => fs.intAt a
          let there ←
            if block = -1 then do
              let b ← dataBlockAlloc
              -- a failed allocation stores -1 again
              modify? fun fs => fs.store? a (intBytes 4 b)
              pure (decide (b ≠ -1))
            else pure true
          if there then read fun fs => dataBlockGet (fs.intAt a) else pure none

/-- The block `i` of a write. -/
def writeBlock (n : Fin inodeTableSize) (i : Nat) : Op (Option (Fin dataBlocks)) :=
  if h : i < maxDirectBlocks then writeDirect n ⟨i, h⟩ else writeIndirect n i

/-- The block `i` of a read. -/
def readBlock (n : Fin inodeTableSize) (i : Nat) : Op (Option (Fin dataBlocks)) :=
  if h : i < maxDirectBlocks then
    read fun fs => dataBlockGet ((fs.inodeTable n).iDataBlock ⟨i, h⟩)
  else do
    let table ← read fun fs => dataBlockGet (fs.inodeTable n).iIndirectDataBlock
    match table with
    | none => pure none
    | some table =>
        match slotAddr table i with
        | none => crash
        | some a => read fun fs => dataBlockGet (fs.intAt a)

/-! ## Write and read -/

/-- The end of `tfs_write` and `tfs_read`. -/
def leave {α : Type} (h : Fin maxOpenFiles) (n : Fin inodeTableSize) (value : α) : Op α := do
  unlock (.openFile h)
  unlock (.inode n)
  pure value

/-- `memcpy` of the bytes into a block, from the offset of the handle on. -/
def copyIn (h : Fin maxOpenFiles) (b : Fin dataBlocks) (bytes : List UInt8) : Op Unit :=
  modify? fun fs =>
    fs.store? (blockAddr b + (fs.openFileTable h).ofOffset % blockSize) bytes

/-- The handle moves by `count` bytes and the file grows up to its new offset. -/
def FS.advance (fs : FS) (h : Fin maxOpenFiles) (n : Fin inodeTableSize) (count : Nat) : FS :=
  let offset := wordAdd (fs.openFileTable h).ofOffset count
  (fs.setHandle h { fs.openFileTable h with ofOffset := offset }).setInode n
    { fs.inodeTable n with iSize := max (fs.inodeTable n).iSize offset }

/-- The loop of `tfs_write`: `left` iterations, from block `i` on, with the bytes that are
still to write. -/
def writeLoop (h : Fin maxOpenFiles) (n : Fin inodeTableSize) (last : Nat) :
    (left i : Nat) → (buffer : List UInt8) → (written : Nat) → Op Int
  | 0, _, _, written => leave h n (wordToInt written)
  | left + 1, i, buffer, written => do
      let block ← writeBlock n i
      match block with
      | none => leave h n (-1)
      | some b => do
          let offset ← read fun fs => (fs.openFileTable h).ofOffset
          let rest := blockSize - offset % blockSize
          -- up to the end of the block, and there are more blocks
          if i + 1 < last ∧ rest < buffer.length then
            copyIn h b (buffer.take rest)
            modify fun fs => fs.advance h n rest
            writeLoop h n last left (i + 1) (buffer.drop rest) (written + rest)
          -- the last bytes, also where they go past the end of the block: `break`
          else if buffer.length ≤ blockSize then
            copyIn h b buffer
            modify fun fs => fs.advance h n buffer.length
            leave h n (wordToInt (written + buffer.length))
          else
            -- a whole block, not looking at the offset in it
            copyIn h b (buffer.take blockSize)
            modify fun fs => fs.advance h n blockSize
            writeLoop h n last left (i + 1) (buffer.drop blockSize) (written + blockSize)

/-- `tfs_write`: the caller's buffer is the list of its bytes. A write of no bytes keeps
both locks. -/
def tfsWrite (fhandle : Int) (buffer : List UInt8) : Op Int :=
  match getOpenFileEntry fhandle with
  | none => pure (-1)
  | some h => do
      lock (.openFile h)
      let inum ← read fun fs => (fs.openFileTable h).ofInumber
      match inodeGet inum with
      | none => do
          unlock (.openFile h)
          pure (-1)
      | some n => do
          lock (.inode n)
          -- the locks are released in the branch for `to_write > 0` only
          if buffer.length = 0 then pure 0
          else
            let offset ← read fun fs => (fs.openFileTable h).ofOffset
            let first := offset / blockSize
            let last := endBlock offset buffer.length
            writeLoop h n last (last - first) first buffer 0

/-- `memcpy` of `count` bytes out of a block, from the offset of the handle on, if they are
inside `fs_data`. -/
def copyOut (h : Fin maxOpenFiles) (b : Fin dataBlocks) (offset count : Nat) :
    Op (List UInt8) :=
  if blockAddr b + offset % blockSize + count ≤ fsDataSize then do
    let bytes ← read fun fs =>
      Memory.load fs.fsData (blockAddr b + offset % blockSize) count
    modify fun fs => fs.setHandle h
      { fs.openFileTable h with ofOffset := wordAdd (fs.openFileTable h).ofOffset count }
    pure bytes
  else crash

/-- The loop of `tfs_read`: `left` iterations, from block `i` on, with the number of bytes
still to read and those delivered so far. -/
def readLoop (h : Fin maxOpenFiles) (n : Fin inodeTableSize) (last : Nat) :
    (left i toRead : Nat) → (bytes : List UInt8) → Op (Int × List UInt8)
  | 0, _, _, bytes => leave h n (wordToInt bytes.length, bytes)
  | left + 1, i, toRead, bytes => do
      let block ← readBlock n i
      match block with
      | none => leave h n (-1, bytes)
      | some b => do
          let offset ← read fun fs => (fs.openFileTable h).ofOffset
          let rest := blockSize - offset % blockSize
          -- the same three cases as in the loop of `tfs_write`
          if i + 1 < last ∧ rest < toRead then
            let more ← copyOut h b offset rest
            readLoop h n last left (i + 1) (toRead - rest) (bytes ++ more)
          else if toRead ≤ blockSize then
            let more ← copyOut h b offset toRead
            leave h n (wordToInt (bytes ++ more).length, bytes ++ more)
          else
            let more ← copyOut h b offset blockSize
            readLoop h n last left (i + 1) (toRead - blockSize) (bytes ++ more)

/-- `tfs_read`: the returned count and the bytes copied to the caller's buffer. -/
def tfsRead (fhandle : Int) (len : Nat) : Op (Int × List UInt8) :=
  match getOpenFileEntry fhandle with
  | none => pure (-1, [])
  | some h => do
      lock (.openFile h)
      let inum ← read fun fs => (fs.openFileTable h).ofInumber
      match inodeGet inum with
      | none => do
          unlock (.openFile h)
          pure (-1, [])
      | some n => do
          lock (.inode n)
          let offset ← read fun fs => (fs.openFileTable h).ofOffset
          let size ← read fun fs => (fs.inodeTable n).iSize
          -- the subtraction wraps around where the offset is past the size
          let toRead := min (wordSub size offset) len
          if toRead = 0 then leave h n (0, [])
          else
            let first := offset / blockSize
            let last := endBlock offset toRead
            readLoop h n last (last - first) first toRead []

/-! ## The file system -/

/-- One call: the value returned and the bytes delivered. -/
def exec : Part2.Call → Op Part2.Ret
  | .lookup name => do
      let r ← tfsLookup name
      pure ⟨r, []⟩
  | .open name flags => do
      let r ← tfsOpen name flags
      pure ⟨r, []⟩
  | .close fhandle => do
      let r ← tfsClose fhandle
      pure ⟨r, []⟩
  | .write fhandle buffer => do
      let r ← tfsWrite fhandle buffer
      pure ⟨r, []⟩
  | .read fhandle len => do
      let r ← tfsRead fhandle len
      pure ⟨r.1, r.2⟩

/-- The file system after `tfs_init`, one call after the other, each by a thread that finds every
lock free. A write of no bytes leaves two locks behind; what comes after it is only right in
`lockMachine`. -/
def machine : Machine FS Part2.Call Part2.Ret where
  init := ((tfsInit.eval boot).map Prod.snd).getD boot
  exec fs c := (exec c).eval fs

end TecnicoFS.Part1
