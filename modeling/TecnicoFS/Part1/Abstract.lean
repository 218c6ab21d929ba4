import TecnicoFS.Part1.Operations
import TecnicoFS.Part2.Abstract

/-!
# Part 1: the abstract file system

What the file system is for, as long as no open truncates: a list of named files in creation
order, and a table of handles that point to a file and an offset. A write puts all of its bytes at
the offset of its handle. In `machine` no open appends, and a read delivers as many bytes as it is
asked for, unless its handle is at the end of the file; in `anyLengths` an open may append, a read
stops at the end of the file, and files are copied out.
-/

namespace TecnicoFS.Part1.Abstract

open Part2 (hasFlag tfsOCreat tfsOAppend blockSize maxOpenFiles Call Ret)
open Part2.Abstract (Handle)

/-! ## State -/

structure File where
  name : List UInt8
  bytes : List UInt8

structure Store where
  files : List File
  handles : Fin maxOpenFiles → Option Handle

/-- An open handle: its place in the table, the file it points to with its position in the list,
and its offset. -/
structure OpenHandle where
  handle : Fin maxOpenFiles
  number : Nat
  file : File
  offset : Nat

/-- How many blocks a file can have: ten direct ones and those of one indirect block. -/
abbrev maxFileBlocks : Nat := maxDirectBlocks + blockSize / 4

/-- How many blocks a file of this size takes up, with its indirect block. -/
def fileBlocks (size : Nat) : Nat :=
  (size + (blockSize - 1)) / blockSize + if maxDirectBlocks * blockSize < size then 1 else 0

/-- The calls of a program that also copies files out. -/
inductive UserCall where
  | call (c : Call)
  | copyOut (path : CString)

namespace Store

/-- No file, no open handle. -/
def empty : Store := ⟨[], fun _ => none⟩

/-- How many blocks are in use: those of the files, and that of the root directory. -/
def blocks (s : Store) : Nat := 1 + (s.files.map fun f => fileBlocks f.bytes.length).sum

/-! ## Operations -/

/-- The position of the file with the name. -/
def find (s : Store) (name : List UInt8) : Option Nat :=
  s.files.findIdx? fun f => f.name == name

/-- Replace the contents of file `i`. -/
def setBytes (s : Store) (i : Nat) (bytes : List UInt8) : Store :=
  { s with files := s.files.modify i fun f => { f with bytes := bytes } }

/-- Set or clear a handle. -/
def setHandle (s : Store) (h : Fin maxOpenFiles) (handle : Option Handle) : Store :=
  { s with handles := Function.update s.handles h handle }

/-- Add an empty file at the end of the list. -/
def create (s : Store) (name : List UInt8) : Store := { s with files := s.files ++ [⟨name, []⟩] }

/-- Hand out the lowest free handle. -/
def addHandle (s : Store) (handle : Handle) : Int × Store :=
  match firstFit fun h => (s.handles h).isNone with
  | none => (-1, s)
  | some h => ((h : Nat), s.setHandle h (some handle))

/-- The number of the file with the name, or -1. -/
def lookup (s : Store) (name : List UInt8) : Int :=
  match s.find name with
  | none => -1
  | some i => (i + 1 : Nat)

/-- Open the file with the name at offset 0; `TFS_O_CREAT` creates it. -/
def openFile (s : Store) (name : List UInt8) (flags : BitVec 32) : Int × Store :=
  match s.find name with
  | some i => s.addHandle ⟨i, 0⟩
  | none =>
      if hasFlag flags tfsOCreat then (s.create name).addHandle ⟨s.files.length, 0⟩
      else (-1, s)

/-- What a handle stands for, if it is open. -/
def opened (s : Store) (fhandle : Int) : Option OpenHandle :=
  (index? maxOpenFiles fhandle).bind fun h =>
    (s.handles h).bind fun e => s.files[e.file]?.map fun f => ⟨h, e.file, f, e.offset⟩

/-- Close a handle. -/
def close (s : Store) (fhandle : Int) : Int × Store :=
  match s.opened fhandle with
  | none => (-1, s)
  | some o => (0, s.setHandle o.handle none)

/-- Write all bytes at the offset of the handle. -/
def write (s : Store) (fhandle : Int) (buffer : List UInt8) : Int × Store :=
  match s.opened fhandle with
  | none => (-1, s)
  | some o =>
      ((buffer.length : Nat),
        (s.setBytes o.number (Memory.overwrite o.file.bytes o.offset buffer)).setHandle o.handle
          (some ⟨o.number, o.offset + buffer.length⟩))

/-- Read so many bytes at the offset of the handle, or none at the end of the file. -/
def read (s : Store) (fhandle : Int) (len : Nat) : (Int × List UInt8) × Store :=
  match s.opened fhandle with
  | none => ((-1, []), s)
  | some o =>
      if o.offset = o.file.bytes.length then ((0, []), s)
      else
        (((len : Nat), (o.file.bytes.drop o.offset).take len),
          s.setHandle o.handle (some ⟨o.number, o.offset + len⟩))

/-- One call. The name of a path is what follows its first byte. -/
def exec (s : Store) : Call → Ret × Store
  | .lookup path => (⟨s.lookup path.tail.bytes, []⟩, s)
  | .open path flags =>
      (⟨(s.openFile path.tail.bytes flags).1, []⟩, (s.openFile path.tail.bytes flags).2)
  | .close fhandle => (⟨(s.close fhandle).1, []⟩, (s.close fhandle).2)
  | .write fhandle buffer => (⟨(s.write fhandle buffer).1, []⟩, (s.write fhandle buffer).2)
  | .read fhandle len =>
      (⟨(s.read fhandle len).1.1, (s.read fhandle len).1.2⟩, (s.read fhandle len).2)

/-! ## Appends, and reads that come to the end of the file -/

/-- The bytes of file `i`. -/
def bytes (s : Store) (i : Nat) : List UInt8 := (s.files[i]?.map File.bytes).getD []

/-- Open the file with the name, at its end with `TFS_O_APPEND`, or create it. -/
def openAt (s : Store) (name : List UInt8) (flags : BitVec 32) : Int × Store :=
  match s.find name with
  | some i => s.addHandle ⟨i, if hasFlag flags tfsOAppend then (s.bytes i).length else 0⟩
  | none =>
      if hasFlag flags tfsOCreat then (s.create name).addHandle ⟨s.files.length, 0⟩
      else (-1, s)

/-- Read up to so many bytes at the offset of the handle. -/
def readUpTo (s : Store) (fhandle : Int) (len : Nat) : (Int × List UInt8) × Store :=
  match s.opened fhandle with
  | none => ((-1, []), s)
  | some o =>
      let bytes := (o.file.bytes.drop o.offset).take len
      (((bytes.length : Nat), bytes),
        s.setHandle o.handle (some ⟨o.number, o.offset + bytes.length⟩))

/-- Copy the file with the name out: all of its bytes, if there is such a file and a handle is free
meanwhile. -/
def copyOut (s : Store) (name : List UInt8) : Ret :=
  match s.find name with
  | none => ⟨-1, []⟩
  | some i => if ∃ h, s.handles h = none then ⟨0, s.bytes i⟩ else ⟨-1, []⟩

/-- One call, of any length. -/
def execAny (s : Store) : UserCall → Ret × Store
  | .call (.open path flags) =>
      (⟨(s.openAt path.tail.bytes flags).1, []⟩, (s.openAt path.tail.bytes flags).2)
  | .call (.read fhandle len) =>
      (⟨(s.readUpTo fhandle len).1.1, (s.readUpTo fhandle len).1.2⟩, (s.readUpTo fhandle len).2)
  | .call (.lookup path) => s.exec (.lookup path)
  | .call (.close fhandle) => s.exec (.close fhandle)
  | .call (.write fhandle buffer) => s.exec (.write fhandle buffer)
  | .copyOut path => (s.copyOut path.tail.bytes, s)

end Store

/-- The abstract file system with appends, reads of any length, and copies to files outside. -/
def anyLengths : Machine Store UserCall Ret := ⟨.empty, fun s c => some (s.execAny c)⟩

/-- The abstract file system: every call returns. -/
def machine : Machine Store Call Ret := ⟨.empty, fun s c => some (s.exec c)⟩

end TecnicoFS.Part1.Abstract
