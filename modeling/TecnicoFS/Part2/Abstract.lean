import TecnicoFS.Part2.Operations

/-!
# Part 2: the abstract file system

What the file system is for, without its tables: a list of named files in
creation order, each with at most one block of contents, and a table of handles
that point to a file and an offset. File `i` of the list has number `i + 1`.
-/

namespace TecnicoFS.Part2.Abstract

/-! ## State -/

/-- The contents of a file: at most one block. -/
structure Contents where
  bytes : List UInt8
  fits : bytes.length ≤ blockSize

/-- The contents of a new or truncated file. -/
def Contents.empty : Contents := ⟨[], Nat.zero_le _⟩

theorem Contents.overwrite_fits (c : Contents) (offset : Nat) (data : List UInt8) :
    (Memory.overwrite c.bytes offset (data.take (blockSize - offset))).length ≤ blockSize := by
  have hfits := c.fits
  simp only [Memory.overwrite, List.length_append, List.length_take, List.length_drop]
  omega

/-- Overwrite or extend the contents at an offset, clipped at the block size. -/
def Contents.write (c : Contents) (offset : Nat) (data : List UInt8) : Contents where
  bytes := Memory.overwrite c.bytes offset (data.take (blockSize - offset))
  fits := c.overwrite_fits offset data

structure File where
  name : List UInt8
  contents : Contents

/-- An open handle: a position in the list of files, and an offset. -/
structure Handle where
  file : Nat
  offset : Nat

/-- The files, no two of the same name, and the handles. -/
structure Store where
  files : List File
  distinct : (files.map File.name).Nodup
  handles : Fin maxOpenFiles → Option Handle

namespace Store

/-- No file, no open handle. -/
def empty : Store := ⟨[], List.nodup_nil, fun _ => none⟩

/-! ## Operations -/

/-- The position of the file with the name. -/
def find (s : Store) (name : List UInt8) : Option Nat :=
  s.files.findIdx? fun f => f.name == name

/-- The contents of file `i`. -/
def contents (s : Store) (i : Nat) : Contents :=
  match s.files[i]? with
  | some f => f.contents
  | none => .empty

theorem map_name_modify (files : List File) (i : Nat) (c : Contents) :
    (files.modify i fun f => { f with contents := c }).map File.name = files.map File.name := by
  apply List.ext_getElem?
  intro j
  rw [List.getElem?_map, List.getElem?_map, List.getElem?_modify]
  by_cases hij : i = j
  · cases files[j]? <;> simp [hij]
  · simp [hij]

/-- Replace the contents of file `i`. -/
def setContents (s : Store) (i : Nat) (c : Contents) : Store where
  files := s.files.modify i fun f => { f with contents := c }
  distinct := by
    rw [map_name_modify]
    exact s.distinct
  handles := s.handles

/-- Set or clear a handle. -/
def setHandle (s : Store) (h : Fin maxOpenFiles) (handle : Option Handle) : Store :=
  { s with handles := Function.update s.handles h handle }

/-- Add an empty file at the end of the list. -/
def create (s : Store) (name : List UInt8) (hnew : name ∉ s.files.map File.name) : Store where
  files := s.files ++ [⟨name, .empty⟩]
  distinct := by
    rw [List.map_append, List.nodup_append]
    refine ⟨s.distinct, by simp, ?_⟩
    intro x hx y hy hxy
    rw [List.map_singleton, List.mem_singleton] at hy
    rw [hxy, hy] at hx
    exact hnew hx
  handles := s.handles

/-- Hand out the lowest free handle. -/
def addHandle (s : Store) (handle : Handle) : Int × Store :=
  match firstFit fun h => (s.handles h).isNone with
  | none => (-1, s)
  | some h => ((h : Nat), s.setHandle h (some handle))

/-- The number of the file with the name, or -1. -/
def lookup (s : Store) (name : List UInt8) : Int :=
  match s.find name with
  | none => -1
  | some i => (i + 1 : Nat)

/-- Open the file with the name. `TFS_O_TRUNC` empties it, `TFS_O_APPEND` starts
at its size; `TFS_O_CREAT` creates it while there are less than 23 files. A file
that was created stays, also when no handle is free. -/
def openFile (s : Store) (name : List UInt8) (flags : BitVec 32) : Int × Store :=
  match s.find name with
  | some i =>
      let s' := if hasFlag flags tfsOTrunc then s.setContents i .empty else s
      s'.addHandle ⟨i, if hasFlag flags tfsOAppend then (s'.contents i).bytes.length else 0⟩
  | none =>
      if hnew : name ∈ s.files.map File.name then (-1, s)
      else if hasFlag flags tfsOCreat ∧ s.files.length < maxDirEntries then
        (s.create name hnew).addHandle ⟨s.files.length, 0⟩
      else (-1, s)

/-- The entry of an open handle. -/
def handle (s : Store) (fhandle : Int) : Option (Fin maxOpenFiles × Handle) :=
  match index? maxOpenFiles fhandle with
  | none => none
  | some h => (s.handles h).map fun e => (h, e)

/-- Close a handle. -/
def close (s : Store) (fhandle : Int) : Int × Store :=
  match s.handle fhandle with
  | none => (-1, s)
  | some (h, _) => (0, s.setHandle h none)

/-- Write at the offset of the handle, clipped at the block size. -/
def write (s : Store) (fhandle : Int) (buffer : List UInt8) : Int × Store :=
  match s.handle fhandle with
  | none => (-1, s)
  | some (h, e) =>
      let count := min buffer.length (blockSize - e.offset)
      ((count : Nat),
        (s.setContents e.file ((s.contents e.file).write e.offset buffer)).setHandle h
          (some ⟨e.file, e.offset + count⟩))

/-- Read at the offset of the handle, up to the end of the file. -/
def read (s : Store) (fhandle : Int) (len : Nat) : (Int × List UInt8) × Store :=
  match s.handle fhandle with
  | none => ((-1, []), s)
  | some (h, e) =>
      let bytes := ((s.contents e.file).bytes.drop e.offset).take len
      (((bytes.length : Nat), bytes), s.setHandle h (some ⟨e.file, e.offset + bytes.length⟩))

/-- One call. The name of a path is what follows its first byte. -/
def exec (s : Store) : Call → Ret × Store
  | .lookup path => (⟨s.lookup path.tail.bytes, []⟩, s)
  | .open path flags =>
      (⟨(s.openFile path.tail.bytes flags).1, []⟩, (s.openFile path.tail.bytes flags).2)
  | .close fhandle => (⟨(s.close fhandle).1, []⟩, (s.close fhandle).2)
  | .write fhandle buffer => (⟨(s.write fhandle buffer).1, []⟩, (s.write fhandle buffer).2)
  | .read fhandle len =>
      (⟨(s.read fhandle len).1.1, (s.read fhandle len).1.2⟩, (s.read fhandle len).2)

end Store

/-- The abstract file system: every call returns. -/
def machine : Machine Store Call Ret := ⟨.empty, fun s c => some (s.exec c)⟩

/-! ## Files after an update -/

namespace Store

variable {s : Store} {i j : Nat} {c : Contents} {name : List UInt8}

@[simp] theorem length_setContents : (s.setContents i c).files.length = s.files.length := by
  simp [setContents]

theorem getElem?_setContents :
    (s.setContents i c).files[j]? =
      if i = j then s.files[j]?.map fun f => { f with contents := c } else s.files[j]? := by
  simp only [setContents, List.getElem?_modify]
  by_cases hij : i = j
  · simp [hij]
  · simp [hij]

theorem contents_eq {f : File} (h : s.files[i]? = some f) : s.contents i = f.contents := by
  unfold contents
  rw [h]

theorem contents_setContents (h : i < s.files.length) : (s.setContents i c).contents i = c := by
  have hfile : (s.setContents i c).files[i]? = some { s.files[i] with contents := c } := by
    rw [getElem?_setContents, if_pos rfl, List.getElem?_eq_getElem h]
    rfl
  rw [contents_eq hfile]

theorem contents_setContents_of_ne (h : i ≠ j) :
    (s.setContents i c).contents j = s.contents j := by
  unfold contents
  rw [getElem?_setContents, if_neg h]

/-- The first file with a name is at the position found. -/
theorem find_eq_some : s.find name = some i ↔
    (∃ f, s.files[i]? = some f ∧ f.name = name) ∧
      ∀ j f, j < i → s.files[j]? = some f → f.name ≠ name := by
  unfold find
  rw [List.findIdx?_eq_some_iff_getElem]
  constructor
  · rintro ⟨hi, hname, hfirst⟩
    refine ⟨⟨s.files[i], List.getElem?_eq_getElem hi, by simpa using hname⟩, ?_⟩
    intro j f hj hf
    rcases List.getElem?_eq_some_iff.mp hf with ⟨hlt, rfl⟩
    simpa using hfirst j hj
  · rintro ⟨⟨f, hf, hname⟩, hfirst⟩
    rcases List.getElem?_eq_some_iff.mp hf with ⟨hi, rfl⟩
    refine ⟨hi, by simpa using hname, ?_⟩
    intro j hj
    simpa using hfirst j _ hj (List.getElem?_eq_getElem (hj.trans hi))

theorem find_eq_none :
    s.find name = none ↔ ∀ (j : Nat) f, s.files[j]? = some f → f.name ≠ name := by
  unfold find
  rw [List.findIdx?_eq_none_iff]
  constructor
  · intro h j f hf
    simpa using h f (List.mem_of_getElem? hf)
  · intro h f hf
    rcases List.getElem?_of_mem hf with ⟨j, hj⟩
    simpa using h j f hj

/-- A name that is not found is new. -/
theorem not_mem_of_find (h : s.find name = none) : name ∉ s.files.map File.name := by
  intro hmem
  rcases List.mem_map.mp hmem with ⟨f, hf, hname⟩
  rcases List.getElem?_of_mem hf with ⟨j, hj⟩
  exact find_eq_none.mp h j f hj hname

end Store

end TecnicoFS.Part2.Abstract
