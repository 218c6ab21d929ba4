import TecnicoFS.Part1.Abstract
import TecnicoFS.Part1.Names

/-!
# Part 1: runs in chunks

The runs in which every file is written and read in chunks of one length: `Chunked` says on the
abstract file system which calls these make. `InChunks` holds in them: sizes and offsets are
multiples of the chunk of the file, so a read that is not at the end of its file finds a whole
chunk there (`Complete`).
-/

namespace TecnicoFS.Part1.Abstract

open Part2 (hasFlag tfsOCreat tfsOTrunc tfsOAppend blockSize maxOpenFiles maxFileName maxDirEntries
  Call Ret)
open Part2.Abstract (Handle)

variable {chunk : List UInt8 → Nat} {s : Store} {o : OpenHandle} {i j : Nat} {f : File}
  {bytes name buffer : List UInt8} {h : Fin maxOpenFiles} {c : Call} {fhandle : Int}

/-- How many blocks may be in use. -/
abbrev maxBlocks : Nat := 1020

/-- The calls of runs in which every file has one chunk length: paths fit into a directory entry,
no open truncates or appends or creates a file too many, only open handles are used, reads and
writes are of one chunk, and a write stays within the largest size of a file and the number of
blocks. -/
def Chunked (chunk : List UInt8 → Nat) (s : Store) : Call → Prop
  | .lookup path => PathFits path
  | .open path flags =>
      PathFits path ∧ hasFlag flags tfsOTrunc = false ∧ hasFlag flags tfsOAppend = false ∧
        (hasFlag flags tfsOCreat = true → s.find path.tail.bytes = none →
          s.files.length < maxDirEntries)
  | .close fhandle => (s.opened fhandle).isSome
  | .write fhandle buffer =>
      (s.opened fhandle).isSome ∧ ∀ o ∈ s.opened fhandle,
        buffer.length = chunk o.file.name ∧
          o.offset + buffer.length ≤ maxFileBlocks * blockSize ∧
            (s.write fhandle buffer).2.blocks ≤ maxBlocks
  | .read fhandle len =>
      (s.opened fhandle).isSome ∧ ∀ o ∈ s.opened fhandle, len = chunk o.file.name

instance : ∀ s c, Decidable (Chunked chunk s c)
  | _, .lookup _ => inferInstanceAs (Decidable (_ ∧ _))
  | _, .open _ _ => inferInstanceAs (Decidable ((_ ∧ _) ∧ _ ∧ _ ∧ (_ → _ → _)))
  | _, .close _ => inferInstanceAs (Decidable (_ = true))
  | _, .write _ _ => inferInstanceAs (Decidable (_ ∧ ∀ o ∈ _, _ ∧ _ ∧ _))
  | _, .read _ _ => inferInstanceAs (Decidable (_ ∧ ∀ o ∈ _, _))

/-- What the caller of a read or a write in chunks gets: the write returns its length, and the
read delivers a whole chunk, or nothing. -/
def Complete : Call → Ret → Prop
  | .write _ buffer, r => r.value = buffer.length
  | .read _ len, r => r.value = r.bytes.length ∧ (r.bytes.length = len ∨ r.bytes = [])
  | _, _ => True

/-! ## The invariant -/

/-- A file that is made up of chunks. -/
structure FileOk (chunk : List UInt8 → Nat) (f : File) : Prop where
  named : f.name ≠ []
  short : f.name.length < maxFileName
  whole : chunk f.name ∣ f.bytes.length
  limit : f.bytes.length ≤ maxFileBlocks * blockSize

/-- The invariant of runs in chunks. -/
structure InChunks (chunk : List UInt8 → Nat) (s : Store) : Prop where
  count : s.files.length ≤ maxDirEntries
  distinct : (s.files.map File.name).Nodup
  files : ∀ (i : Nat) f, s.files[i]? = some f → FileOk chunk f
  blocks : s.blocks ≤ maxBlocks
  handles : ∀ h e, s.handles h = some e →
    ∃ f, s.files[e.file]? = some f ∧ chunk f.name ∣ e.offset ∧ e.offset ≤ f.bytes.length

/-! ## Files and handles after an update -/

namespace Store

theorem opened_eq_some : s.opened fhandle = some o ↔ fhandle = ((o.handle : Nat) : Int) ∧
    s.handles o.handle = some ⟨o.number, o.offset⟩ ∧ s.files[o.number]? = some o.file := by
  simp only [opened, Option.bind_eq_some_iff, Option.map_eq_some_iff, index?_eq_some]
  constructor
  · rintro ⟨h, hh, e, he, f, hf, rfl⟩
    exact ⟨hh, he, hf⟩
  · rintro ⟨hh, he, hf⟩
    exact ⟨o.handle, hh, _, he, o.file, hf, rfl⟩

theorem getElem?_setBytes : (s.setBytes i bytes).files[j]? =
    if i = j then s.files[j]?.map fun f => { f with bytes := bytes } else s.files[j]? := by
  simp only [setBytes, List.getElem?_modify]
  by_cases hij : i = j
  · simp [hij]
  · simp [hij]

@[simp] theorem length_setBytes : (s.setBytes i bytes).files.length = s.files.length := by
  simp [setBytes]

theorem map_name_setBytes : (s.setBytes i bytes).files.map File.name = s.files.map File.name := by
  apply List.ext_getElem?
  intro j
  rw [List.getElem?_map, List.getElem?_map, getElem?_setBytes]
  split
  · rw [Option.map_map]
    rfl
  · rfl

/-- A sum over a list one element of which is replaced. -/
theorem sum_map_modify {α : Type} {l : List α} {a : α} (ha : l[i]? = some a) (g : α → α)
    (w : α → Nat) : ((l.modify i g).map w).sum + w a = (l.map w).sum + w (g a) := by
  induction l generalizing i with
  | nil => cases ha
  | cons x l ih =>
      cases i with
      | zero =>
          cases ha
          simp only [List.modify_zero_cons, List.map_cons, List.sum_cons]
          omega
      | succ i =>
          have htail := ih ha
          simp only [List.modify_succ_cons, List.map_cons, List.sum_cons]
          omega

theorem blocks_setBytes (hf : s.files[i]? = some f) :
    (s.setBytes i bytes).blocks + fileBlocks f.bytes.length =
      s.blocks + fileBlocks bytes.length := by
  have hsum := sum_map_modify hf (fun f => { f with bytes := bytes })
    fun f => fileBlocks f.bytes.length
  simp only [blocks, setBytes] at hsum ⊢
  omega

theorem blocks_create : (s.create name).blocks = s.blocks := by
  simp [blocks, create, fileBlocks, blockSize]

theorem find_eq_some (hfind : s.find name = some i) :
    ∃ f, s.files[i]? = some f ∧ f.name = name := by
  rw [find, List.findIdx?_eq_some_iff_getElem] at hfind
  rcases hfind with ⟨hi, hname, -⟩
  exact ⟨s.files[i], List.getElem?_eq_getElem hi, by simpa using hname⟩

/-- Where no two files have one name, a name stands for one file. -/
theorem find_of_name (hdistinct : (s.files.map File.name).Nodup) (hf : s.files[i]? = some f) :
    s.find f.name = some i := by
  cases hfind : s.find f.name with
  | none =>
      rw [find, List.findIdx?_eq_none_iff] at hfind
      have hne := hfind f (List.mem_of_getElem? hf)
      simp at hne
  | some j =>
      rcases find_eq_some hfind with ⟨g, hg, hname⟩
      have hi : i < (s.files.map File.name).length := by
        rw [List.length_map]
        exact (List.getElem?_eq_some_iff.mp hf).1
      have hsame : (s.files.map File.name)[i]? = (s.files.map File.name)[j]? := by
        rw [List.getElem?_map, List.getElem?_map, hf, hg, Option.map_some, Option.map_some, hname]
      rw [(List.getElem?_inj hi hdistinct).mp hsame]

theorem find_eq_none : s.find name = none ↔ name ∉ s.files.map File.name := by
  rw [find, List.findIdx?_eq_none_iff]
  simp

theorem setHandle_self {v : Option Handle} : (s.setHandle h v).handles h = v :=
  Function.update_self ..

theorem setHandle_same {v : Option Handle} (he : s.handles h = v) : s.setHandle h v = s := by
  subst he
  exact congrArg (Store.mk s.files) (Function.update_eq_self ..)

theorem setHandle_of_ne {v : Option Handle} {k : Fin maxOpenFiles} (hk : k ≠ h) :
    (s.setHandle h v).handles k = s.handles k :=
  Function.update_of_ne hk ..

theorem addHandle_cases (s : Store) (e : Handle) :
    ((firstFit fun h => (s.handles h).isNone) = none ∧ s.addHandle e = (-1, s)) ∨
      ∃ h, (firstFit fun h => (s.handles h).isNone) = some h ∧
        s.addHandle e = (((h : Nat) : Int), s.setHandle h (some e)) := by
  unfold addHandle
  cases hfit : firstFit fun h => (s.handles h).isNone with
  | none => exact Or.inl ⟨rfl, rfl⟩
  | some h => exact Or.inr ⟨h, rfl, rfl⟩

/-- Without `TFS_O_APPEND` every open starts at offset 0. -/
theorem openAt_eq {flags : BitVec 32} (happend : hasFlag flags tfsOAppend = false) :
    s.openAt name flags = s.openFile name flags := by
  simp [openAt, openFile, happend]

theorem bytes_eq (hf : s.files[i]? = some f) : s.bytes i = f.bytes := by
  simp [bytes, hf]

theorem write_opened (ho : s.opened fhandle = some o) : s.write fhandle buffer =
    (((buffer.length : Nat) : Int),
      (s.setBytes o.number (Memory.overwrite o.file.bytes o.offset buffer)).setHandle o.handle
        (some ⟨o.number, o.offset + buffer.length⟩)) := by
  rw [write, ho]

end Store

namespace InChunks

open Store

/-- What an open handle points to. -/
theorem opened (hs : InChunks chunk s) (ho : s.opened fhandle = some o) :
    FileOk chunk o.file ∧ chunk o.file.name ∣ o.offset ∧ o.offset ≤ o.file.bytes.length := by
  rcases opened_eq_some.mp ho with ⟨-, he, hf⟩
  rcases hs.handles _ _ he with ⟨f, hf', hdvd, hle⟩
  rw [hf] at hf'
  cases hf'
  exact ⟨hs.files _ _ hf, hdvd, hle⟩

/-! ## One call -/

theorem setHandle {v : Option Handle} (hs : InChunks chunk s)
    (hv : ∀ e, v = some e →
      ∃ f, s.files[e.file]? = some f ∧ chunk f.name ∣ e.offset ∧ e.offset ≤ f.bytes.length) :
    InChunks chunk (s.setHandle h v) where
  count := hs.count
  distinct := hs.distinct
  files := hs.files
  blocks := hs.blocks
  handles k e he := by
    by_cases hk : k = h
    · subst hk
      rw [setHandle_self] at he
      exact hv e he
    · rw [setHandle_of_ne hk] at he
      exact hs.handles k e he

theorem addHandleAt {offset : Nat} (hs : InChunks chunk s) (hf : s.files[i]? = some f)
    (hdvd : chunk f.name ∣ offset) (hle : offset ≤ f.bytes.length) :
    InChunks chunk (s.addHandle ⟨i, offset⟩).2 := by
  rcases addHandle_cases s ⟨i, offset⟩ with ⟨-, hadd⟩ | ⟨h, -, hadd⟩
  · rw [hadd]
    exact hs
  · rw [hadd]
    refine hs.setHandle fun e he => ?_
    cases he
    exact ⟨f, hf, hdvd, hle⟩

theorem addHandle (hs : InChunks chunk s) (hf : s.files[i]? = some f) :
    InChunks chunk (s.addHandle ⟨i, 0⟩).2 :=
  hs.addHandleAt hf (dvd_zero _) (Nat.zero_le _)

theorem create (hs : InChunks chunk s) (hcount : s.files.length < maxDirEntries)
    (hnew : s.find name = none) (hnamed : name ≠ []) (hshort : name.length < maxFileName) :
    InChunks chunk (s.create name) where
  count := by
    rw [Store.create, List.length_append, List.length_singleton]
    omega
  distinct := by
    rw [Store.create, List.map_append, List.nodup_append]
    refine ⟨hs.distinct, by simp, ?_⟩
    intro x hx y hy hxy
    rw [List.map_singleton, List.mem_singleton] at hy
    rw [hxy, hy] at hx
    exact find_eq_none.mp hnew hx
  files i f hf := by
    rw [Store.create, List.getElem?_append] at hf
    split at hf
    · exact hs.files i f hf
    · rw [List.getElem?_singleton] at hf
      split at hf
      · cases hf
        exact ⟨hnamed, hshort, dvd_zero _, Nat.zero_le _⟩
      · cases hf
  blocks := by
    rw [blocks_create]
    exact hs.blocks
  handles h e he := by
    rcases hs.handles h e he with ⟨f, hf, hrest⟩
    have hlt := (List.getElem?_eq_some_iff.mp hf).1
    exact ⟨f, (List.getElem?_append_left hlt).trans hf, hrest⟩

theorem setBytes (hs : InChunks chunk s) (hf : s.files[i]? = some f)
    (hgrows : f.bytes.length ≤ bytes.length) (hwhole : chunk f.name ∣ bytes.length)
    (hlimit : bytes.length ≤ maxFileBlocks * blockSize)
    (hblocks : (s.setBytes i bytes).blocks ≤ maxBlocks) : InChunks chunk (s.setBytes i bytes) where
  count := by
    rw [length_setBytes]
    exact hs.count
  distinct := by
    rw [map_name_setBytes]
    exact hs.distinct
  files j g hg := by
    rw [getElem?_setBytes] at hg
    split at hg
    · next hij =>
        subst hij
        rw [hf] at hg
        cases hg
        have hok := hs.files i f hf
        exact ⟨hok.named, hok.short, hwhole, hlimit⟩
    · exact hs.files j g hg
  blocks := hblocks
  handles h e he := by
    rcases hs.handles h e he with ⟨g, hg, hdvd, hle⟩
    rw [getElem?_setBytes]
    by_cases hij : i = e.file
    · rw [← hij] at hg ⊢
      rw [hf] at hg
      cases hg
      rw [if_pos rfl, hf]
      exact ⟨_, rfl, hdvd, hle.trans hgrows⟩
    · rw [if_neg hij]
      exact ⟨g, hg, hdvd, hle⟩

theorem write (hs : InChunks chunk s) (ho : s.opened fhandle = some o)
    (hlen : chunk o.file.name ∣ buffer.length)
    (hlimit : o.offset + buffer.length ≤ maxFileBlocks * blockSize)
    (hblocks : (s.write fhandle buffer).2.blocks ≤ maxBlocks) :
    InChunks chunk (s.write fhandle buffer).2 := by
  rcases opened_eq_some.mp ho with ⟨-, -, hf⟩
  rcases hs.opened ho with ⟨hok, hdvd, hle⟩
  have hsize : (Memory.overwrite o.file.bytes o.offset buffer).length =
      max o.file.bytes.length (o.offset + buffer.length) := Memory.length_overwrite hle
  have hend : chunk o.file.name ∣ o.offset + buffer.length := Nat.dvd_add hdvd hlen
  have hgrows : o.file.bytes.length ≤
      (Memory.overwrite o.file.bytes o.offset buffer).length := by
    rw [hsize]
    exact le_max_left ..
  rw [write_opened ho] at hblocks ⊢
  refine (hs.setBytes hf hgrows ?_ ?_ hblocks).setHandle fun e he => ?_
  · rw [hsize]
    rcases max_choice o.file.bytes.length (o.offset + buffer.length) with hmax | hmax
    · rw [hmax]
      exact hok.whole
    · rw [hmax]
      exact hend
  · rw [hsize]
    exact max_le hok.limit hlimit
  · cases he
    rw [getElem?_setBytes, if_pos rfl, hf]
    exact ⟨_, rfl, hend, hsize ▸ le_max_right ..⟩

/-- A read that is not at the end of its file finds a whole chunk. -/
theorem room (hs : InChunks chunk s) (ho : s.opened fhandle = some o)
    (hend : o.offset ≠ o.file.bytes.length) :
    o.offset + chunk o.file.name ≤ o.file.bytes.length := by
  rcases hs.opened ho with ⟨hok, hdvd, hle⟩
  have hrest : chunk o.file.name ∣ o.file.bytes.length - o.offset := Nat.dvd_sub hok.whole hdvd
  have hpos : 0 < o.file.bytes.length - o.offset := by omega
  have hchunk := Nat.le_of_dvd hpos hrest
  omega

/-- In chunks, a read that comes to the end of the file does so at once. -/
theorem read_eq {len : Nat} (hs : InChunks chunk s) (ho : s.opened fhandle = some o)
    (hlen : len = chunk o.file.name) : s.read fhandle len = s.readUpTo fhandle len := by
  rcases opened_eq_some.mp ho with ⟨-, he, -⟩
  rw [Store.read, Store.readUpTo, ho]
  dsimp only
  split
  · next hend =>
      rw [hend, List.drop_length, List.take_nil, List.length_nil, Nat.add_zero,
        setHandle_same (by rw [he, hend])]
      rfl
  · next hend =>
      have hroom := hs.room ho hend
      have hcount : ((o.file.bytes.drop o.offset).take len).length = len := by
        rw [List.length_take, List.length_drop]
        omega
      rw [hcount]

theorem read {len : Nat} (hs : InChunks chunk s) (ho : s.opened fhandle = some o)
    (hlen : len = chunk o.file.name) :
    InChunks chunk (s.read fhandle len).2 ∧
      Complete (.read fhandle len) ⟨(s.read fhandle len).1.1, (s.read fhandle len).1.2⟩ := by
  rw [Store.read, ho]
  dsimp only
  split
  · exact ⟨hs, rfl, Or.inr rfl⟩
  · next hend =>
      rcases opened_eq_some.mp ho with ⟨-, -, hf⟩
      have hroom := hs.room ho hend
      have hcount : ((o.file.bytes.drop o.offset).take len).length = len := by
        rw [List.length_take, List.length_drop]
        omega
      refine ⟨hs.setHandle fun e he => ?_, ?_, Or.inl hcount⟩
      · cases he
        refine ⟨o.file, hf, ?_, by rw [hlen]; exact hroom⟩
        rw [hlen]
        exact Nat.dvd_add (hs.opened ho).2.1 (dvd_refl _)
      · rw [hcount]

end InChunks

theorem PathFits.tail {path : CString} (hp : PathFits path) :
    path.tail.bytes ≠ [] ∧ path.tail.bytes.length < maxFileName := by
  rcases hp with ⟨hvalid, hlen⟩
  have hlong : 1 < path.strlen := by
    simp only [Part2.validPathname, Bool.and_eq_true, decide_eq_true_eq] at hvalid
    exact hvalid.1
  have htail : path.tail.bytes.length = path.strlen - 1 := tail_strlen path
  rw [← List.length_pos_iff, htail]
  simp only [maxFileName] at hlen ⊢
  omega

/-! ## Runs -/

theorem inChunks_empty : InChunks chunk .empty where
  count := Nat.zero_le _
  distinct := List.nodup_nil
  files i f hf := by cases hf
  blocks := by decide
  handles h e he := by cases he

/-- Every call of a run in chunks keeps the invariant, and what it returns is complete. -/
theorem exec_chunked (hs : InChunks chunk s) (hok : Chunked chunk s c) :
    InChunks chunk (s.exec c).2 ∧ Complete c (s.exec c).1 := by
  cases c with
  | lookup path => exact ⟨hs, trivial⟩
  | «open» path flags =>
      refine ⟨?_, trivial⟩
      rcases hok with ⟨hpath, -, -, hcount⟩
      rw [Store.exec, Store.openFile]
      cases hfind : s.find path.tail.bytes with
      | some i =>
          -- an existing file starts at offset 0, the flags change nothing
          rcases Store.find_eq_some hfind with ⟨f, hf, -⟩
          exact hs.addHandle hf
      | none =>
          dsimp only
          split
          · next hcreat =>
              have hnew : (s.create path.tail.bytes).files[s.files.length]? =
                  some ⟨path.tail.bytes, []⟩ := by
                simp [Store.create]
              exact (hs.create (hcount hcreat hfind) hfind (PathFits.tail hpath).1
                (PathFits.tail hpath).2).addHandle hnew
          · exact hs
  | close fhandle =>
      refine ⟨?_, trivial⟩
      rcases Option.isSome_iff_exists.mp hok with ⟨o, ho⟩
      rw [Store.exec, Store.close, ho]
      exact hs.setHandle fun e he => by cases he
  | write fhandle buffer =>
      rcases hok with ⟨hopen, hwrite⟩
      rcases Option.isSome_iff_exists.mp hopen with ⟨o, ho⟩
      rcases hwrite o ho with ⟨hlen, hlimit, hblocks⟩
      refine ⟨hs.write ho (dvd_of_eq hlen.symm) hlimit hblocks, ?_⟩
      rw [Store.exec, Store.write_opened ho]
      rfl
  | read fhandle len =>
      rcases hok with ⟨hopen, hread⟩
      rcases Option.isSome_iff_exists.mp hopen with ⟨o, ho⟩
      exact hs.read ho (hread o ho)

end TecnicoFS.Part1.Abstract
