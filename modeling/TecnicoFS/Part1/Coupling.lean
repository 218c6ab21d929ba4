import TecnicoFS.Part1.Chunks
import TecnicoFS.Part1.CopyOut

/-!
# Part 1: many files and one allocator

`Sim` couples the abstract file system with the tables: file `i` is i-node `i + 1` with entry `i` of
the root directory, it holds exactly the blocks that its size calls for, and as nothing is ever
freed the blocks in use are the first ones of `fs_data`. So all blocks behind one that is newly
allocated are free, and the filling of a new indirect block does no harm (`FileSim.writeOk`).
-/

namespace TecnicoFS.Part1

open Part2 (blockSize dataBlocks inodeTableSize maxOpenFiles maxFileName maxDirEntries blockAddr
  dataBlockGet)
open Abstract (File Store OpenHandle fileBlocks maxBlocks)

variable {a : Store} {fs fs' : FS} {n m : Fin inodeTableSize} {h : Fin maxOpenFiles} {f : File}
  {off i count stop : Nat} {buffer : List UInt8}

/-- The i-node is a file with the bytes of `f`, and it holds the blocks that its size calls for and
no others. -/
structure FileSim (fs : FS) (n : Fin inodeTableSize) (f : File) : Prop where
  isFile : IsFile fs n
  contents : fs.contents n = f.bytes.map some
  held : ∀ r, fs.ref n r ≠ -1 ↔ Reaches 0 (stopBlock f.bytes.length) r

/-- Handle `h` is closed on both sides, or open on the same file and offset. -/
def HandleSim (a : Store) (fs : FS) (h : Fin maxOpenFiles) : Prop :=
  (a.handles h = none ∧ fs.freeOpenFileEntries h = .free) ∨
    ∃ e, a.handles h = some e ∧ fs.freeOpenFileEntries h = .taken ∧
      fs.openFileTable h = ⟨(e.file + 1 : Nat), e.offset⟩

/-- The abstract store and the tables describe the same files and handles, and the blocks in use
are the first ones. -/
structure Sim (a : Store) (fs : FS) : Prop where
  consistent : Consistent fs
  inodes : ∀ n, fs.freeinodeTs n = .free ↔ a.files.length < (n : Nat)
  files : ∀ (i : Nat) f (n : Fin inodeTableSize), (n : Nat) = i + 1 → a.files[i]? = some f →
    FileSim fs n f
  numbers : ∀ i : Fin maxDirEntries,
    entryNumber fs i = if (i : Nat) < a.files.length then ((i + 1 : Nat) : Int) else -1
  names : ∀ (i : Fin maxDirEntries) f, a.files[(i : Nat)]? = some f → entryName fs i = f.name
  marks : ∀ b, fs.freeBlocks b = .free ↔ a.blocks ≤ (b : Nat)
  handles : ∀ h, HandleSim a fs h

/-! ## The blocks of a file -/

theorem reaches_table : Reaches i stop .table ↔ maxDirectBlocks < stop := by
  constructor
  · rintro (⟨-, hstop⟩ | ⟨j, -, -, hplace⟩)
    · exact hstop
    · exact absurd hplace (blockRef_ne_table j)
  · exact fun hstop => Or.inl ⟨rfl, hstop⟩

theorem reaches_block {j : Nat} {r : Ref} (hplace : blockRef j = some r) :
    Reaches i stop r ↔ i ≤ j ∧ j < stop := by
  constructor
  · rintro (⟨rfl, -⟩ | ⟨k, hik, hk, hplace'⟩)
    · exact absurd hplace (blockRef_ne_table j)
    · rw [blockRef_inj hplace hplace']
      exact ⟨hik, hk⟩
  · rintro ⟨hij, hj⟩
    exact Or.inr ⟨j, hij, hj, hplace⟩

theorem Reaches.mono {r : Ref} {i' stop' : Nat} (hr : Reaches i stop r) (hi : i' ≤ i)
    (hstop : stop ≤ stop') : Reaches i' stop' r := by
  rcases hr with ⟨rfl, htable⟩ | ⟨j, hij, hj, hplace⟩
  · exact Or.inl ⟨rfl, by omega⟩
  · exact Or.inr ⟨j, by omega, by omega, hplace⟩

/-- How many blocks are missing in a file that has the first ones. -/
theorem missing_held {held : Nat} (hslot : ∀ j, i ≤ j → j < i + count →
    (fs.slot n j = -1 ↔ held ≤ j)) : missing fs n i count = (i + count) - max i held := by
  induction count generalizing i with
  | zero =>
      rw [missing, List.range'_zero, List.countP_nil]
      omega
  | succ count ih =>
      rw [missing_succ, ih fun j hj hlt => hslot j (by omega) (by omega),
        if_congr (hslot i (le_refl i) (by omega)) rfl rfl]
      split <;> omega

namespace FileSim

variable (hf : FileSim fs n f)

include hf

theorem size : (fs.inodeTable n).iSize = f.bytes.length := by
  rw [← contents_length, hf.contents, List.length_map]

theorem slot {j : Nat} (hj : j < maxFileBlocks) :
    fs.slot n j ≠ -1 ↔ j < stopBlock f.bytes.length := by
  rcases blockRef_isSome hj with ⟨r, hplace⟩
  rw [slot_of_ref hplace, hf.held, reaches_block hplace]
  exact and_iff_right (Nat.zero_le j)

theorem table : fs.ref n .table ≠ -1 ↔ maxDirectBlocks < stopBlock f.bytes.length := by
  rw [hf.held, reaches_table]

theorem mapped (hlimit : f.bytes.length ≤ maxFileSize) : Mapped fs n := by
  intro j hj
  rw [hf.size] at hj
  refine (hf.slot ?_).mpr hj
  simp only [maxFileSize, maxFileBlocks, maxDirectBlocks, tableSize, stopBlock, blockSize]
    at hlimit hj ⊢
  omega

/-- What a write lacks is what the file grows by. -/
theorem lacks (hle : off ≤ f.bytes.length) (hmax : off + count ≤ maxFileSize) :
    fileBlocks f.bytes.length + lacks fs n (off / blockSize) (stopBlock (off + count)) =
      fileBlocks (max f.bytes.length (off + count)) := by
  have hmiss := @missing_held fs n (off / blockSize)
    (stopBlock (off + count) - off / blockSize) (stopBlock f.bytes.length) (by
      intro j _ hj
      rw [← not_lt, ← hf.slot, not_not]
      simp only [maxFileSize, maxFileBlocks, maxDirectBlocks, tableSize, stopBlock, blockSize]
        at hmax hj ⊢
      omega)
  have hneeds : NeedsTable fs n (stopBlock (off + count)) ↔
      stopBlock f.bytes.length ≤ maxDirectBlocks ∧ maxDirectBlocks < stopBlock (off + count) := by
    rw [NeedsTable, ← not_lt, ← hf.table, not_not]
  rw [Part1.lacks, hmiss]
  by_cases hnew : NeedsTable fs n (stopBlock (off + count))
  · rw [if_pos hnew]
    rw [hneeds] at hnew
    simp only [fileBlocks, stopBlock, maxDirectBlocks, blockSize] at hnew ⊢
    rw [if_neg (by omega), if_pos (by omega)]
    omega
  · rw [if_neg hnew]
    rw [hneeds] at hnew
    simp only [fileBlocks, stopBlock, maxDirectBlocks, blockSize] at hnew ⊢
    split <;> split <;> omega

end FileSim

/-! ## A file that stays as it is -/

/-- The contents of a file depend on its i-node, its block map and the bytes of its blocks. -/
theorem contents_congr (hsize : (fs'.inodeTable n).iSize = (fs.inodeTable n).iSize)
    (href : fs'.ref n = fs.ref n) (hsame : ∀ b, fs.Owns n b → SameBlock fs fs' b) :
    fs'.contents n = fs.contents n := by
  rw [FS.contents, FS.contents, hsize]
  apply List.map_congr_left
  intro p _
  rw [FS.fileByte, FS.fileByte, blockAt_congr href]
  cases hb : fs.blockAt n (p / blockSize) with
  | none => rfl
  | some b =>
      have hbyte := hsame b (owns_of_blockAt hb) (p % blockSize) (Nat.mod_lt _ (by decide))
      rw [Option.map_some, Option.map_some, hbyte]

theorem FileSim.congr (hf : FileSim fs n f) (hfile : IsFile fs' n)
    (hsize : (fs'.inodeTable n).iSize = (fs.inodeTable n).iSize) (href : fs'.ref n = fs.ref n)
    (hsame : ∀ b, fs.Owns n b → SameBlock fs fs' b) : FileSim fs' n f where
  isFile := hfile
  contents := (contents_congr hsize href hsame).trans hf.contents
  held r := by
    rw [href]
    exact hf.held r

theorem FileSim.sameStore (hf : FileSim fs n f) (hs : SameStore fs fs') : FileSim fs' n f := by
  refine hf.congr (hs.isFile.mpr hf.isFile) (by rw [hs.inodes]) ?_ fun _ _ _ _ => by rw [hs.data]
  exact ref_congr (by rw [hs.inodes]) (by rw [hs.inodes]) fun _ _ _ _ => by rw [hs.data]

/-! ## The blocks of a write -/

theorem missing_mono {count' : Nat} (hle : count ≤ count') :
    missing fs n i count ≤ missing fs n i count' := by
  obtain ⟨k, rfl⟩ := Nat.exists_eq_add_of_le hle
  rw [missing, missing, ← List.range'_append_1, List.countP_append]
  omega

/-- The block of a position that was written is there. -/
theorem Wrote.found {data : List UInt8} {j : Nat} (hw : Wrote h n off data fs fs')
    (hlo : off ≤ j * blockSize) (hhi : j * blockSize < off + data.length) :
    fs'.slot n j ≠ -1 := by
  intro hslot
  have hbyte := hw.written (j * blockSize) hlo hhi
  have hcell : j * blockSize - off < data.length := by omega
  rw [FS.fileByte, Nat.mul_div_cancel j (by decide), FS.blockAt, hslot, dataBlockGet_absent,
    List.getElem?_eq_getElem hcell] at hbyte
  cases hbyte

/-- After a write the file holds the blocks that its size calls for. -/
theorem Wrote.held {data : List UInt8} (hf : FileSim fs n f) (hw : Wrote h n off data fs fs')
    (htouched : ∀ r, fs'.ref n r ≠ fs.ref n r →
      Reaches (off / blockSize) (stopBlock (off + data.length)) r)
    (hle : off ≤ f.bytes.length) (r : Ref) : fs'.ref n r ≠ -1 ↔
      Reaches 0 (stopBlock (max f.bytes.length (off + data.length))) r := by
  have hold : stopBlock f.bytes.length ≤ stopBlock (max f.bytes.length (off + data.length)) := by
    simp only [stopBlock, blockSize]
    omega
  have hkept : Reaches 0 (stopBlock f.bytes.length) r → fs'.ref n r ≠ -1 := by
    intro hr
    have hheld := (hf.held r).mpr hr
    rw [hw.kept r hheld]
    exact hheld
  have hnew : ∀ j, stopBlock f.bytes.length ≤ j →
      j < stopBlock (max f.bytes.length (off + data.length)) → fs'.slot n j ≠ -1 := by
    intro j hlo hhi
    simp only [stopBlock, blockSize] at hlo hhi
    refine hw.found ?_ ?_
    · simp only [blockSize]
      omega
    · simp only [blockSize]
      omega
  constructor
  · intro hr
    by_cases hsame : fs'.ref n r = fs.ref n r
    · rw [hsame] at hr
      exact ((hf.held r).mp hr).mono (le_refl 0) hold
    · refine (htouched r hsame).mono (Nat.zero_le _) ?_
      simp only [stopBlock, blockSize]
      omega
  · rintro (⟨rfl, hstop⟩ | ⟨j, -, hj, hplace⟩)
    · by_cases hlong : maxDirectBlocks < stopBlock f.bytes.length
      · exact hkept (Or.inl ⟨rfl, hlong⟩)
      -- block 10 was written, and its number stands in the indirect block
      · intro habsent
        have hten := hnew maxDirectBlocks (not_lt.mp hlong) hstop
        rcases blockRef_entry (le_refl maxDirectBlocks) (by decide) with ⟨k, -, hplace⟩
        rw [slot_of_ref hplace, ref_entry_absent habsent] at hten
        exact hten rfl
    · by_cases hlong : j < stopBlock f.bytes.length
      · exact hkept (Or.inr ⟨j, Nat.zero_le j, hlong, hplace⟩)
      · have hslot := hnew j (not_lt.mp hlong) hj
        rwa [slot_of_ref hplace] at hslot

/-- There is an i-node for each entry of the directory. -/
theorem exists_inode (hi : i ≤ maxDirEntries) : ∃ n : Fin inodeTableSize, (n : Nat) = i + 1 := by
  have hlt : i + 1 < inodeTableSize := by
    simp only [maxDirEntries, blockSize, Part2.dirEntrySize, maxFileName, inodeTableSize] at hi ⊢
    omega
  exact ⟨⟨i + 1, hlt⟩, rfl⟩

namespace Sim

variable (hsim : Sim a fs)

include hsim

theorem freeList_eq : freeList fs = (List.finRange dataBlocks).drop a.blocks :=
  freeList_eq_drop hsim.marks

/-- A new indirect block comes right behind the blocks in use and the direct blocks that are taken
before it. -/
theorem newTable_eq {t : Fin dataBlocks} (ht : newTable fs n i stop = some t) :
    NeedsTable fs n stop ∧ (t : Nat) = a.blocks + missing fs n i (maxDirectBlocks - i) := by
  rw [newTable] at ht
  split at ht
  · next hneeds =>
      rw [hsim.freeList_eq, List.getElem?_drop, List.getElem?_eq_some_iff] at ht
      rcases ht with ⟨hlt, rfl⟩
      exact ⟨hneeds, by rw [List.getElem_finRange]; rfl⟩
  · cases ht

/-- No new indirect block does harm while at most 1020 blocks are in use. -/
theorem harmless (hblocks : a.blocks + lacks fs n i stop ≤ maxBlocks) :
    HarmlessTable fs n i stop := by
  refine HarmlessTable.of_free hsim.consistent fun t ht => ?_
  rcases hsim.newTable_eq ht with ⟨hneeds, heq⟩
  have hmiss : missing fs n i (maxDirectBlocks - i) ≤ missing fs n i (stop - i) :=
    missing_mono (Nat.sub_le_sub_right hneeds.2.le i)
  rw [lacks, if_pos hneeds] at hblocks
  simp only [maxBlocks] at hblocks
  constructor
  · simp only [dataBlocks]
    omega
  · intro c hc
    rw [hsim.marks]
    have hlt : (t : Nat) < c := hc
    omega

/-- An open handle is taken and refers to the i-node of its file. -/
theorem opened {fhandle : Int} {o : OpenHandle} (hcount : a.files.length ≤ maxDirEntries)
    (ho : a.opened fhandle = some o) : ∃ n : Fin inodeTableSize, (n : Nat) = o.number + 1 ∧
      fs.freeOpenFileEntries o.handle = .taken ∧
      fs.openFileTable o.handle = ⟨((n : Nat) : Int), o.offset⟩ ∧ FileSim fs n o.file := by
  rcases Store.opened_eq_some.mp ho with ⟨-, he, hfile⟩
  rcases exists_inode ((List.getElem?_eq_some_iff.mp hfile).1.le.trans hcount) with ⟨n, hn⟩
  rcases hsim.handles o.handle with ⟨hnone, -⟩ | ⟨e, he', htaken, hentry⟩
  · rw [he] at hnone
    cases hnone
  · rw [he] at he'
    cases he'
    exact ⟨n, hn, htaken, by rw [hentry, hn], hsim.files _ _ _ hn hfile⟩

/-- Bytes are stored in file `i` through handle `h`. -/
theorem wrote {data : List UInt8} (hn : (n : Nat) = i + 1) (hfile : a.files[i]? = some f)
    (hlimit : f.bytes.length ≤ maxFileSize) (hle : off ≤ f.bytes.length) (hdata : data ≠ [])
    (hrefers : (fs.openFileTable h).ofInumber = ((n : Nat) : Int))
    (htaken : fs.freeOpenFileEntries h = .taken) (hw : Wrote h n off data fs fs')
    (hspill : ∀ b, Spilled fs fs' n b → ¬ InUse fs b) (hc' : Consistent fs')
    (htouched : ∀ r, fs'.ref n r ≠ fs.ref n r →
      Reaches (off / blockSize) (stopBlock (off + data.length)) r)
    (hmarks : ∀ b, fs'.freeBlocks b = .free ↔
      (a.setBytes i (Memory.overwrite f.bytes off data)).blocks ≤ (b : Nat)) :
    Sim ((a.setBytes i (Memory.overwrite f.bytes off data)).setHandle h
      (some ⟨i, off + data.length⟩)) fs' := by
  have hc := hsim.consistent
  have hf := hsim.files i f n hn hfile
  have hbytes : ∀ x < blockSize, fs'.fsData x = fs.fsData x :=
    fun x => hw.root_bytes hc hf.isFile hspill
  refine ⟨hc', ?_, ?_, ?_, ?_, hmarks, ?_⟩
  · intro m
    rw [hw.rest.states]
    exact (hsim.inodes m).trans (by rw [← Store.length_setBytes]; rfl)
  · intro j g m hm hg
    have hg' := Store.getElem?_setBytes.symm.trans hg
    split at hg'
    · next hij =>
        subst hij
        rw [hfile] at hg'
        cases hg'
        have hmn : m = n := Fin.ext (hm.trans hn.symm)
        subst hmn
        refine ⟨hw.rest.isFile.mpr hf.isFile, ?_, ?_⟩
        · rw [hw.contents (hc.layout.file hf.isFile) (hf.mapped hlimit)
            (by rw [hf.size]; exact hle) hdata, hf.contents, Memory.map_overwrite]
        · intro r
          rw [Memory.length_overwrite hle]
          exact hw.held hf htouched hle r
    · next hij =>
        have hmn : m ≠ n := by
          rintro rfl
          omega
        have hg'' := hsim.files j g m hm hg'
        exact hg''.congr (hw.rest.isFile.mpr hg''.isFile) (by rw [hw.rest.others m hmn])
          (hw.ref_other hc hf.isFile hspill hg''.isFile hmn)
          fun b hb => hw.same_other hc hf.isFile hspill hg''.isFile hmn hb
  · intro j
    rw [(entry_congr hbytes j).1, hsim.numbers]
    exact if_congr (by rw [← Store.length_setBytes]; rfl) rfl rfl
  · intro j g hg
    have hg' := Store.getElem?_setBytes.symm.trans hg
    rw [(entry_congr hbytes j).2]
    split at hg'
    · next hij =>
        rw [← hij, hfile] at hg'
        cases hg'
        exact hsim.names j f (hij ▸ hfile)
    · exact hsim.names j g hg'
  · intro k
    by_cases hk : k = h
    · subst hk
      refine Or.inr ⟨_, Store.setHandle_self, by rw [hw.rest.handles, htaken], ?_⟩
      rw [hw.handle, Function.update_self, hrefers, hn]
    · rw [HandleSim, Store.setHandle_of_ne hk, hw.rest.handles, hw.handle,
        Function.update_of_ne hk]
      exact hsim.handles k

end Sim

end TecnicoFS.Part1
