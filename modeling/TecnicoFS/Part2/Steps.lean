import TecnicoFS.Part2.Invariant

/-!
# Part 2: what each operation does

One inversion theorem per operation: under the invariant, a call that returns
did one of the listed things. Everything later about runs cites these theorems
and the effects of `Invariant.lean`, and never unfolds the code again.
-/

namespace TecnicoFS.Part2

variable {k : Nat} {fs fs' : FS} {name : CString} {flags : BitVec 32} {r : Int}

/-! ## Lookup -/

/-- File `n` is the one a valid path names: the first entry with that name. -/
def Names (fs : FS) (name : CString) (n : Fin inodeTableSize) : Prop :=
  validPathname name = true ∧
    entryName fs.fsData (n - 1) = name.tail.bytes.take maxFileName ∧
    ∀ i < (n : Nat) - 1, entryName fs.fsData i ≠ name.tail.bytes.take maxFileName

/-- No file has the name of the path. -/
def Unnamed (k : Nat) (fs : FS) (name : CString) : Prop :=
  validPathname name = true →
    ∀ i < k, entryName fs.fsData i ≠ name.tail.bytes.take maxFileName

theorem entryMatches_iff (hinv : Inv k fs) {i : Nat} (hi : i < maxDirEntries) :
    EntryMatches fs.fsData name i ↔
      i < k ∧ entryName fs.fsData i = name.bytes.take maxFileName := by
  unfold EntryMatches
  rw [hinv.entries i hi]
  by_cases hik : i < k
  · rw [if_pos hik]
    constructor
    · exact fun h => ⟨hik, h.2⟩
    · exact fun h => ⟨by omega, h.2⟩
  · rw [if_neg hik]
    constructor
    · exact fun h => absurd rfl h.1
    · exact fun h => absurd h.1 hik

/-- A lookup returns the file the path names. -/
theorem tfsLookup_of_names (hinv : Inv k fs) {n : Fin inodeTableSize} (hn : IsFile k n)
    (h : Names fs name n) : tfsLookup fs name = (n : Nat) := by
  obtain ⟨hvalid, hname, hfirst⟩ := h
  have hpos := hn.1
  have hle := hn.2
  have hlt : (n : Nat) - 1 < maxDirEntries := by
    have := hinv.files_le
    omega
  have hfit : (firstFit fun i : Fin maxDirEntries => EntryMatches fs.fsData name.tail i) =
      some ⟨n - 1, hlt⟩ := by
    rw [firstFit_eq_some]
    constructor
    · exact (entryMatches_iff hinv hlt).mpr ⟨by omega, hname⟩
    · intro j hj hm
      have hj' : (j : Nat) < n - 1 := hj
      exact hfirst j hj' ((entryMatches_iff hinv j.isLt).mp hm).2
  rw [tfsLookup, if_pos hvalid, findInDir_root hinv.root, hfit]
  simp only [hinv.entries _ hlt]
  rw [if_pos (by omega)]
  omega

/-- A lookup of a path that names no file fails. -/
theorem tfsLookup_of_unnamed (hinv : Inv k fs) (h : Unnamed k fs name) :
    tfsLookup fs name = -1 := by
  unfold tfsLookup
  by_cases hvalid : validPathname name = true
  · have hnone : (firstFit fun i : Fin maxDirEntries => EntryMatches fs.fsData name.tail i) =
        none := by
      rw [firstFit_eq_none]
      intro i hm
      obtain ⟨hik, hname⟩ := (entryMatches_iff hinv i.isLt).mp hm
      exact h hvalid i hik hname
    rw [if_pos hvalid, findInDir_root hinv.root, hnone]
  · rw [if_neg hvalid]

/-- Every path names a file or none. -/
theorem names_or_unnamed (hinv : Inv k fs) (name : CString) :
    (∃ n, IsFile k n ∧ Names fs name n) ∨ Unnamed k fs name := by
  by_cases hvalid : validPathname name = true
  · by_cases hex : ∃ i < k, entryName fs.fsData i = name.tail.bytes.take maxFileName
    · left
      have hfirst := Nat.find_spec hex
      have hlt : Nat.find hex + 1 < inodeTableSize := by
        have := hinv.files_lt
        omega
      refine ⟨inodeNo _ hlt, ⟨Nat.succ_pos _, hfirst.1⟩, hvalid, hfirst.2, ?_⟩
      intro i hi hname
      have hi' : i < Nat.find hex := hi
      exact Nat.find_min hex hi' ⟨hi'.trans hfirst.1, hname⟩
    · right
      intro _ i hi hname
      exact hex ⟨i, hi, hname⟩
  · right
    exact fun h => absurd h hvalid

/-- A lookup that succeeds returns a file, and the path names it. -/
theorem tfsLookup_nonneg (hinv : Inv k fs) (h : 0 ≤ tfsLookup fs name) :
    ∃ n, IsFile k n ∧ Names fs name n ∧ tfsLookup fs name = (n : Nat) := by
  rcases names_or_unnamed hinv name with ⟨n, hn, hname⟩ | hun
  · exact ⟨n, hn, hname, tfsLookup_of_names hinv hn hname⟩
  · rw [tfsLookup_of_unnamed hinv hun] at h
    exact absurd h (by decide)

/-! ## Handles -/

/-- Opening takes the lowest free handle, or fails when all are taken. -/
theorem addToOpenFileTable_cases {inumber : Int} {offset : Nat}
    (h : addToOpenFileTable fs inumber offset = (r, fs')) :
    (r = -1 ∧ fs' = fs ∧ ∀ j, fs.freeOpenFileEntries j = .taken) ∨
      ∃ j : Fin maxOpenFiles, r = (j : Nat) ∧ fs' = newHandle fs j inumber offset ∧
        (firstFit fun i => fs.freeOpenFileEntries i = .free) = some j := by
  unfold addToOpenFileTable at h
  cases hfit : firstFit fun i => fs.freeOpenFileEntries i = .free with
  | none =>
      rw [hfit] at h
      obtain ⟨rfl, rfl⟩ := Prod.mk.inj h
      exact Or.inl ⟨rfl, rfl, fun j => not_free_iff.mp (firstFit_eq_none.mp hfit j)⟩
  | some j =>
      rw [hfit] at h
      obtain ⟨rfl, rfl⟩ := Prod.mk.inj h
      exact Or.inr ⟨j, rfl, rfl, rfl⟩

/-- Closing succeeds exactly on the handles marked TAKEN. -/
theorem tfsClose_cases (fs : FS) (fhandle : Int) :
    (∃ j, getOpenFileEntry fhandle = some j ∧ fs.freeOpenFileEntries j = .taken ∧
        tfsClose fs fhandle = (0, dropHandle fs j)) ∨
      (¬ IsOpen fs fhandle ∧ tfsClose fs fhandle = (-1, fs)) := by
  unfold tfsClose removeFromOpenFileTable IsOpen getOpenFileEntry
  cases hidx : index? maxOpenFiles fhandle with
  | none => exact Or.inr ⟨by simp, rfl⟩
  | some j =>
      by_cases ht : fs.freeOpenFileEntries j = .taken
      · exact Or.inl ⟨j, rfl, ht, if_neg (not_not.mpr ht)⟩
      · refine Or.inr ⟨?_, if_pos ht⟩
        rintro ⟨i, hi, hti⟩
        rw [Option.some.inj hi] at ht
        exact ht hti

/-! ## Open -/

/-- What the truncation step did. -/
inductive Truncation (fs : FS) (n : Fin inodeTableSize) (flags : BitVec 32) : FS → Prop
  | kept : (hasFlag flags tfsOTrunc = false ∨ (fs.inodeTable n).iSize = 0) →
      Truncation fs n flags fs
  | dropped {b : Fin dataBlocks} : hasFlag flags tfsOTrunc = true → ownBlock fs n = some b →
      Truncation fs n flags (dropBlock fs n b)

theorem truncateOpened_spec (hinv : Inv k fs) {n : Fin inodeTableSize} (hn : IsFile k n)
    (flags : BitVec 32) : ∃ fs1, truncateOpened fs n flags = some fs1 ∧
      Truncation fs n flags fs1 := by
  unfold truncateOpened
  by_cases hc : hasFlag flags tfsOTrunc ∧ 0 < (fs.inodeTable n).iSize
  · obtain ⟨b, hb⟩ := hinv.blocks n (hinv.taken_of_isFile hn) hc.2
    have hblock : index? dataBlocks (fs.inodeTable n).iDataBlock = some b :=
      index?_eq_some.mpr (ownBlock_eq_some.mp hb).2.2
    refine ⟨dropBlock fs n b, ?_, .dropped hc.1 hb⟩
    rw [if_pos hc, dataBlockFree, hblock]
    rfl
  · refine ⟨fs, if_neg hc, .kept ?_⟩
    by_cases ht : hasFlag flags tfsOTrunc = true
    · right
      have : ¬ 0 < (fs.inodeTable n).iSize := fun hs => hc ⟨ht, hs⟩
      omega
    · left
      simpa using ht

/-- The initial offset of a handle. -/
def openOffset (fs : FS) (n : Fin inodeTableSize) (flags : BitVec 32) : Nat :=
  if hasFlag flags tfsOAppend then (fs.inodeTable n).iSize else 0

/-- What `tfs_open` did. -/
inductive OpenStep (k : Nat) (fs : FS) (name : CString) (flags : BitVec 32) : Int → FS → Prop
  /-- The path names no file and is not to be created. -/
  | absent : Unnamed k fs name → hasFlag flags tfsOCreat = false → OpenStep k fs name flags (-1) fs
  /-- The path names file `n`. -/
  | found {n : Fin inodeTableSize} {fs1 fs' : FS} {r : Int} : IsFile k n → Names fs name n →
      Truncation fs n flags fs1 →
      addToOpenFileTable fs1 (n : Nat) (openOffset fs1 n flags) = (r, fs') →
      OpenStep k fs name flags r fs'
  /-- The creation was rolled back: the directory is full, or the name empty. -/
  | scrapped {n : Fin inodeTableSize} : Unnamed k fs name → hasFlag flags tfsOCreat = true →
      (n : Nat) = k + 1 → k = maxDirEntries ∨ name.tail.bytes = [] →
      OpenStep k fs name flags (-1) (scrapInode fs n)
  /-- The file was created as number `k + 1`. -/
  | created {n : Fin inodeTableSize} {fs' : FS} {r : Int} : Unnamed k fs name →
      hasFlag flags tfsOCreat = true → (n : Nat) = k + 1 → k < maxDirEntries →
      name.tail.bytes ≠ [] →
      addToOpenFileTable (newFile fs n k name.tail) (n : Nat) 0 = (r, fs') →
      OpenStep k fs name flags r fs'

/-- The state between the two halves of a creation: the i-node is taken, the
directory does not name it yet. -/
def newInode (fs : FS) (n : Fin inodeTableSize) : FS :=
  { fs with
    freeinodeTs := Function.update fs.freeinodeTs n .taken
    inodeTable := Function.update fs.inodeTable n ⟨.tFile, 0, -1⟩ }

theorem inodeCreate_file (hinv : Inv k fs) {n : Fin inodeTableSize} (hn : (n : Nat) = k + 1) :
    inodeCreate fs .tFile = (((n : Nat) : Int), newInode fs n) := by
  have hfit : (firstFit fun n => fs.freeinodeTs n = .free) = some n := by
    rw [hinv.firstFit_inode]
    exact congrArg some (Fin.ext hn.symm)
  unfold inodeCreate newInode
  rw [hfit]
  simp only [Function.update_idem]

/-- Rolling a creation back leaves only the contents of the free i-node. -/
theorem inodeDelete_new {n : Fin inodeTableSize} (hfree : fs.freeinodeTs n = .free) :
    inodeDelete (newInode fs n) (n : Nat) = (0, scrapInode fs n) := by
  have hback : Function.update fs.freeinodeTs n .free = fs.freeinodeTs := by
    rw [← hfree, Function.update_eq_self]
  unfold inodeDelete
  rw [index?_natCast]
  simp [newInode, scrapInode, hback]

/-- The creation branch of `_tfs_open_unsynchronized`. -/
theorem tfsOpen_create (hinv : Inv k fs) (hun : Unnamed k fs name)
    (hc : hasFlag flags tfsOCreat = true) (hne : name.bytes ≠ []) :
    ∃ r fs', tfsOpen fs name flags = some (r, fs') ∧ OpenStep k fs name flags r fs' := by
  obtain ⟨n, hn⟩ : ∃ n : Fin inodeTableSize, (n : Nat) = k + 1 :=
    ⟨inodeNo (k + 1) hinv.files_lt, rfl⟩
  have hneg : ¬ (0 : Int) ≤ -1 := by decide
  have hnum : ¬ ((n : Nat) : Int) = -1 := by omega
  have hfree : fs.freeinodeTs n = .free := by
    by_contra hc
    have := (hinv.inodes n).mp (not_free_iff.mp hc)
    omega
  have hflag : ¬ fs.openFlag = 0 := by
    rw [hinv.flag]
    decide
  have hroot : (newInode fs n).inodeTable 0 = rootInode := by
    rw [← hinv.root]
    exact Function.update_of_ne (root_ne_of_pos (by omega)) _ _
  unfold tfsOpen tfsOpenUnsynchronized
  rw [if_neg hflag, tfsLookup_of_unnamed hinv hun, if_neg hneg, if_pos hc,
    inodeCreate_file hinv hn]
  simp only [if_neg hnum, if_neg hne]
  -- where the entry cannot be added, the i-node is given back
  have hscrap : k = maxDirEntries ∨ name.tail.bytes = [] →
      ∃ r fs', some ((-1 : Int), (inodeDelete (newInode fs n) (n : Nat)).2) = some (r, fs') ∧
        OpenStep k fs name flags r fs' := by
    intro hwhy
    refine ⟨-1, scrapInode fs n, ?_, .scrapped hun hc hn hwhy⟩
    rw [inodeDelete_new hfree]
  by_cases hempty : name.tail.bytes = []
  · have hadd : addDirEntry (newInode fs n) rootDirInum (n : Nat) name.tail =
        (-1, newInode fs n) := by
      have hlen : name.tail.strlen = 0 := by simp [CString.strlen, hempty]
      unfold addDirEntry
      rw [index?_natCast,
        show index? inodeTableSize rootDirInum = some 0 from index?_eq_some.mpr rfl]
      simp only [hlen, ↓reduceIte, ite_self]
    rw [hadd]
    simp only [↓reduceIte]
    exact hscrap (Or.inr hempty)
  · rcases Nat.lt_or_ge k maxDirEntries with hk | hk
    · have hadd : addDirEntry (newInode fs n) rootDirInum (n : Nat) name.tail =
          (0, newFile fs n k name.tail) := by
        rw [addDirEntry_root hroot hempty]
        have hfit : (firstFit fun i : Fin maxDirEntries =>
            dInumber (newInode fs n).fsData (rootEntry i) = -1) = some ⟨k, hk⟩ :=
          hinv.firstFit_entry hk
        rw [hfit]
        rfl
      rw [hadd]
      simp only [show ¬ (0 : Int) = -1 by decide, ↓reduceIte]
      exact ⟨_, _, rfl, .created hun hc hn hk hempty rfl⟩
    · have hfull : k = maxDirEntries := Nat.le_antisymm hinv.files_le hk
      have hadd : addDirEntry (newInode fs n) rootDirInum (n : Nat) name.tail =
          (-1, newInode fs n) := by
        rw [addDirEntry_root hroot hempty]
        have hfit : (firstFit fun i : Fin maxDirEntries =>
            dInumber (newInode fs n).fsData (rootEntry i) = -1) = none :=
          hinv.firstFit_entry_full hfull
        rw [hfit]
      rw [hadd]
      simp only [↓reduceIte]
      exact hscrap (Or.inl hfull)

/-- A `tfs_open` of a path that is not empty returns, and did one of the
things listed. -/
theorem tfsOpen_returns (hinv : Inv k fs) (name : CString) (flags : BitVec 32)
    (hne : name.bytes ≠ []) :
    ∃ r fs', tfsOpen fs name flags = some (r, fs') ∧ OpenStep k fs name flags r fs' := by
  have hflag : ¬ fs.openFlag = 0 := by
    rw [hinv.flag]
    decide
  rcases names_or_unnamed hinv name with ⟨n, hn, hname⟩ | hun
  · obtain ⟨fs1, htrunc, hstep⟩ := truncateOpened_spec hinv hn flags
    refine ⟨_, _, ?_, .found hn hname hstep rfl⟩
    unfold tfsOpen tfsOpenUnsynchronized
    rw [if_neg hflag, tfsLookup_of_names hinv hn hname, if_pos (Int.natCast_nonneg _), inodeGet,
      index?_natCast]
    simp only [htrunc]
    rfl
  · by_cases hc : hasFlag flags tfsOCreat = true
    · exact tfsOpen_create hinv hun hc hne
    · refine ⟨-1, fs, ?_, .absent hun (by simpa using hc)⟩
      unfold tfsOpen tfsOpenUnsynchronized
      rw [if_neg hflag, tfsLookup_of_unnamed hinv hun, if_neg (by decide), if_neg hc]

/-- A `tfs_open` that returns did one of the things listed, for any path. -/
theorem tfsOpen_cases (hinv : Inv k fs) (h : tfsOpen fs name flags = some (r, fs')) :
    OpenStep k fs name flags r fs' := by
  by_cases hempty : name.bytes = []
  · -- the empty path is not valid, and creating it reads outside the string
    have hflag : ¬ fs.openFlag = 0 := by
      rw [hinv.flag]
      decide
    have hvalid : ¬ validPathname name = true := by simp [validPathname, hempty]
    have hun : Unnamed k fs name := fun hv => absurd hv hvalid
    rw [tfsOpen, if_neg hflag, tfsOpenUnsynchronized, tfsLookup_of_unnamed hinv hun,
      if_neg (by decide)] at h
    by_cases hc : hasFlag flags tfsOCreat = true
    · have hnum : ¬ ((inodeNo (k + 1) hinv.files_lt : Nat) : Int) = -1 := by omega
      rw [if_pos hc, inodeCreate_file hinv (n := inodeNo (k + 1) hinv.files_lt) rfl] at h
      simp only [hnum, if_pos hempty, ↓reduceIte, reduceCtorEq] at h
    · rw [if_neg hc] at h
      rcases Prod.mk.inj (Option.some.inj h) with ⟨rfl, rfl⟩
      exact .absent hun (by simpa using hc)
  · rcases tfsOpen_returns hinv name flags hempty with ⟨r', fs'', hopen, hstep⟩
    rw [hopen] at h
    rcases Prod.mk.inj (Option.some.inj h) with ⟨rfl, rfl⟩
    exact hstep

/-! ## Write -/

/-- The handle was handed out at some time: its entry is not the zeroed one. -/
def Issued (fs : FS) (fhandle : Int) : Prop :=
  ∀ h, getOpenFileEntry fhandle = some h → (fs.openFileTable h).ofInumber ≠ 0

/-- An issued handle refers to a file. -/
theorem Issued.fileEntry {fhandle : Int} (hinv : Inv k fs) (hiss : Issued fs fhandle)
    {h : Fin maxOpenFiles} (hh : getOpenFileEntry fhandle = some h) :
    FileEntry k (fs.openFileTable h) := by
  rcases hinv.handles h with hc | hf
  · exact absurd (by rw [hc.1]) (hiss h hh)
  · exact hf

/-- Clipping leaves a write inside the block, or the sum wrapped around and the
length is untouched. -/
theorem clipWrite_le {len off : Nat} (hoff : off ≤ blockSize) : clipWrite len off ≤ len := by
  unfold clipWrite
  split
  · rename_i hlt
    rw [wordSub_of_le hoff (by decide)]
    have hle : wordAdd len off ≤ len + off := Nat.mod_le _ _
    simp only [blockSize] at *
    omega
  · exact Nat.le_refl _

theorem clipWrite_of_lt {len off : Nat} (hoff : off ≤ blockSize) (hlen : len + off < wordSize) :
    clipWrite len off = min len (blockSize - off) := by
  unfold clipWrite
  rw [wordAdd_of_lt hlen]
  split
  · rw [wordSub_of_le hoff (by decide)]
    simp only [blockSize] at *
    omega
  · simp only [blockSize] at *
    omega

/-- What `tfs_write` did. -/
inductive WriteStep (k : Nat) (fs : FS) (fhandle : Int) (buffer : List UInt8) :
    Int → FS → Prop
  | badHandle : getOpenFileEntry fhandle = none → WriteStep k fs fhandle buffer (-1) fs
  | nothing {h : Fin maxOpenFiles} : getOpenFileEntry fhandle = some h →
      clipWrite buffer.length (fs.openFileTable h).ofOffset = 0 →
      WriteStep k fs fhandle buffer 0 fs
  | wrote {h : Fin maxOpenFiles} {n : Fin inodeTableSize} {b : Fin dataBlocks}
      {data : List UInt8} : getOpenFileEntry fhandle = some h → IsFile k n →
      (fs.openFileTable h).ofInumber = (n : Nat) →
      data = buffer.take (clipWrite buffer.length (fs.openFileTable h).ofOffset) →
      data.length = clipWrite buffer.length (fs.openFileTable h).ofOffset →
      0 < data.length → (fs.openFileTable h).ofOffset + data.length ≤ blockSize →
      WriteTarget fs n b →
      WriteStep k fs fhandle buffer data.length (writeAt fs h n b data)

/-- The allocation step gives the file a block to write to. -/
theorem allocIfEmpty_spec (hinv : Inv k fs) {n : Fin inodeTableSize} (hn : IsFile k n) :
    ∃ b, WriteTarget fs n b ∧ allocIfEmpty fs n =
      { fs with
        freeBlocks := Function.update fs.freeBlocks b .taken
        inodeTable := Function.update fs.inodeTable n
          { fs.inodeTable n with iDataBlock := (b : Nat) } } := by
  unfold allocIfEmpty
  by_cases hempty : (fs.inodeTable n).iSize = 0
  · -- there is a free block, so the allocator finds one
    rw [if_pos hempty]
    obtain ⟨c, hc⟩ := hinv.exists_free_block
    cases hfit : firstFit fun i => fs.freeBlocks i = .free with
    | none => exact absurd hc (firstFit_eq_none.mp hfit c)
    | some b =>
        have halloc : dataBlockAlloc fs =
            (((b : Nat) : Int),
              { fs with freeBlocks := Function.update fs.freeBlocks b .taken }) := by
          unfold dataBlockAlloc
          rw [hfit]
        exact ⟨b, Or.inr ⟨hempty, hfit⟩, by rw [halloc]⟩
  · rw [if_neg hempty]
    obtain ⟨b, hb⟩ := hinv.blocks n (hinv.taken_of_isFile hn) (Nat.pos_of_ne_zero hempty)
    have htaken : fs.freeBlocks b = .taken := hinv.exclusive.taken_of_own hb
    have hblock : (fs.inodeTable n).iDataBlock = (b : Nat) := (ownBlock_eq_some.mp hb).2.2
    refine ⟨b, Or.inl hb, ?_⟩
    rw [← hblock, ← htaken, Function.update_eq_self, Function.update_eq_self]

/-- A `tfs_write` on an issued handle that returns did one of the things
listed; in particular it never runs out of blocks. -/
theorem tfsWrite_cases {fhandle : Int} {buffer : List UInt8} (hinv : Inv k fs)
    (hiss : Issued fs fhandle) (h : tfsWrite fs fhandle buffer = some (r, fs')) :
    WriteStep k fs fhandle buffer r fs' := by
  unfold tfsWrite at h
  cases hh : getOpenFileEntry fhandle with
  | none =>
      rw [hh] at h
      obtain ⟨rfl, rfl⟩ := Prod.mk.inj (Option.some.inj h)
      exact .badHandle hh
  | some j =>
      obtain ⟨n, hn, hnum, -⟩ := hiss.fileEntry hinv hh
      rw [hh] at h
      simp only [hnum, inodeGet, index?_natCast] at h
      by_cases hzero : clipWrite buffer.length (fs.openFileTable j).ofOffset = 0
      · rw [if_pos hzero, hzero] at h
        obtain ⟨rfl, rfl⟩ := Prod.mk.inj (Option.some.inj h)
        exact .nothing hh hzero
      · obtain ⟨b, hw, halloc⟩ := allocIfEmpty_spec hinv hn
        rw [if_neg hzero, halloc] at h
        simp only [Function.update_self, dataBlockGet, index?_natCast] at h
        by_cases hfit : blockSize <
            (fs.openFileTable j).ofOffset + clipWrite buffer.length (fs.openFileTable j).ofOffset
        · rw [if_pos hfit] at h
          cases h
        -- inside the block nothing wraps around
        · rw [if_neg hfit] at h
          have hfit' := Nat.le_of_not_lt hfit
          have hlen : (buffer.take (clipWrite buffer.length (fs.openFileTable j).ofOffset)).length =
              clipWrite buffer.length (fs.openFileTable j).ofOffset := by
            rw [List.length_take]
            exact Nat.min_eq_left (clipWrite_le (Nat.le_of_add_right_le hfit'))
          have hadd : wordAdd (fs.openFileTable j).ofOffset
              (clipWrite buffer.length (fs.openFileTable j).ofOffset) =
              (fs.openFileTable j).ofOffset +
                clipWrite buffer.length (fs.openFileTable j).ofOffset :=
            wordAdd_of_lt (lt_of_le_of_lt hfit' (by decide))
          have hret : wordToInt (clipWrite buffer.length (fs.openFileTable j).ofOffset) =
              clipWrite buffer.length (fs.openFileTable j).ofOffset := by
            apply wordToInt_of_lt
            simp only [blockSize, wordSize] at *
            omega
          obtain ⟨rfl, rfl⟩ := Prod.mk.inj (Option.some.inj h)
          have hstep := WriteStep.wrote (k := k) hh hn hnum rfl hlen (by omega) (by omega) hw
          rw [writeAt, hlen] at hstep
          rw [hret, hadd]
          simpa only [Function.update_idem, hnum] using hstep

/-- A `tfs_write` that crashes copies past the end of the block. -/
theorem tfsWrite_crash {fhandle : Int} {buffer : List UInt8}
    (h : tfsWrite fs fhandle buffer = none) :
    ∃ j, getOpenFileEntry fhandle = some j ∧ blockSize <
      (fs.openFileTable j).ofOffset + clipWrite buffer.length (fs.openFileTable j).ofOffset := by
  unfold tfsWrite at h
  split at h
  · cases h
  · rename_i j hj
    refine ⟨j, hj, ?_⟩
    split at h
    · cases h
    · simp only at h
      split at h
      · cases h
      · split at h
        · cases h
        · split at h
          · assumption
          · cases h

/-! ## Read -/

/-- What `tfs_read` did. -/
inductive ReadStep (k : Nat) (fs : FS) (fhandle : Int) (len : Nat) :
    Int → List UInt8 → FS → Prop
  | badHandle : getOpenFileEntry fhandle = none → ReadStep k fs fhandle len (-1) [] fs
  | nothing {h : Fin maxOpenFiles} {n : Fin inodeTableSize} :
      getOpenFileEntry fhandle = some h → IsFile k n →
      (fs.openFileTable h).ofInumber = (n : Nat) →
      clipRead (fs.inodeTable n).iSize (fs.openFileTable h).ofOffset len = 0 →
      ReadStep k fs fhandle len 0 [] fs
  | noBlock {h : Fin maxOpenFiles} {n : Fin inodeTableSize} :
      getOpenFileEntry fhandle = some h → IsFile k n →
      (fs.openFileTable h).ofInumber = (n : Nat) →
      0 < clipRead (fs.inodeTable n).iSize (fs.openFileTable h).ofOffset len →
      dataBlockGet (fs.inodeTable n).iDataBlock = none →
      ReadStep k fs fhandle len (-1) [] fs
  | got {h : Fin maxOpenFiles} {n : Fin inodeTableSize} {b : Fin dataBlocks} {count : Nat} :
      getOpenFileEntry fhandle = some h → IsFile k n →
      (fs.openFileTable h).ofInumber = (n : Nat) →
      count = clipRead (fs.inodeTable n).iSize (fs.openFileTable h).ofOffset len →
      0 < count → (fs.inodeTable n).iDataBlock = (b : Nat) →
      blockAddr b + (fs.openFileTable h).ofOffset + count ≤ fsDataSize →
      ReadStep k fs fhandle len count
        (Memory.load fs.fsData (blockAddr b + (fs.openFileTable h).ofOffset) count)
        (moveHandle fs h ((fs.openFileTable h).ofOffset + count))

/-- A `tfs_read` on an issued handle that returns did one of the things listed. -/
theorem tfsRead_cases {fhandle : Int} {len : Nat} {bytes : List UInt8} (hinv : Inv k fs)
    (hiss : Issued fs fhandle) (h : tfsRead fs fhandle len = some ((r, bytes), fs')) :
    ReadStep k fs fhandle len r bytes fs' := by
  unfold tfsRead at h
  cases hh : getOpenFileEntry fhandle with
  | none =>
      rw [hh] at h
      obtain ⟨h1, rfl⟩ := Prod.mk.inj (Option.some.inj h)
      obtain ⟨rfl, rfl⟩ := Prod.mk.inj h1
      exact .badHandle hh
  | some j =>
      obtain ⟨n, hn, hnum, -⟩ := hiss.fileEntry hinv hh
      rw [hh] at h
      simp only [hnum, inodeGet, index?_natCast] at h
      by_cases hzero : clipRead (fs.inodeTable n).iSize (fs.openFileTable j).ofOffset len = 0
      · rw [if_pos hzero, hzero] at h
        obtain ⟨h1, rfl⟩ := Prod.mk.inj (Option.some.inj h)
        obtain ⟨rfl, rfl⟩ := Prod.mk.inj h1
        exact .nothing hh hn hnum hzero
      · rw [if_neg hzero] at h
        cases hblock : dataBlockGet (fs.inodeTable n).iDataBlock with
        | none =>
            rw [hblock] at h
            obtain ⟨h1, rfl⟩ := Prod.mk.inj (Option.some.inj h)
            obtain ⟨rfl, rfl⟩ := Prod.mk.inj h1
            exact .noBlock hh hn hnum (Nat.pos_of_ne_zero hzero) hblock
        | some b =>
            rw [hblock] at h
            by_cases hfit : fsDataSize < blockAddr b + (fs.openFileTable j).ofOffset +
                clipRead (fs.inodeTable n).iSize (fs.openFileTable j).ofOffset len
            · simp only [if_pos hfit] at h
              cases h
            -- as in a write, nothing wraps around inside `fs_data`
            · simp only [if_neg hfit] at h
              have hfit' := Nat.le_of_not_lt hfit
              have hadd : wordAdd (fs.openFileTable j).ofOffset
                  (clipRead (fs.inodeTable n).iSize (fs.openFileTable j).ofOffset len) =
                  (fs.openFileTable j).ofOffset +
                    clipRead (fs.inodeTable n).iSize (fs.openFileTable j).ofOffset len :=
                wordAdd_of_lt (lt_of_le_of_lt
                  (show _ ≤ fsDataSize by omega) (by decide))
              have hret :
                  wordToInt (clipRead (fs.inodeTable n).iSize (fs.openFileTable j).ofOffset len) =
                  clipRead (fs.inodeTable n).iSize (fs.openFileTable j).ofOffset len := by
                apply wordToInt_of_lt
                simp only [fsDataSize, blockSize, dataBlocks, wordSize] at *
                omega
              obtain ⟨h1, rfl⟩ := Prod.mk.inj (Option.some.inj h)
              obtain ⟨rfl, rfl⟩ := Prod.mk.inj h1
              have hstep := ReadStep.got (k := k) hh hn hnum rfl (Nat.pos_of_ne_zero hzero)
                (index?_eq_some.mp hblock) hfit'
              rw [hret, hadd]
              simpa only [moveHandle, hnum] using hstep

/-- A `tfs_read` that crashes copies past the end of `fs_data`. -/
theorem tfsRead_crash {fhandle : Int} {len : Nat} (h : tfsRead fs fhandle len = none) :
    ∃ j n b, getOpenFileEntry fhandle = some j ∧
      (fs.openFileTable j).ofInumber = ((n : Fin inodeTableSize) : Nat) ∧
      fsDataSize < blockAddr b + (fs.openFileTable j).ofOffset +
        clipRead (fs.inodeTable n).iSize (fs.openFileTable j).ofOffset len := by
  unfold tfsRead at h
  split at h
  · cases h
  · rename_i j hj
    split at h
    · cases h
    · rename_i n hn
      simp only at h
      split at h
      · cases h
      · split at h
        · cases h
        · split at h
          · exact ⟨j, n, _, hj, index?_eq_some.mp hn, ‹_›⟩
          · cases h

/-- A copy that stays in its block stays in `fs_data`. -/
theorem copy_inside {offset count : Nat} (b : Fin dataBlocks) (h : offset + count ≤ blockSize) :
    blockAddr b + offset + count ≤ fsDataSize := by
  have hb := b.isLt
  simp only [blockAddr, fsDataSize, blockSize, dataBlocks] at *
  omega

end TecnicoFS.Part2
