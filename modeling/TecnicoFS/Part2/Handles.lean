import TecnicoFS.Part2.Runs

/-!
# Part 2: closed handles

`tfs_read` and `tfs_write` look a handle up with `get_open_file_entry`, which
checks the range and nothing else. The entry of a closed handle is stale, and
the one of a handle never opened is zero, which is the root directory's i-node
number. So only a number outside the handle table is refused; and the root
directory is safe from `tfs_write` in runs that stay off the closed handles.
-/

namespace TecnicoFS.Part2

variable {k : Nat} {fs fs' : FS} {tr : Machine.Trace Call Ret} {r : Int}

/-! ## Handle entries in runs of arbitrary calls -/

/-- Any call, through any handle. -/
def AnyCall : Machine.Guard FS Call Ret := fun _ _ _ => True

/-- Every entry of the handle table holds the number of some i-node. -/
def EntriesValid (fs : FS) : Prop :=
  ∀ h, ∃ n : Fin inodeTableSize, (fs.openFileTable h).ofInumber = (n : Nat)

theorem EntriesValid.congr (hvalid : EntriesValid fs)
    (heq : ∀ h, (fs'.openFileTable h).ofInumber = (fs.openFileTable h).ofInumber) :
    EntriesValid fs' := by
  intro h
  rw [heq h]
  exact hvalid h

/-! Only `add_to_open_file_table` stores a number in the handle table. -/

theorem dataBlockAlloc_openFileTable (fs : FS) :
    (dataBlockAlloc fs).2.openFileTable = fs.openFileTable := by
  unfold dataBlockAlloc
  split <;> rfl

theorem dataBlockFree_openFileTable (fs : FS) (blockNumber : Int) :
    (dataBlockFree fs blockNumber).2.openFileTable = fs.openFileTable := by
  unfold dataBlockFree
  split <;> rfl

theorem allocIfEmpty_openFileTable (fs : FS) (n : Fin inodeTableSize) :
    (allocIfEmpty fs n).openFileTable = fs.openFileTable := by
  have halloc := dataBlockAlloc_openFileTable fs
  unfold allocIfEmpty
  rcases hb : dataBlockAlloc fs with ⟨b, fs1⟩
  rw [hb] at halloc
  split
  · exact halloc
  · rfl

theorem truncateOpened_openFileTable {n : Fin inodeTableSize} {flags : BitVec 32}
    (h : truncateOpened fs n flags = some fs') : fs'.openFileTable = fs.openFileTable := by
  unfold truncateOpened at h
  split at h
  · split at h
    rename_i heq
    split at h
    · cases h
    · rw [← Option.some.inj h]
      have hfree := dataBlockFree_openFileTable fs (fs.inodeTable n).iDataBlock
      rw [heq] at hfree
      exact hfree
  · rw [Option.some.inj h]

theorem inodeCreate_file_openFileTable (fs : FS) :
    (inodeCreate fs .tFile).2.openFileTable = fs.openFileTable := by
  unfold inodeCreate
  split <;> rfl

/-- The number of a new i-node is one. -/
theorem inodeCreate_file_number (fs : FS) :
    (inodeCreate fs .tFile).1 = -1 ∨
      ∃ n : Fin inodeTableSize, (inodeCreate fs .tFile).1 = (n : Nat) := by
  unfold inodeCreate
  split
  · exact Or.inl rfl
  · rename_i n _
    exact Or.inr ⟨n, rfl⟩

theorem inodeDelete_openFileTable (fs : FS) (inumber : Int) :
    (inodeDelete fs inumber).2.openFileTable = fs.openFileTable := by
  unfold inodeDelete
  split
  · rfl
  · split
    · rfl
    · split
      · rename_i n _ _ _
        have hfree := dataBlockFree_openFileTable
          { fs with freeinodeTs := Function.update fs.freeinodeTs n .free }
          (fs.inodeTable n).iDataBlock
        simp only
        rcases hb : dataBlockFree { fs with
          freeinodeTs := Function.update fs.freeinodeTs n .free }
          (fs.inodeTable n).iDataBlock with ⟨r, fs1⟩
        rw [hb] at hfree
        simp only
        split
        · exact hfree
        · exact hfree
      · rfl

theorem addDirEntry_openFileTable (fs : FS) (inumber subInumber : Int) (subName : CString) :
    (addDirEntry fs inumber subInumber subName).2.openFileTable = fs.openFileTable := by
  unfold addDirEntry
  split
  · split
    · rfl
    · split
      · rfl
      · split
        · rfl
        · split <;> rfl
  · rfl

theorem addToOpenFileTable_valid {n : Fin inodeTableSize} (offset : Nat)
    (hvalid : EntriesValid fs) : EntriesValid (addToOpenFileTable fs (n : Nat) offset).2 := by
  unfold addToOpenFileTable
  split
  · exact hvalid
  · rename_i j _
    intro h
    by_cases hj : h = j
    · exact ⟨n, by simp [hj]⟩
    · simpa [hj] using hvalid h

theorem tfsOpen_valid {name : CString} {flags : BitVec 32} (hvalid : EntriesValid fs)
    (h : tfsOpen fs name flags = some (r, fs')) : EntriesValid fs' := by
  unfold tfsOpen tfsOpenUnsynchronized at h
  split at h
  · rcases Prod.mk.inj (Option.some.inj h) with ⟨-, rfl⟩
    exact hvalid
  · split at h
    · -- the path was found: the entry gets its number, which is in range
      cases hget : inodeGet (tfsLookup fs name) with
      | none =>
          rw [hget] at h
          rcases Prod.mk.inj (Option.some.inj h) with ⟨-, rfl⟩
          exact hvalid
      | some n =>
          rw [hget] at h
          rw [index?_eq_some.mp hget] at h
          cases htrunc : truncateOpened fs n flags with
          | none =>
              simp only [htrunc] at h
              rcases Prod.mk.inj (Option.some.inj h) with ⟨-, rfl⟩
              exact hvalid
          | some fs1 =>
              simp only [htrunc] at h
              have htable := truncateOpened_openFileTable htrunc
              have hvalid1 : EntriesValid fs1 := hvalid.congr fun j => by rw [htable]
              have hadd := addToOpenFileTable_valid (n := n)
                (if hasFlag flags tfsOAppend then (fs1.inodeTable n).iSize else 0) hvalid1
              rwa [Option.some.inj h] at hadd
    · split at h
      · -- the file is created: the entry gets the number of the new i-node
        have hnum := inodeCreate_file_number fs
        have htable := inodeCreate_file_openFileTable fs
        rcases hcreate : inodeCreate fs .tFile with ⟨inum, fs1⟩
        rw [hcreate] at hnum htable h
        have hvalid1 : EntriesValid fs1 := hvalid.congr fun j => by rw [htable]
        simp only at h
        split at h
        · rcases Prod.mk.inj (Option.some.inj h) with ⟨-, rfl⟩
          exact hvalid1
        · rename_i hinum
          rcases hnum with hneg | ⟨n, hn⟩
          · exact absurd hneg hinum
          split at h
          · cases h
          have hdir := addDirEntry_openFileTable fs1 rootDirInum inum name.tail
          rcases hadd : addDirEntry fs1 rootDirInum inum name.tail with ⟨r', fs2⟩
          rw [hadd] at hdir h
          have hvalid2 : EntriesValid fs2 := hvalid1.congr fun j => by rw [hdir]
          simp only at h
          split at h
          · rcases Prod.mk.inj (Option.some.inj h) with ⟨-, rfl⟩
            exact hvalid2.congr fun j => by rw [inodeDelete_openFileTable]
          · have hnew := addToOpenFileTable_valid (n := n) 0 hvalid2
            rw [← show inum = (n : Nat) from hn, Option.some.inj h] at hnew
            exact hnew
      · rcases Prod.mk.inj (Option.some.inj h) with ⟨-, rfl⟩
        exact hvalid

theorem tfsWrite_valid {fhandle : Int} {buffer : List UInt8} (hvalid : EntriesValid fs)
    (h : tfsWrite fs fhandle buffer = some (r, fs')) : EntriesValid fs' := by
  unfold tfsWrite at h
  split at h
  · rcases Prod.mk.inj (Option.some.inj h) with ⟨-, rfl⟩
    exact hvalid
  · rename_i j _
    split at h
    · rcases Prod.mk.inj (Option.some.inj h) with ⟨-, rfl⟩
      exact hvalid
    · rename_i n _
      have htable := allocIfEmpty_openFileTable fs n
      simp only at h
      split at h
      · rcases Prod.mk.inj (Option.some.inj h) with ⟨-, rfl⟩
        exact hvalid
      · split at h
        · rcases Prod.mk.inj (Option.some.inj h) with ⟨-, rfl⟩
          exact hvalid.congr fun i => by rw [htable]
        · split at h
          · cases h
          · rcases Prod.mk.inj (Option.some.inj h) with ⟨-, rfl⟩
            refine hvalid.congr fun i => ?_
            by_cases hi : i = j
            · simp [hi]
            · simp [hi, htable]

theorem tfsRead_valid {fhandle : Int} {len : Nat} {bytes : List UInt8}
    (hvalid : EntriesValid fs) (h : tfsRead fs fhandle len = some ((r, bytes), fs')) :
    EntriesValid fs' := by
  unfold tfsRead at h
  split at h
  · rcases Prod.mk.inj (Option.some.inj h) with ⟨-, rfl⟩
    exact hvalid
  · rename_i j _
    split at h
    · rcases Prod.mk.inj (Option.some.inj h) with ⟨-, rfl⟩
      exact hvalid
    · simp only at h
      split at h
      · rcases Prod.mk.inj (Option.some.inj h) with ⟨-, rfl⟩
        exact hvalid
      · split at h
        · rcases Prod.mk.inj (Option.some.inj h) with ⟨-, rfl⟩
          exact hvalid
        · split at h
          · cases h
          · rcases Prod.mk.inj (Option.some.inj h) with ⟨-, rfl⟩
            refine hvalid.congr fun i => ?_
            by_cases hi : i = j
            · simp [hi]
            · simp [hi]

theorem exec_valid {c : Call} {ret : Ret} (hvalid : EntriesValid fs)
    (h : exec fs c = some (ret, fs')) : EntriesValid fs' := by
  cases c with
  | lookup name =>
      rcases Prod.mk.inj (Option.some.inj h) with ⟨-, rfl⟩
      exact hvalid
  | «open» name flags =>
      rcases Option.map_eq_some_iff.mp h with ⟨⟨r, fs1⟩, hopen, hret⟩
      rcases Prod.mk.inj hret with ⟨-, rfl⟩
      exact tfsOpen_valid hvalid hopen
  | close fhandle =>
      rcases Prod.mk.inj (Option.some.inj h) with ⟨-, rfl⟩
      rcases tfsClose_cases fs fhandle with ⟨j, -, -, hclose⟩ | ⟨-, hclose⟩
      · rw [hclose]
        exact hvalid.congr fun _ => rfl
      · rw [hclose]
        exact hvalid
  | write fhandle buffer =>
      rcases Option.map_eq_some_iff.mp h with ⟨⟨r, fs1⟩, hwrite, hret⟩
      rcases Prod.mk.inj hret with ⟨-, rfl⟩
      exact tfsWrite_valid hvalid hwrite
  | read fhandle len =>
      rcases Option.map_eq_some_iff.mp h with ⟨⟨⟨r, bytes⟩, fs1⟩, hread, hret⟩
      rcases Prod.mk.inj hret with ⟨-, rfl⟩
      exact tfsRead_valid hvalid hread

theorem reach_valid (h : machine.Reach AnyCall (tr, fs)) : EntriesValid fs := by
  refine Machine.Reach.invariant (P := fun _ s => EntriesValid s) h ?_ ?_
  · intro j
    rw [machine_init]
    exact ⟨0, rfl⟩
  · intro tr s c ret s' hvalid _ hexec
    exact exec_valid hvalid hexec

/-! ## Which closed handles are refused -/

/-- Reads and writes through the handle return -1 and change nothing. -/
def Refused (fs : FS) (fhandle : Int) : Prop :=
  (∀ len, tfsRead fs fhandle len = some ((-1, []), fs)) ∧
    ∀ buffer, tfsWrite fs fhandle buffer = some (-1, fs)

/-- A handle outside the table is refused in every state. -/
theorem refused_of_outside {fhandle : Int} (h : fhandle < 0 ∨ maxOpenFiles ≤ fhandle) :
    Refused fs fhandle := by
  have hnone : getOpenFileEntry fhandle = none := index?_eq_none.mpr h
  constructor
  · intro len
    rw [tfsRead, hnone]
  · intro buffer
    rw [tfsWrite, hnone]

/-- A handle inside the table is never refused: an empty read succeeds. -/
theorem not_refused_of_inside {fhandle : Int} (hvalid : EntriesValid fs)
    (hlo : 0 ≤ fhandle) (hhi : fhandle < maxOpenFiles) : ¬ Refused fs fhandle := by
  rintro ⟨hread, -⟩
  rcases hget : getOpenFileEntry fhandle with _ | h
  · rcases index?_eq_none.mp hget with hneg | hbig <;> omega
  · rcases hvalid h with ⟨n, hn⟩
    have hempty := hread 0
    rw [tfsRead, hget] at hempty
    simp only [hn, inodeGet, index?_natCast, clipRead, Nat.min_zero, ↓reduceIte] at hempty
    have hval : wordToInt 0 = -1 := congrArg (fun p => p.1.1) (Option.some.inj hempty)
    revert hval
    decide

/-! ## The root directory -/

/-- The call reads or writes through a handle that is open or outside the table. -/
def OffClosed (fs : FS) (c : Call) : Prop :=
  ∀ fhandle, c.through = some fhandle →
    IsOpen fs fhandle ∨ fhandle < 0 ∨ maxOpenFiles ≤ fhandle

/-- Runs that stay off the closed handles. -/
def OffClosedHandles : Machine.Guard FS Call Ret := fun _ fs c => OffClosed fs c

theorem OffClosed.issued {c : Call} (hinv : Inv k fs) (h : OffClosed fs c) :
    ∀ fhandle, c.through = some fhandle → Issued fs fhandle := by
  intro fhandle hc
  rcases h fhandle hc with hopen | hout
  · exact hopen.issued hinv
  · exact issued_of_outside (index?_eq_none.mpr hout)

/-- A write through an issued handle leaves the bytes of the directory alone. -/
theorem WriteStep.rootDir {fhandle : Int} {buffer : List UInt8} (hinv : Inv k fs)
    (h : WriteStep k fs fhandle buffer r fs') :
    Memory.load fs'.fsData (blockAddr rootBlock) blockSize =
      Memory.load fs.fsData (blockAddr rootBlock) blockSize := by
  cases h with
  | badHandle _ => rfl
  | nothing _ _ => rfl
  | @wrote h n b data _ hn _ _ _ _ _ hw =>
      have hge : blockSize ≤ blockAddr b := blockAddr_ge (hw.ne_root hinv hn.1)
      have hend : blockAddr rootBlock + blockSize ≤ blockAddr b + (fs.openFileTable h).ofOffset := by
        have hzero : blockAddr rootBlock = 0 := by simp [blockAddr, rootBlock]
        rw [hzero]
        omega
      simp only [writeAt_fsData]
      exact Memory.load_store_disjoint (Or.inl hend)

/-- In every run of arbitrary calls, a closed handle is refused exactly when it
is no index of the handle table. In every run that stays off the closed handles
no write changes the root directory. -/
theorem closed_handles (tr : Machine.Trace Call Ret) (fs : FS) (fhandle : Int) :
    (machine.Reach AnyCall (tr, fs) → ¬ IsOpen fs fhandle →
      (Refused fs fhandle ↔ fhandle < 0 ∨ maxOpenFiles ≤ fhandle)) ∧
    (machine.Reach OffClosedHandles (tr, fs) → ∀ buffer r fs',
      OffClosed fs (.write fhandle buffer) → tfsWrite fs fhandle buffer = some (r, fs') →
        Memory.load fs'.fsData (blockAddr rootBlock) blockSize =
          Memory.load fs.fsData (blockAddr rootBlock) blockSize) := by
  constructor
  · intro hreach _
    constructor
    · intro hrefused
      by_contra hin
      rw [not_or, not_lt, not_le] at hin
      exact not_refused_of_inside (reach_valid hreach) hin.1 hin.2 hrefused
    · exact refused_of_outside
  · intro hreach buffer r fs' hoff hwrite
    rcases reach_inv (fun _ _ _ _ hinv hguard => hguard.issued hinv) hreach with ⟨k, hinv⟩
    exact (tfsWrite_cases hinv (hoff.issued hinv fhandle rfl) hwrite).rootDir hinv

/-- Handle 0 was never opened, yet a write through it fills the first entry of
the root directory. -/
theorem closed_handle_writes_root :
    machine.Reach AnyCall ([], machine.init) ∧ ¬ IsOpen machine.init 0 ∧
      ¬ Refused machine.init 0 ∧
      ∃ fs', tfsWrite machine.init 0 (List.replicate 44 1) = some (44, fs') ∧
        dInumber machine.init.fsData (rootEntry 0) = -1 ∧
        dInumber fs'.fsData (rootEntry 0) = 0x01010101 := by
  have hwrite : ((tfsWrite machine.init 0 (List.replicate 44 1)).map fun p =>
      (p.1, dInumber p.2.fsData (rootEntry 0))) = some (44, 0x01010101) := by decide +kernel
  rcases Option.map_eq_some_iff.mp hwrite with ⟨⟨r, fs'⟩, hfs, heq⟩
  rcases Prod.mk.inj heq with ⟨rfl, hentry⟩
  refine ⟨.start, by decide +kernel, ?_, fs', hfs, by decide +kernel, hentry⟩
  rintro ⟨-, hrefused⟩
  rw [hrefused (List.replicate 44 1)] at hfs
  have hval : (-1 : Int) = 44 := congrArg Prod.fst (Option.some.inj hfs)
  exact absurd hval (by decide)

/-- The two parts on a run that creates "/a": handle -1 is refused, and a write
through handle 0 leaves the directory alone. -/
theorem closed_handles_create : ∃ fs fs', Refused fs (-1) ∧ IsOpen fs 0 ∧
    tfsWrite fs 0 [1, 2] = some (2, fs') ∧
    Memory.load fs'.fsData (blockAddr rootBlock) blockSize =
      Memory.load fs.fsData (blockAddr rootBlock) blockSize := by
  have hrun : ((machine.exec machine.init (.open pathA tfsOCreat)).bind fun p =>
      (tfsWrite p.2 0 [1, 2]).map fun q => (decide (IsOpen p.2 0), q.1)) = some (true, 2) := by
    decide +kernel
  rcases Option.bind_eq_some_iff.mp hrun with ⟨⟨ret, fs⟩, hopen, hrest⟩
  rcases Option.map_eq_some_iff.mp hrest with ⟨⟨r, fs'⟩, hwrite, heq⟩
  rcases Prod.mk.inj heq with ⟨hisopen, rfl⟩
  have hisopen' : IsOpen fs 0 := of_decide_eq_true hisopen
  have hany : machine.Reach AnyCall ([(.open pathA tfsOCreat, ret)], fs) :=
    Machine.Reach.start.step trivial hopen
  have hoff : machine.Reach OffClosedHandles ([(.open pathA tfsOCreat, ret)], fs) :=
    Machine.Reach.start.step (fun _ hc => by cases hc) hopen
  refine ⟨fs, fs', ?_, hisopen', hwrite, ?_⟩
  · refine ((closed_handles _ fs (-1)).1 hany ?_).mpr (by decide)
    rintro ⟨h, hh, -⟩
    cases hh
  · refine (closed_handles _ fs 0).2 hoff [1, 2] 2 fs' ?_ hwrite
    intro fhandle hc
    cases hc
    exact Or.inl hisopen'

end TecnicoFS.Part2
