import TecnicoFS.Part2.Handles
import TecnicoFS.Part2.Lifecycle
import TecnicoFS.Part2.Refinement

/-!
# Part 2: the library over all its lives

A program may shut the library down, with `tfs_destroy` or with `tfs_destroy_after_all_closed`,
and call `tfs_init` again, also in the middle of a run. `tfs_init` marks i-nodes, blocks and
handles `FREE` and makes a new root directory, but the i-nodes, the bytes of the blocks, the
entries of the handle table and the counter of open files stay as they were. No call through an
open handle can tell: a table is only read where it is marked, and no call on files reads the
counter (`Alike.exec`). So every life of the library, whatever came before it, is one of the
abstract file system from its empty state on (`lives_refine_abstract`).
-/

namespace TecnicoFS.Part2

open Abstract (Store)
open Concurrent (openFile setFlag)

/-! ## Other entries in the handle table -/

/-- The file system with another handle table, another count of open files and another flag. -/
def withHandles (fs : FS) (table : Fin maxOpenFiles → OpenFileEntry) (count flag : Int) : FS :=
  { fs with openFileTable := table, openFilesCount := count, openFlag := flag }

section WithHandles

variable (fs : FS) (table : Fin maxOpenFiles → OpenFileEntry) (count flag : Int)

theorem tfsLookup_withHandles (name : CString) :
    tfsLookup (withHandles fs table count flag) name = tfsLookup fs name := by
  unfold tfsLookup findInDir withHandles
  rfl

theorem dataBlockAlloc_withHandles :
    dataBlockAlloc (withHandles fs table count flag) =
      ((dataBlockAlloc fs).1, withHandles (dataBlockAlloc fs).2 table count flag) := by
  unfold dataBlockAlloc withHandles
  cases firstFit fun i => fs.freeBlocks i = .free with
  | none => rfl
  | some i => rfl

theorem dataBlockFree_withHandles (blockNumber : Int) :
    dataBlockFree (withHandles fs table count flag) blockNumber =
      ((dataBlockFree fs blockNumber).1,
        withHandles (dataBlockFree fs blockNumber).2 table count flag) := by
  unfold dataBlockFree
  cases index? dataBlocks blockNumber with
  | none => rfl
  | some b => rfl

theorem truncateOpened_withHandles (n : Fin inodeTableSize) (flags : BitVec 32) :
    truncateOpened (withHandles fs table count flag) n flags =
      (truncateOpened fs n flags).map fun fs' => withHandles fs' table count flag := by
  unfold truncateOpened
  rw [dataBlockFree_withHandles]
  have hsame : (withHandles fs table count flag).inodeTable = fs.inodeTable := rfl
  rw [hsame]
  rcases dataBlockFree fs (fs.inodeTable n).iDataBlock with ⟨r, fs'⟩
  simp only
  split
  · split
    · rfl
    · rfl
  · rfl

theorem inodeCreate_withHandles :
    inodeCreate (withHandles fs table count flag) .tFile =
      ((inodeCreate fs .tFile).1, withHandles (inodeCreate fs .tFile).2 table count flag) := by
  unfold inodeCreate
  have hsame : (withHandles fs table count flag).freeinodeTs = fs.freeinodeTs := rfl
  rw [hsame]
  cases firstFit fun n => fs.freeinodeTs n = .free with
  | none => rfl
  | some n => rfl

theorem inodeDelete_withHandles (inumber : Int) :
    inodeDelete (withHandles fs table count flag) inumber =
      ((inodeDelete fs inumber).1, withHandles (inodeDelete fs inumber).2 table count flag) := by
  unfold inodeDelete
  cases index? inodeTableSize inumber with
  | none => rfl
  | some n =>
      have hfree := dataBlockFree_withHandles
        { fs with freeinodeTs := Function.update fs.freeinodeTs n .free } table count flag
        (fs.inodeTable n).iDataBlock
      unfold withHandles at hfree ⊢
      simp only at hfree ⊢
      rw [hfree]
      split
      · rfl
      · split
        · split
          · rfl
          · rfl
        · rfl

theorem addDirEntry_withHandles (inumber subInumber : Int) (subName : CString) :
    addDirEntry (withHandles fs table count flag) inumber subInumber subName =
      ((addDirEntry fs inumber subInumber subName).1,
        withHandles (addDirEntry fs inumber subInumber subName).2 table count flag) := by
  unfold addDirEntry
  cases index? inodeTableSize inumber with
  | none => rfl
  | some n =>
      cases index? inodeTableSize subInumber with
      | none => rfl
      | some m =>
          have hinodes : (withHandles fs table count flag).inodeTable = fs.inodeTable := rfl
          have hdata : (withHandles fs table count flag).fsData = fs.fsData := rfl
          simp only [hinodes, hdata]
          split
          · rfl
          · split
            · rfl
            · cases dataBlockGet (fs.inodeTable n).iDataBlock with
              | none => rfl
              | some b =>
                  simp only
                  split
                  · rfl
                  · rfl

theorem allocIfEmpty_withHandles (n : Fin inodeTableSize) :
    allocIfEmpty (withHandles fs table count flag) n =
      withHandles (allocIfEmpty fs n) table count flag := by
  unfold allocIfEmpty
  rw [dataBlockAlloc_withHandles]
  have hsame : (withHandles fs table count flag).inodeTable = fs.inodeTable := rfl
  rw [hsame]
  rcases dataBlockAlloc fs with ⟨b, fs'⟩
  split
  · rfl
  · rfl

/-- An open up to the handle table. -/
theorem openFile_withHandles (name : CString) (flags : BitVec 32) :
    openFile (withHandles fs table count flag) name flags =
      (openFile fs name flags).map fun p => (p.1, withHandles p.2 table count flag) := by
  unfold openFile
  rw [tfsLookup_withHandles, inodeCreate_withHandles]
  split
  · cases inodeGet (tfsLookup fs name) with
    | none => rfl
    | some n =>
        simp only [truncateOpened_withHandles]
        cases truncateOpened fs n flags with
        | none => rfl
        | some fs' => rfl
  · split
    · rcases inodeCreate fs .tFile with ⟨inum, fs'⟩
      simp only [addDirEntry_withHandles]
      split
      · rfl
      · split
        · rfl
        · rcases addDirEntry fs' rootDirInum inum name.tail with ⟨r, fs''⟩
          simp only [inodeDelete_withHandles]
          split
          · rfl
          · rfl
    · rfl

end WithHandles

/-! ## Calls that cannot tell -/

/-- The two differ at most in the count of open files, in the flag, which the second has as
`flag`, and in entries that are not in use. -/
def Alike (flag : Int) (fs fs' : FS) : Prop :=
  ∃ table count, fs' = withHandles fs table count flag ∧
    ∀ h, fs.freeOpenFileEntries h = .taken → table h = fs.openFileTable h

variable {fs fs' fs₁ : FS} {flag r : Int}

theorem Alike.marks (h : Alike flag fs fs') : fs'.freeOpenFileEntries = fs.freeOpenFileEntries := by
  obtain ⟨table, count, rfl, -⟩ := h
  rfl

theorem Alike.openFlag (h : Alike flag fs fs') : fs'.openFlag = flag := by
  obtain ⟨table, count, rfl, -⟩ := h
  rfl

theorem openFile_openFileTable {name : CString} {flags : BitVec 32} {found : Option (Int × Nat)}
    (hopen : openFile fs name flags = some (found, fs')) :
    fs'.openFileTable = fs.openFileTable := by
  have hsame := openFile_withHandles fs fs.openFileTable fs.openFilesCount fs.openFlag name flags
  have hself : withHandles fs fs.openFileTable fs.openFilesCount fs.openFlag = fs := rfl
  rw [hself, hopen] at hsame
  have hsame := congrArg FS.openFileTable (Prod.mk.inj (Option.some.inj hsame)).2
  exact hsame

/-- An assignment to one entry keeps two tables alike where they are in use. -/
theorem agree_update {marks : Fin maxOpenFiles → AllocationState}
    {table table' : Fin maxOpenFiles → OpenFileEntry} {i : Fin maxOpenFiles}
    (h : ∀ j, j ≠ i → marks j = .taken → table j = table' j) (entry : OpenFileEntry) :
    ∀ j, marks j = .taken →
      Function.update table i entry j = Function.update table' i entry j := by
  intro j hj
  by_cases hji : j = i
  · subst hji
    rw [Function.update_self, Function.update_self]
  · rw [Function.update_of_ne hji, Function.update_of_ne hji]
    exact h j hji hj

theorem Alike.addToOpenFileTable (h : Alike flag fs fs') {inumber : Int} {offset : Nat}
    (hadd : addToOpenFileTable fs inumber offset = (r, fs₁)) :
    ∃ fs₁', addToOpenFileTable fs' inumber offset = (r, fs₁') ∧ Alike flag fs₁ fs₁' := by
  obtain ⟨table, count, rfl, hentries⟩ := h
  unfold Part2.addToOpenFileTable at hadd ⊢
  have hsame : (withHandles fs table count flag).freeOpenFileEntries = fs.freeOpenFileEntries := rfl
  rw [hsame]
  cases hfit : firstFit fun h => fs.freeOpenFileEntries h = .free with
  | none =>
      rw [hfit] at hadd
      cases hadd
      exact ⟨_, rfl, table, count, rfl, hentries⟩
  | some h =>
      rw [hfit] at hadd
      cases hadd
      refine ⟨_, rfl, _, _, rfl, agree_update (fun i hih hi => ?_) _⟩
      simp only [Function.update_of_ne hih] at hi
      exact hentries i hi

theorem Alike.tfsOpen (h : Alike flag fs fs') (hup : fs.openFlag ≠ 0) (hflag : flag ≠ 0)
    {name : CString} {flags : BitVec 32} (hopen : tfsOpen fs name flags = some (r, fs₁)) :
    ∃ fs₁', tfsOpen fs' name flags = some (r, fs₁') ∧ Alike flag fs₁ fs₁' := by
  have hup' : fs'.openFlag ≠ 0 := by rwa [h.openFlag]
  unfold Part2.tfsOpen at hopen ⊢
  rw [if_neg hup, Concurrent.tfsOpenUnsynchronized_eq] at hopen
  rw [if_neg hup', Concurrent.tfsOpenUnsynchronized_eq]
  obtain ⟨⟨found, fs₂⟩, hfile, hret⟩ := Option.map_eq_some_iff.mp hopen
  have htable := openFile_openFileTable hfile
  have hmarks := (Concurrent.openFile_sameHandles hfile).marks
  obtain ⟨table, count, rfl, hentries⟩ := h
  have halike : Alike flag fs₂ (withHandles fs₂ table count flag) := by
    refine ⟨table, count, rfl, fun i hi => ?_⟩
    rw [htable]
    exact hentries i (hmarks ▸ hi)
  rw [openFile_withHandles, hfile]
  simp only [Option.map_some]
  cases found with
  | none =>
      cases hret
      exact ⟨_, rfl, halike⟩
  | some entry =>
      obtain ⟨fs₁', hadd, hnext⟩ := halike.addToOpenFileTable hret
      exact ⟨fs₁', congrArg some hadd, hnext⟩

theorem Alike.tfsClose (h : Alike flag fs fs') {fhandle : Int}
    (hclose : tfsClose fs fhandle = (r, fs₁)) :
    ∃ fs₁', tfsClose fs' fhandle = (r, fs₁') ∧ Alike flag fs₁ fs₁' := by
  obtain ⟨table, count, rfl, hentries⟩ := h
  unfold Part2.tfsClose removeFromOpenFileTable at hclose ⊢
  have hsame : (withHandles fs table count flag).freeOpenFileEntries = fs.freeOpenFileEntries := rfl
  simp only [hsame]
  cases hindex : index? maxOpenFiles fhandle with
  | none =>
      rw [hindex] at hclose
      cases hclose
      exact ⟨_, rfl, table, count, rfl, hentries⟩
  | some h =>
      rw [hindex] at hclose
      simp only at hclose ⊢
      split at hclose
      · rename_i hfree
        cases hclose
        exact ⟨_, if_pos hfree, table, count, rfl, hentries⟩
      · rename_i htaken
        cases hclose
        refine ⟨_, if_neg htaken, table, count - 1, rfl, fun i hi => ?_⟩
        by_cases hih : i = h
        · subst hih
          simp at hi
        · simp only [Function.update_of_ne hih] at hi
          exact hentries i hi

theorem allocIfEmpty_freeOpenFileEntries (fs : FS) (n : Fin inodeTableSize) :
    (allocIfEmpty fs n).freeOpenFileEntries = fs.freeOpenFileEntries := by
  unfold allocIfEmpty dataBlockAlloc
  split
  · cases firstFit fun i => fs.freeBlocks i = .free with
    | none => rfl
    | some b => rfl
  · rfl

/-- A write through an open handle. -/
theorem Alike.tfsWrite (h : Alike flag fs fs') {fhandle : Int} {buffer : List UInt8}
    (hopen : IsOpen fs fhandle) (hwrite : tfsWrite fs fhandle buffer = some (r, fs₁)) :
    ∃ fs₁', tfsWrite fs' fhandle buffer = some (r, fs₁') ∧ Alike flag fs₁ fs₁' := by
  obtain ⟨i, hi, htaken⟩ := hopen
  obtain ⟨table, count, rfl, hentries⟩ := h
  have hentry : (withHandles fs table count flag).openFileTable i = fs.openFileTable i :=
    hentries i htaken
  unfold Part2.tfsWrite at hwrite ⊢
  rw [hi] at hwrite ⊢
  simp only [hentry, allocIfEmpty_withHandles] at hwrite ⊢
  cases hnum : inodeGet (fs.openFileTable i).ofInumber with
  | none =>
      rw [hnum] at hwrite
      cases hwrite
      exact ⟨_, rfl, table, count, rfl, hentries⟩
  | some n =>
      rw [hnum] at hwrite
      simp only at hwrite ⊢
      split at hwrite
      · rename_i hzero
        cases hwrite
        exact ⟨_, if_pos hzero, table, count, rfl, hentries⟩
      · rename_i hpos
        rw [if_neg hpos]
        have hkept : ∀ j, (allocIfEmpty fs n).freeOpenFileEntries j = .taken →
            table j = (allocIfEmpty fs n).openFileTable j := by
          rw [allocIfEmpty_freeOpenFileEntries, allocIfEmpty_openFileTable]
          exact hentries
        have hinodes : (withHandles (allocIfEmpty fs n) table count flag).inodeTable =
            (allocIfEmpty fs n).inodeTable := rfl
        rw [hinodes]
        cases hblock : dataBlockGet ((allocIfEmpty fs n).inodeTable n).iDataBlock with
        | none =>
            rw [hblock] at hwrite
            cases hwrite
            exact ⟨_, rfl, table, count, rfl, hkept⟩
        | some b =>
            rw [hblock] at hwrite
            simp only at hwrite ⊢
            split at hwrite
            · cases hwrite
            · rename_i hfits
              cases hwrite
              exact ⟨_, if_neg hfits, _, count, rfl, agree_update (fun j _ hj => hkept j hj) _⟩

/-- A read through an open handle. -/
theorem Alike.tfsRead (h : Alike flag fs fs') {fhandle : Int} {len : Nat} {bytes : List UInt8}
    (hopen : IsOpen fs fhandle) (hread : tfsRead fs fhandle len = some ((r, bytes), fs₁)) :
    ∃ fs₁', tfsRead fs' fhandle len = some ((r, bytes), fs₁') ∧ Alike flag fs₁ fs₁' := by
  obtain ⟨i, hi, htaken⟩ := hopen
  obtain ⟨table, count, rfl, hentries⟩ := h
  have hentry : (withHandles fs table count flag).openFileTable i = fs.openFileTable i :=
    hentries i htaken
  have hinodes : (withHandles fs table count flag).inodeTable = fs.inodeTable := rfl
  unfold Part2.tfsRead at hread ⊢
  rw [hi] at hread ⊢
  simp only [hentry, hinodes] at hread ⊢
  cases hnum : inodeGet (fs.openFileTable i).ofInumber with
  | none =>
      rw [hnum] at hread
      cases hread
      exact ⟨_, rfl, table, count, rfl, hentries⟩
  | some n =>
      rw [hnum] at hread
      simp only at hread ⊢
      split at hread
      · rename_i hzero
        cases hread
        exact ⟨_, if_pos hzero, table, count, rfl, hentries⟩
      · rename_i hpos
        rw [if_neg hpos]
        cases hblock : dataBlockGet (fs.inodeTable n).iDataBlock with
        | none =>
            rw [hblock] at hread
            cases hread
            exact ⟨_, rfl, table, count, rfl, hentries⟩
        | some b =>
            rw [hblock] at hread
            simp only at hread ⊢
            split at hread
            · cases hread
            · rename_i hfits
              cases hread
              exact ⟨_, if_neg hfits, _, count, rfl,
                agree_update (fun j _ hj => hentries j hj) _⟩

theorem Alike.isOpen (h : Alike flag fs fs') {fhandle : Int} (hopen : IsOpen fs' fhandle) :
    IsOpen fs fhandle := by
  unfold IsOpen at hopen ⊢
  rw [h.marks] at hopen
  exact hopen

/-- The calls that `open_flag` can refuse. -/
def Call.opens : Call → Bool
  | .open _ _ => true
  | _ => false

/-- A call is allowed on both sides. -/
theorem Alike.allowed (h : Alike flag fs fs') {c : Call} (hok : Allowed fs' c) : Allowed fs c := by
  cases c with
  | lookup name => exact hok
  | «open» name flags =>
      refine ⟨hok.1, fun htrunc => ?_⟩
      obtain ⟨hnobody, hfree⟩ := hok.2 htrunc
      rw [h.marks] at hnobody hfree
      obtain ⟨table, count, rfl, hentries⟩ := h
      refine ⟨fun i hi => ?_, hfree⟩
      rw [← hentries i hi]
      exact hnobody i hi
  | close fhandle => trivial
  | write fhandle buffer => exact ⟨h.isOpen hok.1, hok.2⟩
  | read fhandle len => exact ⟨h.isOpen hok.1, hok.2⟩

/-- No allowed call can tell the two apart, other than an open where the flag refuses it. -/
theorem Alike.exec (h : Alike flag fs fs') (hup : fs.openFlag ≠ 0) {c : Call} {result : Ret}
    (hflag : c.opens = true → flag ≠ 0) (hok : Allowed fs c)
    (hexec : exec fs c = some (result, fs₁)) :
    ∃ fs₁', exec fs' c = some (result, fs₁') ∧ Alike flag fs₁ fs₁' := by
  cases c with
  | lookup name =>
      cases hexec
      refine ⟨fs', ?_, h⟩
      obtain ⟨table, count, rfl, -⟩ := h
      rw [Part2.exec, tfsLookup_withHandles]
  | «open» name flags =>
      obtain ⟨⟨r, fs₂⟩, hopen, hret⟩ := Option.map_eq_some_iff.mp hexec
      cases hret
      obtain ⟨fs₁', hopen', hnext⟩ := h.tfsOpen hup (hflag rfl) hopen
      exact ⟨fs₁', by rw [Part2.exec, hopen']; rfl, hnext⟩
  | close fhandle =>
      rw [Part2.exec] at hexec
      rcases hclose : Part2.tfsClose fs fhandle with ⟨r, fs₂⟩
      rw [hclose] at hexec
      cases hexec
      obtain ⟨fs₁', hclose', hnext⟩ := h.tfsClose hclose
      exact ⟨fs₁', by rw [Part2.exec, hclose'], hnext⟩
  | write fhandle buffer =>
      obtain ⟨⟨r, fs₂⟩, hwrite, hret⟩ := Option.map_eq_some_iff.mp hexec
      cases hret
      obtain ⟨fs₁', hwrite', hnext⟩ := h.tfsWrite hok.1 hwrite
      exact ⟨fs₁', by rw [Part2.exec, hwrite']; rfl, hnext⟩
  | read fhandle len =>
      obtain ⟨⟨⟨r, bytes⟩, fs₂⟩, hread, hret⟩ := Option.map_eq_some_iff.mp hexec
      cases hret
      obtain ⟨fs₁', hread', hnext⟩ := h.tfsRead hok.1 hread
      exact ⟨fs₁', by rw [Part2.exec, hread']; rfl, hnext⟩

/-! ## The lives of the library -/

/-- The calls of a program that may shut the library down and start it again. -/
inductive LibraryCall where
  | init
  | destroy
  | destroyAfterAllClosed
  | call (c : Call)
deriving DecidableEq

/-- The library: its tables, and whether `single_global_lock` is initialised. -/
structure Library where
  fs : FS
  globalLock : Bool

/-- One call of one thread. It is undefined to lock or to destroy a mutex that is not initialised;
an open that finds the flag at 0 returns before it comes to the global lock, and
`tfs_destroy_after_all_closed` does not use that lock. -/
def Library.exec (l : Library) : LibraryCall → Option (Ret × Library)
  | .init => some (⟨(tfsInit l.fs).1, []⟩, ⟨(tfsInit l.fs).2, true⟩)
  | .destroy =>
      if l.globalLock then
        some (⟨(Lifecycle.tfsDestroy l.fs).1, []⟩, ⟨(Lifecycle.tfsDestroy l.fs).2, false⟩)
      else none
  | .destroyAfterAllClosed =>
      (Lifecycle.tfsDestroyAfterAllClosed l.fs).map fun p => (⟨p.1, []⟩, { l with fs := p.2 })
  | .call c =>
      if (c.opens ∧ l.fs.openFlag = 0) ∨ l.globalLock then
        (Part2.exec l.fs c).map fun p => (p.1, { l with fs := p.2 })
      else none

/-- The library, from whatever its memory holds. -/
def Library.machine (l : Library) : Machine Library LibraryCall Ret := ⟨l, Library.exec⟩

/-- A shutdown does not have to wait; while the library is up, calls are those the abstract file
system allows, and after a `tfs_destroy` there are none; an open after the shutdown is refused,
and may be anything. -/
def Library.Allowed (l : Library) : LibraryCall → Prop
  | .init => True
  | .destroy => l.globalLock = true
  | .destroyAfterAllClosed => l.fs.openFilesCount = 0
  | .call c => (c.opens ∧ l.fs.openFlag = 0) ∨ (l.globalLock = true ∧ Part2.Allowed l.fs c)

instance : ∀ l c, Decidable (Library.Allowed l c)
  | _, .init => isTrue trivial
  | _, .destroy => inferInstanceAs (Decidable (_ = true))
  | _, .destroyAfterAllClosed => inferInstanceAs (Decidable (_ = (0 : Int)))
  | _, .call _ => inferInstanceAs (Decidable (_ ∨ (_ ∧ _)))

/-- The abstract file system over its lives: what it holds, and whether files may be opened. -/
structure Abstract.Life where
  store : Store
  up : Bool

/-- Every `tfs_init` empties it, and after a shutdown nothing can be opened. -/
def Abstract.Life.exec (a : Abstract.Life) : LibraryCall → Ret × Abstract.Life
  | .init => (⟨0, []⟩, ⟨.empty, true⟩)
  | .destroy => (⟨0, []⟩, a)
  | .destroyAfterAllClosed => (⟨0, []⟩, { a with up := false })
  | .call c =>
      if c.opens ∧ ¬ a.up then (⟨-1, []⟩, a)
      else ((a.store.exec c).1, { a with store := (a.store.exec c).2 })

def Abstract.lives (a : Abstract.Life) : Machine Abstract.Life LibraryCall Ret :=
  ⟨a, fun a c => some (a.exec c)⟩

/-- The value of `open_flag`. -/
def Abstract.Life.openFlag (a : Abstract.Life) : Int := if a.up then 1 else 0

/-- The two sides agree, but for what no call through an open handle can tell. -/
def SimLife (a : Abstract.Life) (l : Library) : Prop :=
  ∃ fs₀, Sim a.store fs₀ ∧ Alike a.openFlag fs₀ l.fs

/-- After `tfs_init` both sides are empty, also where the i-nodes and the blocks held something
else before. -/
theorem sim_tfsInit (hhandles : ∀ h, fs.openFileTable h = ⟨0, 0⟩) :
    Sim .empty (tfsInit fs).2 := by
  refine ⟨tfsInit_inv hhandles, ?_, ?_⟩
  · intro i f n _ hf
    cases hf
  · intro h
    left
    refine ⟨rfl, ?_⟩
    rw [tfsInit_eq]
    rfl

theorem tfsInit_withHandles (fs : FS) (table : Fin maxOpenFiles → OpenFileEntry)
    (count flag : Int) :
    (tfsInit (withHandles fs table count flag)).2 = withHandles (tfsInit fs).2 table count 1 := by
  rw [tfsInit_eq, tfsInit_eq]
  unfold withHandles stateInit
  simp only

/-- Whatever was there before, `tfs_init` makes an empty file system. -/
theorem simLife_init (l : Library) : SimLife ⟨.empty, true⟩ ⟨(tfsInit l.fs).2, true⟩ := by
  refine ⟨(tfsInit (withHandles l.fs (fun _ => ⟨0, 0⟩) 0 0)).2, sim_tfsInit fun _ => rfl,
    l.fs.openFileTable, l.fs.openFilesCount, ?_, fun h hh => ?_⟩
  · rw [tfsInit_withHandles, tfsInit_eq]
    unfold withHandles stateInit Abstract.Life.openFlag
    simp only [↓reduceIte]
  · rw [tfsInit_eq] at hh
    cases hh

variable {a : Abstract.Life} {l : Library}

/-- A shutdown: both sides refuse opens from then on. -/
theorem SimLife.down (hsim : SimLife a l) :
    SimLife { a with up := false } { l with fs := setFlag l.fs 0 } := by
  obtain ⟨fs₀, hstore, table, count, hfs, hentries⟩ := hsim
  refine ⟨fs₀, hstore, table, count, ?_, hentries⟩
  rw [hfs]
  rfl

/-- The flag on both sides. -/
theorem SimLife.up_iff (hsim : SimLife a l) : l.fs.openFlag ≠ 0 ↔ a.up = true := by
  obtain ⟨fs₀, -, halike⟩ := hsim
  rw [halike.openFlag]
  unfold Abstract.Life.openFlag
  cases a.up <;> simp

/-- A call on files, other than an open that is refused. -/
theorem SimLife.call (hsim : SimLife a l) {c : Call} (hup : c.opens = true → a.up = true)
    (hok : Part2.Allowed l.fs c) :
    ∃ fs', Part2.exec l.fs c = some ((a.store.exec c).1, fs') ∧
      SimLife { a with store := (a.store.exec c).2 } { l with fs := fs' } := by
  obtain ⟨fs₀, hstore, halike⟩ := hsim
  obtain ⟨r, store', fs₁, habs, hexec, hstore'⟩ := sim_step _ _ c hstore (halike.allowed hok)
  have hflag : fs₀.openFlag ≠ 0 := by
    rw [hstore.inv.flag]
    decide
  have hopens : c.opens = true → a.openFlag ≠ 0 := by
    intro hc
    unfold Abstract.Life.openFlag
    simp [hup hc]
  obtain ⟨fs₁', hexec', hnext⟩ := halike.exec hflag hopens (halike.allowed hok) hexec
  have hsame : a.store.exec c = (r, store') := Option.some.inj habs
  rw [hsame]
  exact ⟨fs₁', hexec', fs₁, hstore', hnext⟩

theorem exec_of_down {fs : FS} {c : Call} (hc : c.opens = true) (hdown : fs.openFlag = 0) :
    Part2.exec fs c = some (⟨-1, []⟩, fs) := by
  cases c with
  | «open» name flags =>
      rw [Part2.exec, Part2.tfsOpen, if_pos hdown]
      rfl
  | lookup => cases hc
  | close => cases hc
  | write => cases hc
  | read => cases hc

/-- Every allowed call gives the same result on both sides. -/
theorem simLife_step (a₀ a : Abstract.Life) (l₀ l : Library) (c : LibraryCall)
    (hsim : SimLife a l) (hok : l.Allowed c) :
    ∃ r a' l', (Abstract.lives a₀).exec a c = some (r, a') ∧
      l₀.machine.exec l c = some (r, l') ∧ SimLife a' l' := by
  have habs : (Abstract.lives a₀).exec a c = some (a.exec c) := rfl
  have hlib : l₀.machine.exec l c = l.exec c := rfl
  rw [habs, hlib]
  cases c with
  | init =>
      refine ⟨_, _, ⟨(tfsInit l.fs).2, true⟩, rfl, ?_, simLife_init l⟩
      have hzero : (tfsInit l.fs).1 = 0 := by rw [tfsInit_eq]
      unfold Library.exec
      simp only [hzero]
  | destroy =>
      refine ⟨_, _, ⟨l.fs, false⟩, rfl, ?_, hsim⟩
      exact if_pos hok
  | destroyAfterAllClosed =>
      refine ⟨_, _, { l with fs := setFlag l.fs 0 }, rfl, ?_, hsim.down⟩
      have hcount : ¬ l.fs.openFilesCount ≠ 0 := fun hne => hne hok
      unfold Library.exec Lifecycle.tfsDestroyAfterAllClosed
      rw [if_neg hcount]
      rfl
  | call c =>
      simp only [Library.exec, Abstract.Life.exec]
      by_cases hdown : c.opens = true ∧ l.fs.openFlag = 0
      · -- refused on both sides
        have hup : ¬ a.up = true := fun hup => hsim.up_iff.mpr hup hdown.2
        rw [if_pos (Or.inl hdown), if_pos ⟨hdown.1, hup⟩, exec_of_down hdown.1 hdown.2]
        exact ⟨_, _, _, rfl, rfl, hsim⟩
      · obtain ⟨hlock, hok⟩ := hok.resolve_left hdown
        have hup : c.opens = true → a.up = true := fun hc =>
          hsim.up_iff.mp fun hzero => hdown ⟨hc, hzero⟩
        obtain ⟨fs', hexec, hnext⟩ := hsim.call hup hok
        rw [if_pos (Or.inr hlock), if_neg fun h => h.2 (hup h.1), hexec]
        exact ⟨_, _, _, rfl, rfl, hnext⟩

/-- Whatever the memory of the library holds, a run that begins with `tfs_init` gives the results
of the abstract file system, through every shutdown and every further `tfs_init`. -/
theorem lives_refine_abstract (l : Library) (a : Abstract.Life) (calls : List LibraryCall)
    (h : l.machine.Admits Library.Allowed l (.init :: calls)) :
    ∃ results a' l', (Abstract.lives a).run a (.init :: calls) = some (results, a') ∧
      l.machine.run l (.init :: calls) = some (results, l') := by
  have hzero : (tfsInit l.fs).1 = 0 := by rw [tfsInit_eq]
  have hinit : l.machine.exec l .init = some (⟨0, []⟩, ⟨(tfsInit l.fs).2, true⟩) := by
    unfold Library.machine Library.exec
    simp only [hzero]
  obtain ⟨results, a', l', habs, hlib, -⟩ := Machine.run_refines (Abstract.lives a) l.machine
    SimLife Library.Allowed (fun a₁ l₁ c => simLife_step a a₁ l l₁ c) calls _ _ (simLife_init l)
    (h.2 _ _ hinit)
  refine ⟨⟨0, []⟩ :: results, a', l', ?_, ?_⟩
  · have hempty : (Abstract.lives a).exec a .init = some (⟨0, []⟩, ⟨.empty, true⟩) := rfl
    simp only [Machine.run, hempty, habs]
  · simp only [Machine.run, hinit, hlib]

/-- A file, a shutdown, a refused open, and a new file system with the old bytes in its blocks,
which is started once more while a file is open. -/
theorem lives_refine_abstract_three_lives : ∃ results a' l',
    (Abstract.lives ⟨.empty, false⟩).run ⟨.empty, false⟩
        [.init, .call (.open pathA tfsOCreat), .call (.write 0 [1, 2, 3]), .call (.close 0),
          .destroyAfterAllClosed, .call (.open pathA tfsOCreat), .init, .call (.open pathA 0),
          .call (.open pathA tfsOCreat), .call (.read 0 5), .destroy, .init,
          .call (.lookup pathA)] = some (results, a') ∧
      (Library.machine ⟨boot, false⟩).run ⟨boot, false⟩
        [.init, .call (.open pathA tfsOCreat), .call (.write 0 [1, 2, 3]), .call (.close 0),
          .destroyAfterAllClosed, .call (.open pathA tfsOCreat), .init, .call (.open pathA 0),
          .call (.open pathA tfsOCreat), .call (.read 0 5), .destroy, .init,
          .call (.lookup pathA)] = some (results, l') :=
  lives_refine_abstract ⟨boot, false⟩ ⟨.empty, false⟩ _ (by decide +kernel)

end TecnicoFS.Part2
