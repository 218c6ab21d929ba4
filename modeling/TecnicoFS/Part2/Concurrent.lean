import TecnicoFS.Part2.Operations
import TecnicoFS.Lib.Threads

/-!
# Part 2: `tfs_open`, `tfs_close` and the shutdown as threads run them

Everything a `tfs_*` call does to the tables and the blocks it does with the global lock, so
the body of an open is one step up to the handle table. The handle table, its counter and
`open_flag` are also touched under `open_files_mutex`, and there every access is a step.

`tfsOpen_eval` and `tfsClose_eval` say that a thread alone computes what the sequential `tfsOpen` and
`tfsClose` do.
-/

namespace TecnicoFS.Part2.Concurrent

open Threads Threads.Prog

/-! ## State -/

/-- What the worker threads share, for workers of sessions `S`. The last two fields are
history that no code reads: the session whose request raised `shutdown_called`, and the
sessions whose workers have called `tfs_destroy_after_all_closed`. -/
structure Shared (S : Type) where
  fs : FS
  shutdownCalled : Bool
  shuttingDown : Bool
  accepted : Option S
  destroyers : List S

/-- The mutexes: of `state.c`, of `operations.c`, and of `tfs_server.c`. -/
inductive Lock (S : Type) where
  | openFilesMutex
  | singleGlobalLock
  | shuttingDownLock
  | session (i : S)
deriving DecidableEq

inductive Cond where
  | openFilesCond
deriving DecidableEq

/-- A program of a worker thread. -/
abbrev Op (S α : Type) : Type := Prog (Shared S) (Lock S) Cond α

variable {S : Type}

namespace Shared

/-- The server after `tfs_init`. -/
def start (fs : FS) : Shared S := ⟨fs, false, false, none, []⟩

/-- The file system has changed. -/
def setFs (s : Shared S) (fs : FS) : Shared S := { s with fs := fs }

/-- `shutdown_called = true`, on the request of a session. -/
def accept (s : Shared S) (i : S) : Shared S :=
  { s with shutdownCalled := true, accepted := some i }

/-- The worker of a session calls `tfs_destroy_after_all_closed`. -/
def record (s : Shared S) (i : S) : Shared S :=
  { s with destroyers := s.destroyers ++ [i] }

variable (s : Shared S) (fs : FS) (i : S)

@[simp] theorem start_fs : (start fs : Shared S).fs = fs := rfl
@[simp] theorem setFs_fs : (s.setFs fs).fs = fs := rfl
@[simp] theorem setFs_shutdownCalled : (s.setFs fs).shutdownCalled = s.shutdownCalled := rfl
@[simp] theorem setFs_accepted : (s.setFs fs).accepted = s.accepted := rfl
@[simp] theorem setFs_destroyers : (s.setFs fs).destroyers = s.destroyers := rfl
@[simp] theorem accept_fs : (s.accept i).fs = s.fs := rfl
@[simp] theorem accept_shutdownCalled : (s.accept i).shutdownCalled = true := rfl
@[simp] theorem accept_accepted : (s.accept i).accepted = some i := rfl
@[simp] theorem accept_destroyers : (s.accept i).destroyers = s.destroyers := rfl
@[simp] theorem record_fs : (s.record i).fs = s.fs := rfl
@[simp] theorem record_shutdownCalled : (s.record i).shutdownCalled = s.shutdownCalled := rfl
@[simp] theorem record_accepted : (s.record i).accepted = s.accepted := rfl
@[simp] theorem record_destroyers : (s.record i).destroyers = s.destroyers ++ [i] := rfl
@[simp] theorem setFs_setFs (fs' : FS) : (s.setFs fs).setFs fs' = s.setFs fs' := rfl

end Shared

/-! ## The handle table (`fs/state.c`) -/

/-- The entry of a handle is marked `TAKEN` and filled in. -/
def markTaken (fs : FS) (h : Fin maxOpenFiles) (inumber : Int) (offset : Nat) : FS :=
  { fs with
    freeOpenFileEntries := Function.update fs.freeOpenFileEntries h .taken
    openFileTable := Function.update fs.openFileTable h ⟨inumber, offset⟩ }

/-- The entry of a handle is marked `FREE`. -/
def markFree (fs : FS) (h : Fin maxOpenFiles) : FS :=
  { fs with freeOpenFileEntries := Function.update fs.freeOpenFileEntries h .free }

/-- `open_files_count = count`. -/
def setCount (fs : FS) (count : Int) : FS := { fs with openFilesCount := count }

/-- `open_flag = flag`. -/
def setFlag (fs : FS) (flag : Int) : FS := { fs with openFlag := flag }

/-- `add_to_open_file_table`: the scan is made before the mutex is taken. -/
def addToOpenFileTable (inumber : Int) (offset : Nat) : Op S Int := do
  let free ← read fun s => firstFit fun h => s.fs.freeOpenFileEntries h = .free
  match free with
  | none => pure (-1)
  | some h => do
      lock .openFilesMutex
      modify fun s => s.setFs (markTaken s.fs h inumber offset)
      modify fun s => s.setFs (setCount s.fs (s.fs.openFilesCount + 1))
      unlock .openFilesMutex
      pure ((h : Nat) : Int)

/-- `remove_from_open_file_table`. -/
def removeFromOpenFileTable (fhandle : Int) : Op S Int :=
  match index? maxOpenFiles fhandle with
  | none => pure (-1)
  | some h => do
      let state ← read fun s => s.fs.freeOpenFileEntries h
      if state ≠ .taken then pure (-1)
      else
        lock .openFilesMutex
        modify fun s => s.setFs (setCount s.fs (s.fs.openFilesCount - 1))
        let count ← read fun s => s.fs.openFilesCount
        if count = 0 then wakeOne .openFilesCond
        modify fun s => s.setFs (markFree s.fs h)
        unlock .openFilesMutex
        pure 0

/-! ## Calls (`fs/operations.c`) -/

/-- `_tfs_open_unsynchronized` up to `add_to_open_file_table`: the number and the offset of
the entry to add, or nothing where the open fails. -/
def openFile (fs : FS) (name : CString) (flags : BitVec 32) :
    Option (Option (Int × Nat) × FS) :=
  if 0 ≤ tfsLookup fs name then
    match inodeGet (tfsLookup fs name) with
    | none => some (none, fs)
    | some n =>
        match truncateOpened fs n flags with
        | none => some (none, fs)
        | some fs' =>
            some (some (tfsLookup fs name,
              if hasFlag flags tfsOAppend then (fs'.inodeTable n).iSize else 0), fs')
  else if hasFlag flags tfsOCreat then
    match inodeCreate fs .tFile with
    | (inum, fs') =>
        if inum = -1 then some (none, fs')
        -- `name + 1` of an empty path is outside the string
        else if name.bytes = [] then none
        else
          match addDirEntry fs' rootDirInum inum name.tail with
          | (r, fs'') =>
              if r = -1 then some (none, (inodeDelete fs'' inum).2)
              else some (some (inum, 0), fs'')
  else some (none, fs)

/-- `_tfs_open_unsynchronized`. All it does before `add_to_open_file_table` is one step: the other
calls come to the tables and the blocks with the global lock only. -/
def tfsOpenUnsynchronized (name : CString) (flags : BitVec 32) : Op S Int :=
  -- the result is read off the state that the step finds
  act (fun s => (openFile s.fs name flags).map fun p => s.setFs p.2) fun s =>
    match openFile s.fs name flags with
    | some (some (inumber, offset), _) => addToOpenFileTable inumber offset
    | _ => ret (-1)

/-- `tfs_open`. -/
def tfsOpen (name : CString) (flags : BitVec 32) : Op S Int := do
  lock .openFilesMutex
  let flag ← read fun s => s.fs.openFlag
  if flag = 0 then
    unlock .openFilesMutex
    pure (-1)
  else
    unlock .openFilesMutex
    lock .singleGlobalLock
    let r ← tfsOpenUnsynchronized name flags
    unlock .singleGlobalLock
    pure r

/-- `tfs_close`. -/
def tfsClose (fhandle : Int) : Op S Int := do
  lock .singleGlobalLock
  let r ← removeFromOpenFileTable fhandle
  unlock .singleGlobalLock
  pure r

/-- `tfs_destroy_after_all_closed`; `state_destroy` does nothing. -/
def tfsDestroyAfterAllClosed : Op S Int := do
  lock .openFilesMutex
  await .openFilesCond .openFilesMutex (fun s => s.fs.openFilesCount = 0) (ret ())
  modify fun s => s.setFs (setFlag s.fs 0)
  unlock .openFilesMutex
  pure 0

/-! ## One thread alone -/

theorem tfsOpenUnsynchronized_eq (fs : FS) (name : CString) (flags : BitVec 32) :
    Part2.tfsOpenUnsynchronized fs name flags = (openFile fs name flags).map fun p =>
      match p.1 with
      | some (inumber, offset) => Part2.addToOpenFileTable p.2 inumber offset
      | none => (-1, p.2) := by
  unfold Part2.tfsOpenUnsynchronized openFile
  by_cases hfound : 0 ≤ tfsLookup fs name
  · rw [if_pos hfound, if_pos hfound]
    cases inodeGet (tfsLookup fs name) with
    | none => rfl
    | some n =>
        cases htrunc : truncateOpened fs n flags with
        | none => simp only [htrunc, Option.map_some]
        | some fs' => simp only [htrunc, Option.map_some]
  · rw [if_neg hfound, if_neg hfound]
    by_cases hcreat : hasFlag flags tfsOCreat = true
    · rw [if_pos hcreat, if_pos hcreat]
      simp only
      split
      · rfl
      · split
        · rfl
        · split
          · rfl
          · rfl
    · rw [if_neg hcreat, if_neg hcreat]
      rfl

theorem addToOpenFileTable_eval (inumber : Int) (offset : Nat) (s : Shared S) :
    (addToOpenFileTable inumber offset : Op S Int).eval s =
      some ((Part2.addToOpenFileTable s.fs inumber offset).1,
        s.setFs (Part2.addToOpenFileTable s.fs inumber offset).2) := by
  unfold addToOpenFileTable Part2.addToOpenFileTable
  simp only [bind_eq, pure_eq, eval_read]
  cases firstFit fun h => s.fs.freeOpenFileEntries h = .free with
  | none => rfl
  | some h => simp [markTaken, setCount]

theorem removeFromOpenFileTable_eval (fhandle : Int) (s : Shared S) :
    (removeFromOpenFileTable fhandle : Op S Int).eval s =
      some ((Part2.removeFromOpenFileTable s.fs fhandle).1,
        s.setFs (Part2.removeFromOpenFileTable s.fs fhandle).2) := by
  unfold removeFromOpenFileTable Part2.removeFromOpenFileTable
  cases index? maxOpenFiles fhandle with
  | none => rfl
  | some h =>
      simp only [bind_eq, pure_eq, eval_read]
      by_cases htaken : s.fs.freeOpenFileEntries h = .taken
      · by_cases hlast : s.fs.openFilesCount - 1 = 0
        · simp [htaken, markFree, setCount, hlast]
        · simp [htaken, markFree, setCount, hlast]
      · rw [if_pos htaken, if_pos htaken]
        rfl

/-- A thread alone opens as `tfsOpen` does. -/
theorem tfsOpen_eval (name : CString) (flags : BitVec 32) (s : Shared S) :
    (tfsOpen name flags : Op S Int).eval s =
      (Part2.tfsOpen s.fs name flags).map fun p => (p.1, s.setFs p.2) := by
  unfold tfsOpen Part2.tfsOpen
  simp only [bind_eq, pure_eq, eval_lock, eval_read]
  split
  · rfl
  · rw [tfsOpenUnsynchronized_eq, eval_unlock, eval_lock, eval_bind, tfsOpenUnsynchronized]
    cases hopen : openFile s.fs name flags with
    | none => rw [eval_act_of_none (by simp [hopen])]; rfl
    | some p =>
        rcases p with ⟨found, fs'⟩
        have heffect :
            (openFile s.fs name flags).map (fun p => s.setFs p.2) = some (s.setFs fs') := by
          simp [hopen]
        rw [eval_act_of_some heffect, hopen]
        cases found with
        | none => rfl
        | some entry => simp only [addToOpenFileTable_eval]; rfl

/-- A thread alone closes as `tfsClose` does. -/
theorem tfsClose_eval (fhandle : Int) (s : Shared S) :
    (tfsClose fhandle : Op S Int).eval s =
      some ((Part2.tfsClose s.fs fhandle).1, s.setFs (Part2.tfsClose s.fs fhandle).2) := by
  unfold tfsClose
  simp only [bind_eq, pure_eq, eval_bind, removeFromOpenFileTable_eval]
  rfl

/-! ## The worker (`fs/tfs_server.c`) -/

/-- The requests about opening, closing and shutting down. -/
inductive Request where
  | open (name : CString) (flags : BitVec 32)
  | close (fhandle : Int)
  | shutdown
deriving DecidableEq

/-- `case_shutdown`: the process exits, so the worker does not go on. -/
def caseShutdown (i : S) : Op S Int := do
  modify fun s => s.record i
  let _ ← tfsDestroyAfterAllClosed
  lock .shuttingDownLock
  modify fun s => { s with shuttingDown := true }
  unlock .shuttingDownLock
  crash

/-- The switch of `thread_handler`. -/
def serve (i : S) : Request → Op S Int
  | .open name flags => tfsOpen name flags
  | .close fhandle => tfsClose fhandle
  | .shutdown => caseShutdown i

/-- One round of `thread_handler`, from the moment its session has a request. -/
def threadHandler (i : S) (request : Request) : Op S Int := do
  lock (.session i)
  lock .shuttingDownLock
  let called ← read fun s => s.shutdownCalled
  if called ∧ request = .shutdown then
    unlock .shuttingDownLock
    unlock (.session i)
    pure (-1)
  else
    modify fun s => if request = .shutdown then s.accept i else s
    unlock .shuttingDownLock
    let r ← serve i request
    unlock (.session i)
    pure r

end TecnicoFS.Part2.Concurrent
