import TecnicoFS.Lib.Linear
import TecnicoFS.Lib.Schedule
import TecnicoFS.Part2.Closing
import TecnicoFS.Part2.Handles
import TecnicoFS.Part2.Refinement

/-!
# Part 2: the calls of many threads are linearizable

`tfs_lookup`, `tfs_open`, `tfs_close`, `tfs_write` and `tfs_read` as threads run them, under the
global lock. In a read, a write, a close and a lookup every access to a table, a block or a counter
is a step of its own; in an open the body up to the handle table is one step, which touches nothing
that another thread reaches without the global lock. Only `tfs_open` does something before it
takes the lock, and then it reads `open_flag`, which stays set until the shutdown.

So any number of threads may call the library at once: `library_linearizable` orders their calls
so that the results are those of the library called by one thread, and a call that had returned
before another one began comes before it.
-/

namespace TecnicoFS.Part2.Concurrent

open Threads Threads.Prog

variable {S : Type}

/-! ## Assignments -/

/-- `free_blocks[b] = TAKEN`. -/
def takeBlock (fs : FS) (b : Fin dataBlocks) : FS :=
  { fs with freeBlocks := Function.update fs.freeBlocks b .taken }

/-- `inode->i_data_block = b`. -/
def setDataBlock (fs : FS) (n : Fin inodeTableSize) (b : Int) : FS :=
  { fs with
    inodeTable := Function.update fs.inodeTable n { fs.inodeTable n with iDataBlock := b } }

/-- `inode->i_size = size`. -/
def setSize (fs : FS) (n : Fin inodeTableSize) (size : Nat) : FS :=
  { fs with
    inodeTable := Function.update fs.inodeTable n { fs.inodeTable n with iSize := size } }

/-- `file->of_offset += count`. -/
def advance (fs : FS) (h : Fin maxOpenFiles) (count : Nat) : FS :=
  { fs with
    openFileTable := Function.update fs.openFileTable h
      { fs.openFileTable h with ofOffset := wordAdd (fs.openFileTable h).ofOffset count } }

/-- `memcpy(block + offset, buffer, count)`, which must stay in the block. -/
def copyIn (fs : FS) (b : Fin dataBlocks) (offset : Nat) (bytes : List UInt8) (count : Nat) :
    Option FS :=
  if blockSize < offset + count then none
  else some { fs with
    fsData := Memory.store fs.fsData (blockAddr b + offset) (bytes.take count) }

/-! ## Calls (`fs/state.c`, `fs/operations.c`) -/

/-- The loop of `find_in_dir` over the entries of the directory. -/
def findEntry (b : Fin dataBlocks) (subName : CString) : List (Fin maxDirEntries) → Op S Int
  | [] => pure (-1)
  | i :: rest => do
      let inumber ← read fun s => dInumber s.fs.fsData (entryAddr b i)
      let name ← read fun s => dName s.fs.fsData (entryAddr b i)
      if inumber ≠ -1 ∧ strncmp maxFileName name subName.cells = 0 then
        read fun s => dInumber s.fs.fsData (entryAddr b i)
      else findEntry b subName rest

/-- `find_in_dir`. -/
def findInDir (inumber : Int) (subName : CString) : Op S Int :=
  match index? inodeTableSize inumber with
  | none => pure (-1)
  | some n => do
      let type ← read fun s => (s.fs.inodeTable n).iNodeType
      if type ≠ .tDirectory then pure (-1)
      else
        let block ← read fun s => (s.fs.inodeTable n).iDataBlock
        match dataBlockGet block with
        | none => pure (-1)
        | some b => findEntry b subName (List.finRange maxDirEntries)

/-- `_tfs_lookup_unsynchronized`. -/
def tfsLookupUnsynchronized (name : CString) : Op S Int :=
  if validPathname name then findInDir rootDirInum name.tail else pure (-1)

/-- `tfs_lookup`. -/
def tfsLookup (name : CString) : Op S Int := do
  lock .singleGlobalLock
  let r ← tfsLookupUnsynchronized name
  unlock .singleGlobalLock
  pure r

/-- `data_block_alloc`. -/
def dataBlockAlloc : Op S Int := do
  let free ← read fun s => firstFit fun b => s.fs.freeBlocks b = .free
  match free with
  | none => pure (-1)
  | some b => do
      modify fun s => s.setFs (takeBlock s.fs b)
      pure ((b : Nat) : Int)

/-- The allocation step of `_tfs_write_unsynchronized`. -/
def allocIfEmpty (n : Fin inodeTableSize) : Op S Unit := do
  let size ← read fun s => (s.fs.inodeTable n).iSize
  if size = 0 then
    let b ← dataBlockAlloc
    modify fun s => s.setFs (setDataBlock s.fs n b)
  else pure ()

/-- A write past the end of the file makes it longer. -/
def growTo (h : Fin maxOpenFiles) (n : Fin inodeTableSize) : Op S Unit := do
  let offset ← read fun s => (s.fs.openFileTable h).ofOffset
  let size ← read fun s => (s.fs.inodeTable n).iSize
  if size < offset then modify fun s => s.setFs (setSize s.fs n offset)
  else pure ()

/-- `_tfs_write_unsynchronized`. -/
def tfsWriteUnsynchronized (fhandle : Int) (buffer : List UInt8) : Op S Int :=
  match getOpenFileEntry fhandle with
  | none => pure (-1)
  | some h => do
      let inumber ← read fun s => (s.fs.openFileTable h).ofInumber
      match inodeGet inumber with
      | none => pure (-1)
      | some n => do
          let offset ← read fun s => (s.fs.openFileTable h).ofOffset
          let toWrite := clipWrite buffer.length offset
          if toWrite = 0 then pure (wordToInt toWrite)
          else
            allocIfEmpty n
            let block ← read fun s => (s.fs.inodeTable n).iDataBlock
            match dataBlockGet block with
            | none => pure (-1)
            | some b => do
                let offset ← read fun s => (s.fs.openFileTable h).ofOffset
                modify? fun s => (copyIn s.fs b offset buffer toWrite).map s.setFs
                modify fun s => s.setFs (advance s.fs h toWrite)
                growTo h n
                pure (wordToInt toWrite)

/-- `tfs_write`. -/
def tfsWrite (fhandle : Int) (buffer : List UInt8) : Op S Int := do
  lock .singleGlobalLock
  let r ← tfsWriteUnsynchronized fhandle buffer
  unlock .singleGlobalLock
  pure r

/-- `memcpy(buffer, block + offset, count)`, which must stay in `fs_data`. -/
def copyOut (b : Fin dataBlocks) (offset count : Nat) : Op S (List UInt8) :=
  if fsDataSize < blockAddr b + offset + count then crash
  else read fun s => Memory.load s.fs.fsData (blockAddr b + offset) count

/-- `_tfs_read_unsynchronized`: the returned count and the bytes that the caller gets. -/
def tfsReadUnsynchronized (fhandle : Int) (len : Nat) : Op S (Int × List UInt8) :=
  match getOpenFileEntry fhandle with
  | none => pure (-1, [])
  | some h => do
      let inumber ← read fun s => (s.fs.openFileTable h).ofInumber
      match inodeGet inumber with
      | none => pure (-1, [])
      | some n => do
          let size ← read fun s => (s.fs.inodeTable n).iSize
          let offset ← read fun s => (s.fs.openFileTable h).ofOffset
          let toRead := clipRead size offset len
          if toRead = 0 then pure (wordToInt toRead, [])
          else
            let block ← read fun s => (s.fs.inodeTable n).iDataBlock
            match dataBlockGet block with
            | none => pure (-1, [])
            | some b => do
                let offset ← read fun s => (s.fs.openFileTable h).ofOffset
                let bytes ← copyOut b offset toRead
                modify fun s => s.setFs (advance s.fs h toRead)
                pure (wordToInt toRead, bytes)

/-- `tfs_read`. -/
def tfsRead (fhandle : Int) (len : Nat) : Op S (Int × List UInt8) := do
  lock .singleGlobalLock
  let r ← tfsReadUnsynchronized fhandle len
  unlock .singleGlobalLock
  pure r

/-- The calls of the library as programs. -/
def exec : Call → Op S Ret
  | .lookup name => do
      let r ← tfsLookup name
      pure ⟨r, []⟩
  | .open name flags => do
      let r ← tfsOpen name flags
      pure ⟨r, []⟩
  | .close fhandle => do
      let r ← tfsClose fhandle
      pure ⟨r, []⟩
  | .write fhandle buffer => do
      let r ← tfsWrite fhandle buffer
      pure ⟨r, []⟩
  | .read fhandle len => do
      let r ← tfsRead fhandle len
      pure ⟨r.1, r.2⟩

/-! ## One thread alone -/

theorem eval_modify?_of_some {α : Type} {f : Shared S → Option (Shared S)}
    {k : Unit → Op S α} {s s' : Shared S} (h : f s = some s') :
    eval ((modify? f).bind k) s = eval (k ()) s' := eval_act_of_some h

theorem findEntry_eval (b : Fin dataBlocks) (subName : CString) (s : Shared S)
    (entries : List (Fin maxDirEntries)) :
    (findEntry b subName entries).eval s =
      some (match entries.find? fun i : Fin maxDirEntries =>
          decide (dInumber s.fs.fsData (entryAddr b i) ≠ -1 ∧
            strncmp maxFileName (dName s.fs.fsData (entryAddr b i)) subName.cells = 0) with
        | none => -1
        | some i => dInumber s.fs.fsData (entryAddr b i), s) := by
  induction entries with
  | nil => rfl
  | cons i rest ih =>
      rw [findEntry]
      simp only [bind_eq, eval_read]
      split
      · rename_i hfound
        rw [List.find?_cons_of_pos (by simpa using hfound)]
        rfl
      · rename_i hnot
        rw [List.find?_cons_of_neg (by simpa using hnot), ih]

theorem findInDir_eval (inumber : Int) (subName : CString) (s : Shared S) :
    (findInDir inumber subName).eval s = some (Part2.findInDir s.fs inumber subName, s) := by
  unfold findInDir Part2.findInDir
  cases index? inodeTableSize inumber with
  | none => rfl
  | some n =>
      simp only [bind_eq, pure_eq, eval_read]
      split
      · rfl
      · rw [eval_read]
        cases dataBlockGet (s.fs.inodeTable n).iDataBlock with
        | none => rfl
        | some b =>
            simp only [firstFit_eq_find?]
            exact findEntry_eval b subName s _

theorem tfsLookup_eval (name : CString) (s : Shared S) :
    (tfsLookup name).eval s = some (Part2.tfsLookup s.fs name, s) := by
  rw [tfsLookup, bind_eq, eval_lock, bind_eq, eval_bind]
  unfold tfsLookupUnsynchronized Part2.tfsLookup
  split
  · rw [findInDir_eval]
    rfl
  · rfl

theorem dataBlockAlloc_eval (s : Shared S) :
    dataBlockAlloc.eval s =
      some ((Part2.dataBlockAlloc s.fs).1, s.setFs (Part2.dataBlockAlloc s.fs).2) := by
  unfold dataBlockAlloc Part2.dataBlockAlloc
  simp only [bind_eq, pure_eq, eval_read]
  cases firstFit fun b => s.fs.freeBlocks b = .free with
  | none => rfl
  | some b => rfl

theorem allocIfEmpty_eval (n : Fin inodeTableSize) (s : Shared S) :
    (allocIfEmpty n).eval s = some ((), s.setFs (Part2.allocIfEmpty s.fs n)) := by
  unfold allocIfEmpty Part2.allocIfEmpty
  simp only [bind_eq, pure_eq, eval_read]
  split
  · rw [eval_bind, dataBlockAlloc_eval]
    rcases Part2.dataBlockAlloc s.fs with ⟨b, fs'⟩
    rfl
  · rfl

/-- The size after a write is the larger one of the old size and the offset. -/
theorem eval_growTo {α : Type} (h : Fin maxOpenFiles) (n : Fin inodeTableSize)
    (k : Unit → Op S α) (s : Shared S) :
    eval ((growTo h n).bind k) s = eval (k ()) (s.setFs (setSize s.fs n
      (max (s.fs.inodeTable n).iSize (s.fs.openFileTable h).ofOffset))) := by
  unfold growTo
  simp only [bind_eq, pure_eq, Prog.bind_assoc, eval_read]
  split
  · rename_i hlt
    rw [Nat.max_eq_right hlt.le]
    rfl
  · rename_i hge
    rw [Nat.max_eq_left (Nat.le_of_not_lt hge)]
    simp [setSize, Shared.setFs]

theorem tfsWriteUnsynchronized_eval (fhandle : Int) (buffer : List UInt8) (s : Shared S) :
    (tfsWriteUnsynchronized fhandle buffer).eval s =
      (Part2.tfsWrite s.fs fhandle buffer).map fun p => (p.1, s.setFs p.2) := by
  unfold tfsWriteUnsynchronized Part2.tfsWrite
  cases getOpenFileEntry fhandle with
  | none => rfl
  | some h =>
      simp only [bind_eq, pure_eq, eval_read]
      cases inodeGet (s.fs.openFileTable h).ofInumber with
      | none => rfl
      | some n =>
          simp only [eval_read]
          split
          · rfl
          · rw [eval_bind, allocIfEmpty_eval]
            simp only [Option.bind_some, eval_read, Shared.setFs_fs]
            cases dataBlockGet ((Part2.allocIfEmpty s.fs n).inodeTable n).iDataBlock with
            | none => rfl
            | some b =>
                simp only [eval_read, Shared.setFs_fs, allocIfEmpty_openFileTable]
                split
                · rename_i hcrash
                  exact eval_act_of_none (by simp [copyIn, hcrash])
                · rename_i hfits
                  rw [eval_modify?_of_some (by rw [copyIn, if_neg hfits, Option.map_some])]
                  simp only [eval_modify, eval_growTo]
                  simp [advance, setSize, allocIfEmpty_openFileTable]

/-- A thread alone writes as `tfsWrite` does. -/
theorem tfsWrite_eval (fhandle : Int) (buffer : List UInt8) (s : Shared S) :
    (tfsWrite fhandle buffer).eval s =
      (Part2.tfsWrite s.fs fhandle buffer).map fun p => (p.1, s.setFs p.2) := by
  rw [tfsWrite, bind_eq, eval_lock, bind_eq, eval_bind, tfsWriteUnsynchronized_eval]
  cases Part2.tfsWrite s.fs fhandle buffer with
  | none => rfl
  | some p => rfl

theorem tfsReadUnsynchronized_eval (fhandle : Int) (len : Nat) (s : Shared S) :
    (tfsReadUnsynchronized fhandle len).eval s =
      (Part2.tfsRead s.fs fhandle len).map fun p => (p.1, s.setFs p.2) := by
  unfold tfsReadUnsynchronized Part2.tfsRead
  cases getOpenFileEntry fhandle with
  | none => rfl
  | some h =>
      simp only [bind_eq, pure_eq, eval_read]
      cases inodeGet (s.fs.openFileTable h).ofInumber with
      | none => rfl
      | some n =>
          simp only [eval_read]
          split
          · rfl
          · simp only [eval_read]
            cases dataBlockGet (s.fs.inodeTable n).iDataBlock with
            | none => rfl
            | some b =>
                simp only [eval_read, copyOut]
                split
                · rfl
                · rfl

/-- A thread alone reads as `tfsRead` does. -/
theorem tfsRead_eval (fhandle : Int) (len : Nat) (s : Shared S) :
    (tfsRead fhandle len).eval s =
      (Part2.tfsRead s.fs fhandle len).map fun p => (p.1, s.setFs p.2) := by
  rw [tfsRead, bind_eq, eval_lock, bind_eq, eval_bind, tfsReadUnsynchronized_eval]
  cases Part2.tfsRead s.fs fhandle len with
  | none => rfl
  | some p => rfl

/-- A thread alone computes what the library does. -/
theorem exec_eval (c : Call) (s : Shared S) :
    (exec c).eval s = (Part2.exec s.fs c).map fun p => (p.1, s.setFs p.2) := by
  cases c with
  | lookup name =>
      rw [exec, Part2.exec, bind_eq, eval_bind, tfsLookup_eval]
      rfl
  | «open» name flags =>
      rw [exec, Part2.exec, bind_eq, eval_bind, tfsOpen_eval]
      cases Part2.tfsOpen s.fs name flags with
      | none => rfl
      | some p => rfl
  | close fhandle =>
      rw [exec, Part2.exec, bind_eq, eval_bind, tfsClose_eval]
      rfl
  | write fhandle buffer =>
      rw [exec, Part2.exec, bind_eq, eval_bind, tfsWrite_eval]
      cases Part2.tfsWrite s.fs fhandle buffer with
      | none => rfl
      | some p => rfl
  | read fhandle len =>
      rw [exec, Part2.exec, bind_eq, eval_bind, tfsRead_eval]
      cases Part2.tfsRead s.fs fhandle len with
      | none => rfl
      | some p => rfl

/-! ## The critical section -/

/-- `open_flag` is set: nobody has shut the server down. -/
def Running (s : Shared S) : Prop := s.fs.openFlag = 1

/-- Works on the tables, which the global lock guards. -/
abbrev Guarded {α : Type} (p : Op S α) : Prop := Guards .singleGlobalLock Running p

theorem findEntry_guarded (b : Fin dataBlocks) (subName : CString)
    (entries : List (Fin maxDirEntries)) : Guarded (findEntry b subName entries : Op S Int) := by
  induction entries with
  | nil => exact guards_ret _
  | cons i rest ih =>
      rw [findEntry]
      refine (guards_read _).bind fun inumber => (guards_read _).bind fun name => ?_
      split
      · exact guards_read _
      · exact ih

theorem findInDir_guarded (inumber : Int) (subName : CString) :
    Guarded (findInDir inumber subName : Op S Int) := by
  unfold findInDir
  split
  · exact guards_ret _
  · refine (guards_read _).bind fun type => ?_
    split
    · exact guards_ret _
    · refine (guards_read _).bind fun block => ?_
      split
      · exact guards_ret _
      · exact findEntry_guarded _ _ _

theorem dataBlockAlloc_guarded : Guarded (dataBlockAlloc : Op S Int) := by
  unfold dataBlockAlloc
  refine (guards_read _).bind fun free => ?_
  split
  · exact guards_ret _
  · exact Guards.bind (guards_modify fun _ hrun => hrun) fun _ => guards_ret _

theorem allocIfEmpty_guarded (n : Fin inodeTableSize) :
    Guarded (allocIfEmpty n : Op S Unit) := by
  unfold allocIfEmpty
  refine (guards_read _).bind fun size => ?_
  split
  · exact dataBlockAlloc_guarded.bind fun b => guards_modify fun _ hrun => hrun
  · exact guards_ret _

theorem growTo_guarded (h : Fin maxOpenFiles) (n : Fin inodeTableSize) :
    Guarded (growTo h n : Op S Unit) := by
  unfold growTo
  refine (guards_read _).bind fun offset => (guards_read _).bind fun size => ?_
  split
  · exact guards_modify fun _ hrun => hrun
  · exact guards_ret _

theorem tfsWriteUnsynchronized_guarded (fhandle : Int) (buffer : List UInt8) :
    Guarded (tfsWriteUnsynchronized fhandle buffer : Op S Int) := by
  unfold tfsWriteUnsynchronized
  split
  · exact guards_ret _
  · refine (guards_read _).bind fun inumber => ?_
    split
    · exact guards_ret _
    · rename_i n _
      refine (guards_read _).bind fun offset => ?_
      simp only
      split
      · exact guards_ret _
      · refine (allocIfEmpty_guarded n).bind fun _ => (guards_read _).bind fun block => ?_
        split
        · exact guards_ret _
        · refine (guards_read _).bind fun offset => ?_
          refine Guards.bind (guards_modify? fun s s' hrun hcopy => ?_) fun _ => ?_
          · obtain ⟨fs', hfs, rfl⟩ := Option.map_eq_some_iff.mp hcopy
            unfold copyIn at hfs
            split at hfs
            · cases hfs
            · cases hfs
              exact hrun
          · refine Guards.bind (guards_modify fun _ hrun => hrun) fun _ => ?_
            exact (growTo_guarded _ n).bind fun _ => guards_ret _

theorem tfsReadUnsynchronized_guarded (fhandle : Int) (len : Nat) :
    Guarded (tfsReadUnsynchronized fhandle len : Op S (Int × List UInt8)) := by
  unfold tfsReadUnsynchronized
  split
  · exact guards_ret _
  · refine (guards_read _).bind fun inumber => ?_
    split
    · exact guards_ret _
    · refine (guards_read _).bind fun size => (guards_read _).bind fun offset => ?_
      simp only
      split
      · exact guards_ret _
      · refine (guards_read _).bind fun block => ?_
        split
        · exact guards_ret _
        · refine (guards_read _).bind fun offset => ?_
          refine Guards.bind ?_ fun bytes =>
            Guards.bind (guards_modify fun _ hrun => hrun) fun _ => guards_ret _
          unfold copyOut
          split
          · exact guards_crash
          · exact guards_read _

theorem addToOpenFileTable_guarded (inumber : Int) (offset : Nat) :
    Guarded (addToOpenFileTable inumber offset : Op S Int) := by
  unfold addToOpenFileTable
  refine (guards_read _).bind fun free => ?_
  split
  · exact guards_ret _
  · refine (guards_lock (by simp)).bind fun _ => ?_
    refine Guards.bind (guards_modify fun _ hrun => hrun) fun _ => ?_
    refine Guards.bind (guards_modify fun _ hrun => hrun) fun _ => ?_
    exact (guards_unlock (by simp)).bind fun _ => guards_ret _

theorem removeFromOpenFileTable_guarded (fhandle : Int) :
    Guarded (removeFromOpenFileTable fhandle : Op S Int) := by
  unfold removeFromOpenFileTable
  split
  · exact guards_ret _
  · refine (guards_read _).bind fun state => ?_
    split
    · exact guards_ret _
    · rename_i h _ _
      refine (guards_lock (by simp)).bind fun _ => ?_
      refine Guards.bind (guards_modify fun _ hrun => hrun) fun _ => ?_
      refine (guards_read _).bind fun count => ?_
      simp only
      have hlast : Guarded ((Prog.modify fun s => s.setFs (markFree s.fs h)).bind fun _ =>
          (unlock .openFilesMutex).bind fun _ => (ret 0 : Op S Int)) := by
        refine Guards.bind (guards_modify fun _ hrun => hrun) fun _ => ?_
        exact (guards_unlock (by simp)).bind fun _ => guards_ret _
      split
      · exact guards_wakeOne.bind fun _ => hlast
      · exact hlast

theorem tfsOpenUnsynchronized_guarded (name : CString) (flags : BitVec 32) :
    Guarded (tfsOpenUnsynchronized name flags : Op S Int) := by
  refine ⟨fun s => ?_, fun s s' hrun hopen => ⟨?_, ?_⟩⟩
  · simp only
    split
    · exact (addToOpenFileTable_guarded _ _).1
    · trivial
  · obtain ⟨⟨found, fs'⟩, hfs, rfl⟩ := Option.map_eq_some_iff.mp hopen
    exact (openFile_sameHandles hfs).flag.trans hrun
  · simp only
    split
    · exact (addToOpenFileTable_guarded _ _).2
    · trivial

/-! ## The calls -/

/-- While the server runs, an open finds the flag set. -/
theorem tfsOpen_enters {α : Type} (name : CString) (flags : BitVec 32) (f : Int → α) :
    Enters .singleGlobalLock Running
      ((tfsOpen name flags).bind fun r => (ret (f r) : Op S α)) := by
  obtain ⟨hnoWait, hentering⟩ :=
    Guards.enters (tfsOpenUnsynchronized_guarded (S := S) name flags) f
  unfold tfsOpen
  simp only [bind_eq, pure_eq, Prog.bind_assoc, ret_bind] at hnoWait hentering ⊢
  constructor
  · intro s
    simp only [ret_bind]
    split
    · trivial
    · simp only [Prog.bind_assoc, ret_bind]
      exact hnoWait
  · rw [muffle_bind, muffle_lock]
    refine entering_lock_of_ne (by simp) ?_
    rw [muffle_bind, muffle_read]
    refine entering_read (fun s s' hrun hrun' => hrun.trans hrun'.symm) fun s hrun => ?_
    rw [if_neg (by rw [hrun]; decide)]
    simp only [Prog.bind_assoc, ret_bind]
    exact ⟨by simp, hentering⟩

/-- Every call does its work in one critical section of the global lock. -/
theorem exec_enters (c : Call) : Enters .singleGlobalLock Running (exec c : Op S Ret) := by
  cases c with
  | lookup name =>
      have hbody : Guarded (tfsLookupUnsynchronized name : Op S Int) := by
        unfold tfsLookupUnsynchronized
        split
        · exact findInDir_guarded _ _
        · exact guards_ret _
      exact hbody.enters fun r => (⟨r, []⟩ : Ret)
  | «open» name flags => exact tfsOpen_enters name flags fun r => (⟨r, []⟩ : Ret)
  | close fhandle => exact (removeFromOpenFileTable_guarded fhandle).enters fun r => (⟨r, []⟩ : Ret)
  | write fhandle buffer =>
      exact (tfsWriteUnsynchronized_guarded fhandle buffer).enters fun r => (⟨r, []⟩ : Ret)
  | read fhandle len =>
      exact (tfsReadUnsynchronized_guarded fhandle len).enters fun r => (⟨r.1, r.2⟩ : Ret)

/-- Calls that run one after the other are a run of the library. -/
theorem run_of_serial {fs : FS} {order : List (Call × Ret)} {s : Shared S}
    (h : Serial exec (Shared.start fs) order s) :
    ∃ fs', s = Shared.start fs' ∧
      machine.run fs (order.map Prod.fst) = some (order.map Prod.snd, fs') := by
  induction h with
  | nil => exact ⟨fs, rfl, rfl⟩
  | snoc _ heval ih =>
      obtain ⟨fs', rfl, hrun⟩ := ih
      rw [exec_eval, Shared.start_fs] at heval
      obtain ⟨⟨r, fs''⟩, hexec, heq⟩ := Option.map_eq_some_iff.mp heval
      obtain ⟨rfl, rfl⟩ := Prod.mk.inj heq
      refine ⟨fs'', rfl, ?_⟩
      rw [List.map_append, List.map_append]
      exact Machine.run_snoc hrun hexec

theorem init_running : Running (Shared.start machine.init : Shared S) := by
  unfold Running
  rw [Shared.start_fs, machine_init]
  rfl

/-- Any number of threads call the library, and their steps interleave in any order. At every
moment the calls that have returned, and some that are running, stand in an order that agrees
with real time, in which the library called by one thread gives the same results; and where that
thread keeps to what the abstract file system answers, it gives the same results too. -/
theorem library_linearizable {T : Type} [DecidableEq T] [DecidableEq S]
    {cfg : Config T (Shared S) (Lock S) Cond Call Ret}
    (hreach : Reach exec (Shared.start machine.init) (fun _ _ _ => True) cfg) :
    ∃ order fs, Linearizes exec (Shared.start machine.init) cfg order (Shared.start fs) ∧
      machine.run machine.init (order.map Done.call) = some (order.map Done.result, fs) ∧
      (machine.Admits Allowed machine.init (order.map Done.call) →
        ∃ store, Abstract.machine.run Abstract.machine.init (order.map Done.call) =
          some (order.map Done.result, store)) := by
  have hstarts : Reach exec (Shared.start machine.init) (Starts fun _ => True) cfg :=
    hreach.mono fun _ _ _ _ _ _ _ => trivial
  obtain ⟨order, base, hlin⟩ := hstarts.linearized init_running fun c _ => exec_enters c
  obtain ⟨fs, rfl, hrun⟩ := run_of_serial hlin.serial
  rw [List.map_map, List.map_map] at hrun
  refine ⟨order, fs, hlin, hrun, fun hadmits => ?_⟩
  obtain ⟨results, store, fs', habs, hrun', -⟩ :=
    Machine.run_refines Abstract.machine machine Sim Allowed sim_step _ _ _ sim_init hadmits
  have hsame := hrun.symm.trans hrun'
  simp only [Option.some.injEq, Prod.mk.injEq] at hsame
  obtain ⟨rfl, -⟩ := hsame
  exact ⟨store, habs⟩

/-- Thread 1 asks for the file that thread 0 is creating, and reads what thread 0 writes. -/
theorem library_linearizable_two :
    ∃ (cfg : Config (Fin 2) (Shared Unit) (Lock Unit) Cond Call Ret),
      (cfg.log.map fun d => d.result) = [⟨0, []⟩, ⟨3, []⟩, ⟨1, []⟩, ⟨2, [1, 2]⟩] ∧
      ∃ order fs, Linearizes exec (Shared.start machine.init) cfg order (Shared.start fs) ∧
        machine.run machine.init (order.map Done.call) = some (order.map Done.result, fs) ∧
        (machine.Admits Allowed machine.init (order.map Done.call) →
          ∃ store, Abstract.machine.run Abstract.machine.init (order.map Done.call) =
            some (order.map Done.result, store)) := by
  have hplay : ((Config.init (Shared.start initState)).play exec (fun _ _ _ => True)
      ((0, some (.open pathA tfsOCreat)) :: List.replicate 6 (0, none) ++
        (1, some (.open pathA 0)) :: List.replicate 6 (0, none) ++
        (0, some (.write 0 [1, 2, 3])) :: List.replicate 4 (0, none) ++
        List.replicate 3 (1, none) ++ List.replicate 12 (0, none) ++ List.replicate 9 (1, none) ++
        (1, some (.read 1 2)) :: List.replicate 10 (1, none))).map
        (fun cfg : Config (Fin 2) (Shared Unit) (Lock Unit) Cond Call Ret =>
          decide ((cfg.log.map fun d => d.result) =
            [⟨0, []⟩, ⟨3, []⟩, ⟨1, []⟩, ⟨2, [1, 2]⟩])) = some true := by
    decide +kernel
  rw [← machine_init] at hplay
  obtain ⟨cfg, hplay, hfacts⟩ := Option.map_eq_some_iff.mp hplay
  exact ⟨cfg, of_decide_eq_true hfacts, library_linearizable (Reach.init.play hplay)⟩

end TecnicoFS.Part2.Concurrent
