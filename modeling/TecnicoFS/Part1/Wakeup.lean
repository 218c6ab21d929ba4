import TecnicoFS.Lib.Wakeup
import TecnicoFS.Part1.Start

/-!
# Part 1: the thread that brings the counter to 0 signals

`tfs_destroy_after_all_closed` waits for `open_files_count` to be 0. Only `tfs_open` and `tfs_close`
touch the counter, at their end: `remove_from_open_file_table` signals with the mutex in its hands
where it has brought the counter to 0, and `add_to_open_file_table` does not bring it there, as
long as it is not negative before.
-/

namespace TecnicoFS.Part1

open Threads Threads.Prog
open Part2 (Call Ret rootDirInum InodeType blockSize dataBlocks inodeTableSize maxOpenFiles
  maxDirEntries dataBlockGet inodeGet getOpenFileEntry)

/-- What `tfs_destroy_after_all_closed` waits for. -/
def allClosed : Condition FS Lock Cond :=
  ⟨.openFilesCond, .openFilesMutex, fun fs => fs.openFilesCount = 0⟩

/-- The counter is not negative, as it is while no two threads close one handle at once. -/
def Counted (fs fs' : FS) : Prop := 0 ≤ fs.openFilesCount ∧ 0 ≤ fs'.openFilesCount

/-- The program has signalled what it owes when it ends, and does not wait. -/
abbrev Tidy {α : Type} (p : Op α) : Prop := Settles allClosed Counted p

/-- An assignment that leaves the counter as it is. -/
theorem tidy_modify {f : FS → FS} (hf : ∀ fs, (f fs).openFilesCount = fs.openFilesCount) :
    Tidy (Prog.modify f) := by
  refine settles_modify fun fs _ hholds => ?_
  have hzero : (f fs).openFilesCount = 0 := of_decide_eq_true hholds
  rw [hf] at hzero
  exact decide_eq_true hzero

theorem tidy_store? {f : FS → Option FS} {a : FS → Nat} {bytes : FS → List UInt8}
    (hf : ∀ fs, f fs = fs.store? (a fs) (bytes fs)) : Tidy (Prog.modify? f) := by
  refine settles_modify? fun fs fs' hstore hzero => ?_
  rw [hf] at hstore
  unfold FS.store? at hstore
  split at hstore
  · cases hstore
    exact hzero
  · cases hstore

/-! ## `fs/state.c` -/

theorem allocFirst_tidy (bs : List (Fin dataBlocks)) : Tidy (allocFirst bs) := by
  induction bs with
  | nil => exact settles_ret _
  | cons b bs ih =>
      rw [allocFirst]
      refine (settles_lock _).bind fun _ => (settles_read _).bind fun state => ?_
      split
      · refine (tidy_modify fun _ => by rfl).bind fun _ => ?_
        exact (settles_unlock _).bind fun _ => settles_ret _
      · exact (settles_unlock _).bind fun _ => ih

theorem dataBlockAlloc_tidy : Tidy dataBlockAlloc := by
  rw [dataBlockAlloc_eq]
  exact allocFirst_tidy _

theorem dataBlockFree_tidy (blockNumber : Int) : Tidy (dataBlockFree blockNumber) := by
  unfold dataBlockFree
  split
  · exact settles_crash
  · refine (settles_lock _).bind fun _ => (tidy_modify fun _ => by rfl).bind fun _ => ?_
    exact (settles_unlock _).bind fun _ => settles_ret _

theorem initInode_tidy (n : Fin inodeTableSize) (nType : InodeType) : Tidy (initInode n nType) := by
  cases nType with
  | tFile =>
      refine (tidy_modify fun _ => by rfl).bind fun _ => ?_
      exact (tidy_modify fun _ => by rfl).bind fun _ => settles_ret _
  | tDirectory =>
      refine (tidy_modify fun _ => by rfl).bind fun _ => dataBlockAlloc_tidy.bind fun b => ?_
      split
      · exact (tidy_modify fun _ => by rfl).bind fun _ => settles_ret _
      · refine (tidy_modify fun _ => by rfl).bind fun _ => ?_
        cases dataBlockGet b with
        | none => exact (tidy_modify fun _ => by rfl).bind fun _ => settles_ret _
        | some b => exact (tidy_modify fun _ => by rfl).bind fun _ => settles_ret _

theorem createFirst_tidy (nType : InodeType) (ns : List (Fin inodeTableSize)) :
    Tidy (createFirst nType ns) := by
  induction ns with
  | nil => exact settles_ret _
  | cons n ns ih =>
      rw [createFirst]
      refine (settles_lock _).bind fun _ => (settles_read _).bind fun state => ?_
      split
      · refine (tidy_modify fun _ => by rfl).bind fun _ => ?_
        exact (settles_unlock _).bind fun _ => initInode_tidy n nType
      · exact (settles_unlock _).bind fun _ => ih

theorem freeDirectBlocks_tidy (n : Fin inodeTableSize) (is : List (Fin maxDirectBlocks)) :
    Tidy (freeDirectBlocks n is) := by
  induction is with
  | nil => exact settles_ret _
  | cons i is ih =>
      rw [freeDirectBlocks]
      refine (settles_read _).bind fun block => ?_
      cases index? dataBlocks block with
      | none => exact settles_crash
      | some b =>
          refine (settles_lock _).bind fun _ => (dataBlockFree_tidy block).bind fun r => ?_
          refine (settles_unlock _).bind fun _ => ?_
          split
          · exact settles_ret _
          · exact ih

theorem inodeDelete_tidy (inumber : Int) : Tidy (inodeDelete inumber) := by
  unfold inodeDelete
  split
  · exact settles_ret _
  · rename_i n _
    refine (settles_read _).bind fun state => ?_
    split
    · exact settles_ret _
    · refine (tidy_modify fun _ => by rfl).bind fun _ => (settles_read _).bind fun size => ?_
      split
      · exact freeDirectBlocks_tidy n _
      · exact settles_ret _

theorem fillFirst_tidy (b : Fin dataBlocks) (subInumber : Int) (subName : CString)
    (is : List (Fin maxDirEntries)) : Tidy (fillFirst b subInumber subName is) := by
  induction is with
  | nil => exact settles_ret _
  | cons i is ih =>
      rw [fillFirst]
      refine (settles_lock _).bind fun _ => (settles_read _).bind fun inumber => ?_
      split
      · refine (tidy_modify fun _ => by rfl).bind fun _ => ?_
        refine (tidy_modify fun _ => by rfl).bind fun _ => ?_
        exact (settles_unlock _).bind fun _ => settles_ret _
      · exact (settles_unlock _).bind fun _ => ih

theorem addDirEntry_tidy (inumber subInumber : Int) (subName : CString) :
    Tidy (addDirEntry inumber subInumber subName) := by
  unfold addDirEntry
  split
  · refine (settles_readLock _).bind fun _ => (settles_read _).bind fun nType => ?_
    refine (settles_unlock _).bind fun _ => ?_
    split
    · exact settles_ret _
    · split
      · exact settles_ret _
      · refine (settles_readLock _).bind fun _ => (settles_read _).bind fun block => ?_
        refine (settles_unlock _).bind fun _ => ?_
        cases dataBlockGet block with
        | none => exact settles_ret _
        | some b => exact fillFirst_tidy b subInumber subName _
  · exact settles_ret _

theorem findFirst_tidy (b : Fin dataBlocks) (subName : CString) (is : List (Fin maxDirEntries)) :
    Tidy (findFirst b subName is) := by
  induction is with
  | nil => exact settles_ret _
  | cons i is ih =>
      rw [findFirst]
      refine (settles_readLock _).bind fun _ => (settles_read _).bind fun found => ?_
      refine (settles_unlock _).bind fun _ => ?_
      split
      · exact settles_read _
      · exact ih

theorem findInDir_tidy (inumber : Int) (subName : CString) : Tidy (findInDir inumber subName) := by
  unfold findInDir
  split
  · exact settles_crash
  · refine (settles_readLock _).bind fun _ => (settles_read _).bind fun inode => ?_
    refine (settles_unlock _).bind fun _ => ?_
    split
    · exact settles_ret _
    · cases dataBlockGet (inode.iDataBlock 0) with
      | none => exact settles_ret _
      | some b => exact findFirst_tidy b subName _

/-! ## The counter -/

theorem addFirst_tidy (inumber : Int) (offset : Nat) (hs : List (Fin maxOpenFiles)) :
    Tidy (addFirst inumber offset hs) := by
  induction hs with
  | nil => exact settles_ret _
  | cons h hs ih =>
      rw [addFirst]
      refine (settles_lock _).bind fun _ => (settles_read _).bind fun state => ?_
      split
      · refine (settles_lock _).bind fun _ => (tidy_modify fun _ => by rfl).bind fun _ => ?_
        refine Settles.bind (settles_modify fun fs hcounted hzero => ?_) fun _ => ?_
        · -- from a counter that is not negative the increment does not lead to 0
          have hbefore : 0 ≤ fs.openFilesCount := hcounted.1
          have hafter : fs.openFilesCount + 1 = 0 := of_decide_eq_true hzero
          omega
        · refine (settles_unlock _).bind fun _ => ?_
          exact (settles_unlock _).bind fun _ => settles_ret _
      · exact (settles_unlock _).bind fun _ => ih

/-- The close that brings the counter to 0 signals before it gives back the mutex. -/
theorem removeFromOpenFileTable_tidy (fhandle : Int) : Tidy (removeFromOpenFileTable fhandle) := by
  unfold removeFromOpenFileTable
  split
  · exact settles_crash
  · rename_i h _
    refine (settles_readLock _).bind fun _ => (settles_read _).bind fun state => ?_
    split
    · exact (settles_unlock _).bind fun _ => settles_ret _
    · have hrest : Tidy ((Prog.modify fun fs : FS => fs.setHandleState h .free).bind fun _ =>
          (unlock Lock.openFilesMutex).bind fun _ =>
            (unlock (Lock.openFile h)).bind fun _ => ret (0 : Int)) := by
        refine (tidy_modify fun _ => by rfl).bind fun _ => (settles_unlock _).bind fun _ => ?_
        exact (settles_unlock _).bind fun _ => settles_ret _
      constructor
      -- the decrement may bring the counter to 0; the mutex has been taken before it
      intro waits β k held hnext fs fs' heff _
      cases heff
      refine ⟨fun _ _ => List.mem_cons_self, ?_⟩
      generalize (allClosed.holds (fs.setCount (fs.openFilesCount - 1)) &&
        (false || !allClosed.holds fs)) = owes
      simp only [bind_eq, pure_eq, Prog.bind_assoc, ret_bind]
      intro fs₁ fs₂ heff _
      cases heff
      refine ⟨fun hholds hnot => ?_, ?_⟩
      · rw [hnot] at hholds
        cases hholds
      · have hleft := fun held' => hrest.signals waits k held' hnext
        simp only [ret_bind]
        split
        · rename_i hzero
          -- it is 0, and the signal pays what is owed
          rw [wakeOne, signal_bind, signal_bind, Signals]
          have hpaid : decide (Cond.openFilesCond ≠ allClosed.var) = false := rfl
          rw [hpaid, Bool.and_false]
          exact hleft _
        · rename_i hzero
          have hnot : allClosed.holds fs₁ = false := decide_eq_false hzero
          rw [hnot, Bool.false_and]
          exact hleft _

/-! ## Lookup and open -/

theorem tfsLookup_tidy (name : CString) : Tidy (tfsLookup name) := by
  unfold tfsLookup
  split
  · exact findInDir_tidy rootDirInum name.tail
  · exact settles_ret _

theorem freeBlocks_tidy (n : Fin inodeTableSize) (is : List (Fin maxDirectBlocks)) :
    Tidy (freeBlocks n is) := by
  induction is with
  | nil => exact settles_ret _
  | cons i is ih =>
      rw [freeBlocks]
      refine (settles_read _).bind fun block => (dataBlockFree_tidy block).bind fun r => ?_
      split
      · exact settles_ret _
      · exact (tidy_modify fun _ => by rfl).bind fun _ => ih

theorem truncate_tidy (n : Fin inodeTableSize) : Tidy (truncate n) := by
  unfold truncate
  simp only [bind_eq, pure_eq, ret_bind]
  refine (settles_read _).bind fun size => ?_
  split
  · exact settles_ret _
  · refine (freeBlocks_tidy n _).bind fun freed => ?_
    have hend : Tidy ((Prog.modify fun fs : FS => fs.setInode n
        { fs.inodeTable n with iSize := 0 }).bind fun _ => ret true) :=
      (tidy_modify fun _ => by rfl).bind fun _ => settles_ret _
    split
    · split
      · refine (settles_read _).bind fun block => (dataBlockFree_tidy block).bind fun r => ?_
        split
        · exact settles_ret _
        · exact (tidy_modify fun _ => by rfl).bind fun _ => hend
      · exact hend
    · exact settles_ret _

theorem openExisting_tidy (inum : Int) (flags : BitVec 32) : Tidy (openExisting inum flags) := by
  unfold openExisting
  split
  · exact settles_crash
  · rename_i n _
    have hleave : ∀ found : Option (Int × Nat), Tidy ((unlock .openFileLock).bind fun _ =>
        (unlock (.inode n)).bind fun _ => ret found : Op (Option (Int × Nat))) :=
      fun found => (settles_unlock _).bind fun _ => (settles_unlock _).bind fun _ => settles_ret _
    simp only [bind_eq, pure_eq, ret_bind, ↓reduceIte]
    refine (settles_lock _).bind fun _ => ?_
    split
    · refine (truncate_tidy n).bind fun truncated => ?_
      split
      · split
        · exact (settles_read _).bind fun offset => hleave _
        · exact hleave _
      · exact hleave _
    · split
      · exact (settles_read _).bind fun offset => hleave _
      · exact hleave _

theorem openCreated_tidy (name : CString) : Tidy (openCreated name) := by
  unfold openCreated
  refine (createFirst_tidy _ _).bind fun inum => ?_
  split
  · exact (settles_unlock _).bind fun _ => settles_ret _
  · refine (settles_lock _).bind fun _ => (addDirEntry_tidy _ _ _).bind fun r => ?_
    split
    · refine (inodeDelete_tidy inum).bind fun _ => (settles_unlock _).bind fun _ => ?_
      exact (settles_unlock _).bind fun _ => settles_ret _
    · exact (settles_unlock _).bind fun _ => (settles_unlock _).bind fun _ => settles_ret _

theorem addToOpenFileTable_tidy (inumber : Int) (offset : Nat) :
    Tidy (addToOpenFileTable inumber offset) := addFirst_tidy _ _ _

theorem tfsOpen_tidy (name : CString) (flags : BitVec 32) : Tidy (tfsOpen name flags) := by
  unfold tfsOpen
  split
  · refine (settles_lock _).bind fun _ => (tfsLookup_tidy name).bind fun inum => ?_
    split
    · refine (openExisting_tidy inum flags).bind fun opened => ?_
      obtain _ | ⟨file, offset⟩ := opened
      · exact settles_ret _
      · exact addToOpenFileTable_tidy file offset
    · split
      · refine (openCreated_tidy name).bind fun opened => ?_
        obtain _ | ⟨file, offset⟩ := opened
        · exact settles_ret _
        · exact addToOpenFileTable_tidy file offset
      · exact (settles_unlock _).bind fun _ => settles_ret _
  · exact settles_ret _

/-! ## Write and read -/

section Blocks

variable {n : Fin inodeTableSize} {h : Fin maxOpenFiles}

theorem writeDirect_tidy (i : Fin maxDirectBlocks) : Tidy (writeDirect n i) := by
  unfold writeDirect
  simp only [bind_eq, pure_eq, ret_bind, ↓reduceIte]
  refine (settles_read _).bind fun block => ?_
  split
  · refine dataBlockAlloc_tidy.bind fun b => (tidy_modify fun _ => by rfl).bind fun _ => ?_
    split
    · exact settles_read _
    · exact settles_ret _
  · exact settles_read _

theorem clearIndirect_tidy (table : Fin dataBlocks) (count : Nat) :
    Tidy (clearIndirect table count) := by
  induction count with
  | zero => exact settles_ret _
  | succ count ih => exact ih.bind fun _ => tidy_store? fun _ => by rfl

theorem writeIndirectTable_tidy : Tidy (writeIndirectTable n) := by
  unfold writeIndirectTable
  simp only [bind_eq, pure_eq, ret_bind, ↓reduceIte]
  refine (settles_read _).bind fun block => ?_
  split
  · refine dataBlockAlloc_tidy.bind fun b => (tidy_modify fun _ => by rfl).bind fun _ => ?_
    split
    · exact settles_ret _
    · -- the loop is not to be unfolded
      generalize blockSize - maxDirectBlocks = count
      exact (clearIndirect_tidy _ count).bind fun _ => settles_read _
  · exact settles_read _

theorem writeIndirect_tidy (i : Nat) : Tidy (writeIndirect n i) := by
  unfold writeIndirect
  simp only [bind_eq, pure_eq, ret_bind, ↓reduceIte]
  refine writeIndirectTable_tidy.bind fun table => ?_
  split
  · exact settles_ret _
  · split
    · exact settles_crash
    · refine (settles_read _).bind fun block => ?_
      split
      · refine dataBlockAlloc_tidy.bind fun b => (tidy_store? fun _ => by rfl).bind fun _ => ?_
        split
        · exact settles_read _
        · exact settles_ret _
      · exact settles_read _

theorem writeBlock_tidy (i : Nat) : Tidy (writeBlock n i) := by
  unfold writeBlock
  split
  · exact writeDirect_tidy _
  · exact writeIndirect_tidy i

theorem readBlock_tidy (i : Nat) : Tidy (readBlock n i) := by
  unfold readBlock
  split
  · exact settles_read _
  · refine (settles_read _).bind fun table => ?_
    split
    · exact settles_ret _
    · split
      · exact settles_crash
      · exact settles_read _

theorem leave_tidy {α : Type} (value : α) : Tidy (leave h n value) :=
  (settles_unlock _).bind fun _ => (settles_unlock _).bind fun _ => settles_ret _

theorem copyIn_tidy (b : Fin dataBlocks) (bytes : List UInt8) : Tidy (copyIn h b bytes) :=
  tidy_store? fun _ => by rfl

theorem copyOut_tidy (b : Fin dataBlocks) (offset count : Nat) :
    Tidy (copyOut h b offset count) := by
  unfold copyOut
  split
  · refine (settles_read _).bind fun bytes => (tidy_modify fun _ => by rfl).bind fun _ => ?_
    exact settles_ret _
  · exact settles_crash

theorem writeLoop_tidy (last left i : Nat) (buffer : List UInt8) (written : Nat) :
    Tidy (writeLoop h n last left i buffer written) := by
  induction left generalizing i buffer written with
  | zero => exact leave_tidy _
  | succ left ih =>
      rw [writeLoop]
      refine (writeBlock_tidy i).bind fun block => ?_
      split
      · exact leave_tidy _
      · refine (settles_read _).bind fun offset => ?_
        simp only
        split
        · refine (copyIn_tidy _ _).bind fun _ => (tidy_modify fun _ => by rfl).bind fun _ => ?_
          exact ih _ _ _
        · split
          · refine (copyIn_tidy _ _).bind fun _ => (tidy_modify fun _ => by rfl).bind fun _ => ?_
            exact leave_tidy _
          · refine (copyIn_tidy _ _).bind fun _ => (tidy_modify fun _ => by rfl).bind fun _ => ?_
            exact ih _ _ _

theorem readLoop_tidy (last left i toRead : Nat) (bytes : List UInt8) :
    Tidy (readLoop h n last left i toRead bytes) := by
  induction left generalizing i toRead bytes with
  | zero => exact leave_tidy _
  | succ left ih =>
      rw [readLoop]
      refine (readBlock_tidy i).bind fun block => ?_
      split
      · exact leave_tidy _
      · refine (settles_read _).bind fun offset => ?_
        simp only
        split
        · exact (copyOut_tidy _ _ _).bind fun more => ih _ _ _
        · split
          · exact (copyOut_tidy _ _ _).bind fun more => leave_tidy _
          · exact (copyOut_tidy _ _ _).bind fun more => ih _ _ _

end Blocks

theorem tfsWrite_tidy (fhandle : Int) (buffer : List UInt8) : Tidy (tfsWrite fhandle buffer) := by
  unfold tfsWrite
  split
  · exact settles_ret _
  · refine (settles_lock _).bind fun _ => (settles_read _).bind fun inum => ?_
    split
    · exact (settles_unlock _).bind fun _ => settles_ret _
    · refine (settles_lock _).bind fun _ => ?_
      split
      · exact settles_ret _
      · exact (settles_read _).bind fun offset => writeLoop_tidy _ _ _ _ _

theorem tfsRead_tidy (fhandle : Int) (len : Nat) : Tidy (tfsRead fhandle len) := by
  unfold tfsRead
  split
  · exact settles_ret _
  · refine (settles_lock _).bind fun _ => (settles_read _).bind fun inum => ?_
    split
    · exact (settles_unlock _).bind fun _ => settles_ret _
    · refine (settles_lock _).bind fun _ => (settles_read _).bind fun offset => ?_
      refine (settles_read _).bind fun size => ?_
      simp only
      split
      · exact leave_tidy _
      · exact readLoop_tidy _ _ _ _ _

/-- Every call on files signals what it owes. -/
theorem exec_tidy (c : Call) : Tidy (exec c) := by
  cases c with
  | lookup name => exact (tfsLookup_tidy name).bind fun r => settles_ret _
  | «open» name flags => exact (tfsOpen_tidy name flags).bind fun r => settles_ret _
  | close fhandle => exact (removeFromOpenFileTable_tidy fhandle).bind fun r => settles_ret _
  | write fhandle buffer => exact (tfsWrite_tidy fhandle buffer).bind fun r => settles_ret _
  | read fhandle len => exact (tfsRead_tidy fhandle len).bind fun r => settles_ret _

end TecnicoFS.Part1
