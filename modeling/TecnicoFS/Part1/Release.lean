import TecnicoFS.Part1.Start
import TecnicoFS.Lib.Balance

/-!
# Part 1: every call gives back its locks, but for a write of no bytes

The unlocks are written out by hand on each return path. Most functions take and release their
own locks (`Neutral`); the bodies of `tfs_open`, `tfs_write` and `tfs_read` are entered with
the locks of the call and release them on every path. In `tfs_write` the unlocks stand inside
`if (to_write > 0)`, so a write of no bytes returns with the locks of the handle and of the
i-node.
-/

namespace TecnicoFS.Part1

open Threads Threads.Prog
open Part2 (Call Ret rootDirInum InodeType blockSize dataBlocks inodeTableSize maxOpenFiles
  maxDirEntries dataBlockGet inodeGet getOpenFileEntry)

variable {other : FS → FS → Prop}

/-! ## `fs/state.c` -/

theorem allocFirst_neutral (bs : List (Fin dataBlocks)) : Neutral other (allocFirst bs) := by
  intro held s
  induction bs generalizing s with
  | nil => exact neutral_ret _ _ _
  | cons b bs ih =>
      unfold allocFirst
      apply balanced_lock
      apply neutral_read.bind
      intro state s
      split
      · apply neutral_modify.bind
        intro _ s
        exact balanced_unlock (neutral_ret _ _ _)
      · exact balanced_unlock (ih s)

theorem dataBlockAlloc_neutral : Neutral other dataBlockAlloc := by
  rw [dataBlockAlloc_eq]
  exact allocFirst_neutral _

theorem dataBlockFree_neutral (blockNumber : Int) : Neutral other (dataBlockFree blockNumber) := by
  intro held s
  unfold dataBlockFree
  split
  · exact neutral_crash _ _
  · apply balanced_lock
    apply neutral_modify.bind
    intro _ s
    exact balanced_unlock (neutral_ret _ _ _)

theorem initInode_neutral (n : Fin inodeTableSize) (nType : InodeType) :
    Neutral other (initInode n nType) := by
  intro held s
  cases nType with
  | tFile =>
      apply neutral_modify.bind
      intro _ s
      apply neutral_modify.bind
      intro _ s
      exact neutral_ret _ _ _
  | tDirectory =>
      apply neutral_modify.bind
      intro _ s
      apply dataBlockAlloc_neutral.bind
      intro b s
      split
      · apply neutral_modify.bind
        intro _ s
        exact neutral_ret _ _ _
      · apply neutral_modify.bind
        intro _ s
        cases dataBlockGet b with
        | none =>
            apply neutral_modify.bind
            intro _ s
            exact neutral_ret _ _ _
        | some b =>
            apply neutral_modify.bind
            intro _ s
            exact neutral_ret _ _ _

theorem createFirst_neutral (nType : InodeType) (ns : List (Fin inodeTableSize)) :
    Neutral other (createFirst nType ns) := by
  intro held s
  induction ns generalizing s with
  | nil => exact neutral_ret _ _ _
  | cons n ns ih =>
      unfold createFirst
      apply balanced_lock
      apply neutral_read.bind
      intro state s
      split
      · apply neutral_modify.bind
        intro _ s
        exact balanced_unlock (initInode_neutral n nType held s)
      · exact balanced_unlock (ih s)

theorem freeDirectBlocks_neutral (n : Fin inodeTableSize) (is : List (Fin maxDirectBlocks)) :
    Neutral other (freeDirectBlocks n is) := by
  intro held s
  induction is generalizing s with
  | nil => exact neutral_ret _ _ _
  | cons i is ih =>
      unfold freeDirectBlocks
      apply neutral_read.bind
      intro block s
      cases index? dataBlocks block with
      | none => exact neutral_crash _ _
      | some b =>
          apply balanced_lock
          apply (dataBlockFree_neutral block).bind
          intro r s
          apply balanced_unlock
          split
          · exact neutral_ret _ _ _
          · exact ih s

theorem inodeDelete_neutral (inumber : Int) : Neutral other (inodeDelete inumber) := by
  intro held s
  unfold inodeDelete
  split
  · exact neutral_ret _ _ _
  · rename_i n _
    apply neutral_read.bind
    intro state s
    split
    · exact neutral_ret _ _ _
    · apply neutral_modify.bind
      intro _ s
      apply neutral_read.bind
      intro size s
      split
      · exact freeDirectBlocks_neutral n _ held s
      · exact neutral_ret _ _ _

theorem fillFirst_neutral (b : Fin dataBlocks) (subInumber : Int) (subName : CString)
    (is : List (Fin maxDirEntries)) : Neutral other (fillFirst b subInumber subName is) := by
  intro held s
  induction is generalizing s with
  | nil => exact neutral_ret _ _ _
  | cons i is ih =>
      unfold fillFirst
      apply balanced_lock
      apply neutral_read.bind
      intro inumber s
      split
      · apply neutral_modify.bind
        intro _ s
        apply neutral_modify.bind
        intro _ s
        exact balanced_unlock (neutral_ret _ _ _)
      · exact balanced_unlock (ih s)

theorem addDirEntry_neutral (inumber subInumber : Int) (subName : CString) :
    Neutral other (addDirEntry inumber subInumber subName) := by
  intro held s
  unfold addDirEntry
  split
  · apply balanced_readLock
    apply neutral_read.bind
    intro nType s
    apply balanced_unlock
    split
    · exact neutral_ret _ _ _
    · split
      · exact neutral_ret _ _ _
      · apply balanced_readLock
        apply neutral_read.bind
        intro block s
        apply balanced_unlock
        cases dataBlockGet block with
        | none => exact neutral_ret _ _ _
        | some b => exact fillFirst_neutral b subInumber subName _ held s
  · exact neutral_ret _ _ _

theorem findFirst_neutral (b : Fin dataBlocks) (subName : CString)
    (is : List (Fin maxDirEntries)) : Neutral other (findFirst b subName is) := by
  intro held s
  induction is generalizing s with
  | nil => exact neutral_ret _ _ _
  | cons i is ih =>
      unfold findFirst
      apply balanced_readLock
      apply neutral_read.bind
      intro found s
      apply balanced_unlock
      split
      · exact neutral_read _ _
      · exact ih s

theorem findInDir_neutral (inumber : Int) (subName : CString) :
    Neutral other (findInDir inumber subName) := by
  intro held s
  unfold findInDir
  split
  · exact neutral_crash _ _
  · apply balanced_readLock
    apply neutral_read.bind
    intro inode s
    apply balanced_unlock
    split
    · exact neutral_ret _ _ _
    · cases dataBlockGet (inode.iDataBlock 0) with
      | none => exact neutral_ret _ _ _
      | some b => exact findFirst_neutral b subName _ held s

/-- The lock of the entry is released before the mutex that was taken after it. -/
theorem addFirst_neutral (inumber : Int) (offset : Nat) (hs : List (Fin maxOpenFiles)) :
    Neutral other (addFirst inumber offset hs) := by
  intro held s
  induction hs generalizing s with
  | nil => exact neutral_ret _ _ _
  | cons h hs ih =>
      unfold addFirst
      apply balanced_lock
      apply neutral_read.bind
      intro state s
      split
      · apply balanced_lock
        apply neutral_modify.bind
        intro _ s
        apply neutral_modify.bind
        intro _ s
        apply balanced_unlock_below (by simp)
        exact balanced_unlock (neutral_ret _ _ _)
      · exact balanced_unlock (ih s)

theorem removeFromOpenFileTable_neutral (fhandle : Int) :
    Neutral other (removeFromOpenFileTable fhandle) := by
  intro held s
  unfold removeFromOpenFileTable
  split
  · exact neutral_crash _ _
  · apply balanced_readLock
    apply neutral_read.bind
    intro state s
    split
    · exact balanced_unlock (neutral_ret _ _ _)
    · apply balanced_lock
      apply neutral_modify.bind
      intro _ s
      apply neutral_read.bind
      intro count s
      split
      · apply neutral_wakeOne.bind
        intro _ s
        apply neutral_modify.bind
        intro _ s
        exact balanced_unlock (balanced_unlock (neutral_ret _ _ _))
      · apply neutral_modify.bind
        intro _ s
        exact balanced_unlock (balanced_unlock (neutral_ret _ _ _))

/-! ## Lookup, open and close -/

theorem tfsLookup_neutral (name : CString) : Neutral other (tfsLookup name) := by
  intro held s
  unfold tfsLookup
  split
  · exact findInDir_neutral rootDirInum name.tail held s
  · exact neutral_ret _ _ _

theorem freeBlocks_neutral (n : Fin inodeTableSize) (is : List (Fin maxDirectBlocks)) :
    Neutral other (freeBlocks n is) := by
  intro held s
  induction is generalizing s with
  | nil => exact neutral_ret _ _ _
  | cons i is ih =>
      unfold freeBlocks
      apply neutral_read.bind
      intro block s
      apply (dataBlockFree_neutral block).bind
      intro r s
      split
      · exact neutral_ret _ _ _
      · apply neutral_modify.bind
        intro _ s
        exact ih s

theorem truncate_neutral (n : Fin inodeTableSize) : Neutral other (truncate n) := by
  intro held s
  unfold truncate
  simp only [bind_eq, pure_eq, ret_bind]
  apply neutral_read.bind
  intro size s
  split
  · exact neutral_ret _ _ _
  · apply (freeBlocks_neutral n _).bind
    intro freed s
    split
    · split
      · apply neutral_read.bind
        intro block s
        apply (dataBlockFree_neutral block).bind
        intro r s
        split
        · exact neutral_ret _ _ _
        · apply neutral_modify.bind
          intro _ s
          apply neutral_modify.bind
          intro _ s
          exact neutral_ret _ _ _
      · apply neutral_modify.bind
        intro _ s
        exact neutral_ret _ _ _
    · exact neutral_ret _ _ _

section Open

variable {held : List (Lock × Mode)} {s : FS}

/-- `open_file_lock`, with which `tfs_open` enters its branches, is released on every path of
them. -/
abbrev Opened (other : FS → FS → Prop) (p : Op (Option (Int × Nat)))
    (held : List (Lock × Mode)) (s : FS) : Prop :=
  Balanced other (fun _ held' => held' = held) p ((.openFileLock, .write) :: held) s

/-- The end of the two branches. -/
theorem leaveOpen_balanced (n : Fin inodeTableSize) (value : Option (Int × Nat)) :
    Balanced other (fun _ held' => held' = held)
      ((unlock .openFileLock).bind fun _ => (unlock (.inode n)).bind fun _ => ret value :
        Op (Option (Int × Nat)))
      ((.inode n, .write) :: (.openFileLock, .write) :: held) s := by
  apply balanced_unlock_below (by simp)
  exact balanced_unlock (neutral_ret _ _ _)

theorem openExisting_opened (inum : Int) (flags : BitVec 32) :
    Opened other (openExisting inum flags) held s := by
  unfold Opened openExisting
  split
  · trivial
  · rename_i n _
    simp only [bind_eq, pure_eq, ret_bind, ↓reduceIte]
    apply balanced_lock
    split
    · apply (truncate_neutral n).bind
      intro truncated s
      split
      · split
        · apply neutral_read.bind
          intro offset s
          exact leaveOpen_balanced n _
        · exact leaveOpen_balanced n _
      · exact leaveOpen_balanced n _
    · split
      · apply neutral_read.bind
        intro offset s
        exact leaveOpen_balanced n _
      · exact leaveOpen_balanced n _

theorem openCreated_opened (name : CString) : Opened other (openCreated name) held s := by
  unfold Opened openCreated
  apply (createFirst_neutral _ _).bind
  intro inum s
  split
  · exact balanced_unlock (neutral_ret _ _ _)
  · apply balanced_lock
    apply (addDirEntry_neutral _ _ _).bind
    intro r s
    split
    · apply (inodeDelete_neutral inum).bind
      intro _ s
      exact leaveOpen_balanced _ _
    · exact leaveOpen_balanced _ _

end Open

/-- The end of `tfs_open`. -/
theorem given_balanced {held : List (Lock × Mode)} (opened : Option (Int × Nat))
    (held' : List (Lock × Mode)) (s : FS) (hheld : held' = held) :
    Balanced other (fun _ held' => held' = held)
      (match opened with
      | none => pure (-1)
      | some (inum, offset) => addToOpenFileTable inum offset : Op Int) held' s := by
  subst hheld
  split
  · exact neutral_ret _ _ _
  · exact addFirst_neutral _ _ _ _ _

theorem tfsOpen_neutral (name : CString) (flags : BitVec 32) :
    Neutral other (tfsOpen name flags) := by
  intro held s
  unfold tfsOpen
  split
  · apply balanced_lock
    apply (tfsLookup_neutral name).bind
    intro inum s
    split
    · exact (openExisting_opened inum flags).bind given_balanced
    · split
      · exact (openCreated_opened name).bind given_balanced
      · apply balanced_unlock
        exact neutral_ret _ _ _
  · exact neutral_ret _ _ _

/-! ## Blocks of a file -/

section Blocks

variable {n : Fin inodeTableSize}

theorem writeDirect_neutral (i : Fin maxDirectBlocks) : Neutral other (writeDirect n i) := by
  intro held s
  unfold writeDirect
  simp only [bind_eq, pure_eq, ret_bind, ↓reduceIte]
  apply neutral_read.bind
  intro block s
  split
  · apply dataBlockAlloc_neutral.bind
    intro b s
    apply neutral_modify.bind
    intro _ s
    split
    · exact neutral_read _ _
    · exact neutral_ret _ _ _
  · exact neutral_read _ _

theorem clearIndirect_neutral (table : Fin dataBlocks) (count : Nat) :
    Neutral other (clearIndirect table count) := by
  intro held s
  induction count generalizing s with
  | zero => exact neutral_ret _ _ _
  | succ count ih =>
      apply Balanced.bind (ih s)
      rintro _ held' s rfl
      exact neutral_modify? _ _

theorem writeIndirectTable_neutral : Neutral other (writeIndirectTable n) := by
  intro held s
  unfold writeIndirectTable
  simp only [bind_eq, pure_eq, ret_bind, ↓reduceIte]
  apply neutral_read.bind
  intro block s
  split
  · apply dataBlockAlloc_neutral.bind
    intro b s
    apply neutral_modify.bind
    intro _ s
    split
    · exact neutral_ret _ _ _
    · rename_i table _
      -- the loop is not to be unfolded
      generalize blockSize - maxDirectBlocks = count
      apply (clearIndirect_neutral table count).bind
      intro _ s
      exact neutral_read _ _
  · exact neutral_read _ _

theorem writeIndirect_neutral (i : Nat) : Neutral other (writeIndirect n i) := by
  intro held s
  unfold writeIndirect
  simp only [bind_eq, pure_eq, ret_bind, ↓reduceIte]
  apply writeIndirectTable_neutral.bind
  intro table s
  split
  · exact neutral_ret _ _ _
  · split
    · exact neutral_crash _ _
    · apply neutral_read.bind
      intro block s
      split
      · apply dataBlockAlloc_neutral.bind
        intro b s
        apply neutral_modify?.bind
        intro _ s
        split
        · exact neutral_read _ _
        · exact neutral_ret _ _ _
      · exact neutral_read _ _

theorem writeBlock_neutral (i : Nat) : Neutral other (writeBlock n i) := by
  unfold writeBlock
  split
  · exact writeDirect_neutral _
  · exact writeIndirect_neutral i

theorem readBlock_neutral (i : Nat) : Neutral other (readBlock n i) := by
  intro held s
  unfold readBlock
  split
  · exact neutral_read _ _
  · apply neutral_read.bind
    intro table s
    split
    · exact neutral_ret _ _ _
    · split
      · exact neutral_crash _ _
      · exact neutral_read _ _

theorem copyOut_neutral {h : Fin maxOpenFiles} (b : Fin dataBlocks) (offset count : Nat) :
    Neutral other (copyOut h b offset count) := by
  intro held s
  unfold copyOut
  split
  · apply neutral_read.bind
    intro bytes s
    apply neutral_modify.bind
    intro _ s
    exact neutral_ret _ _ _
  · exact neutral_crash _ _

end Blocks

/-! ## Write and read -/

section Transfer

variable {n : Fin inodeTableSize} {h : Fin maxOpenFiles} {held : List (Lock × Mode)} {s : FS}

/-- The program releases the locks of the handle and of the i-node on every path. -/
abbrev Leaves {α : Type} (other : FS → FS → Prop) (h : Fin maxOpenFiles) (n : Fin inodeTableSize)
    (p : Op α) (held : List (Lock × Mode)) (s : FS) : Prop :=
  Balanced other (fun _ held' => held' = held) p
    ((.inode n, .write) :: (.openFile h, .write) :: held) s

theorem leave_leaves {α : Type} (value : α) : Leaves other h n (leave h n value) held s := by
  unfold Leaves leave
  apply balanced_unlock_below (by simp)
  exact balanced_unlock (neutral_ret _ _ _)

theorem copyIn_neutral (b : Fin dataBlocks) (bytes : List UInt8) :
    Neutral other (copyIn h b bytes) := neutral_modify?

theorem writeLoop_leaves (last left i : Nat) (buffer : List UInt8) (written : Nat) :
    Leaves other h n (writeLoop h n last left i buffer written) held s := by
  induction left generalizing i buffer written s with
  | zero => exact leave_leaves _
  | succ left ih =>
      unfold Leaves
      rw [writeLoop]
      simp only [bind_eq]
      apply (writeBlock_neutral i).bind
      intro block s
      split
      · exact leave_leaves _
      · rename_i b
        apply neutral_read.bind
        intro offset s
        split
        · apply (copyIn_neutral b _).bind
          intro _ s
          apply neutral_modify.bind
          intro _ s
          exact ih _ _ _
        · split
          · apply (copyIn_neutral b _).bind
            intro _ s
            apply neutral_modify.bind
            intro _ s
            exact leave_leaves _
          · apply (copyIn_neutral b _).bind
            intro _ s
            apply neutral_modify.bind
            intro _ s
            exact ih _ _ _

theorem readLoop_leaves (last left i toRead : Nat) (bytes : List UInt8) :
    Leaves other h n (readLoop h n last left i toRead bytes) held s := by
  induction left generalizing i toRead bytes s with
  | zero => exact leave_leaves _
  | succ left ih =>
      unfold Leaves
      rw [readLoop]
      simp only [bind_eq]
      apply (readBlock_neutral i).bind
      intro block s
      split
      · exact leave_leaves _
      · rename_i b
        apply neutral_read.bind
        intro offset s
        split
        · apply (copyOut_neutral b _ _).bind
          intro more s
          exact ih _ _ _
        · split
          · apply (copyOut_neutral b _ _).bind
            intro more s
            exact leave_leaves _
          · generalize blockSize = size
            apply (copyOut_neutral b _ _).bind
            intro more s
            exact ih _ _ _

end Transfer

/-! ## Every call -/

/-- The call is a write of no bytes on a handle of the table, and its thread can come to read
the number of an i-node from the entry. -/
def KeepsLocks (other : FS → FS → Prop) (fs : FS) (c : Call) : Prop :=
  ∃ fhandle h fs' n, c = .write fhandle [] ∧ getOpenFileEntry fhandle = some h ∧
    Relation.ReflTransGen other fs fs' ∧ inodeGet (fs'.openFileTable h).ofInumber = some n

theorem tfsWrite_balanced {fhandle : Int} {buffer : List UInt8} {held : List (Lock × Mode)}
    {fs : FS} (hkeeps : ¬ KeepsLocks other fs (.write fhandle buffer)) :
    Balanced other (fun _ held' => held' = held) (tfsWrite fhandle buffer) held fs := by
  unfold tfsWrite
  split
  · exact neutral_ret _ _ _
  · rename_i h hentry
    simp only [bind_eq, pure_eq]
    apply balanced_lock
    -- the number is read in a state that the other threads leave
    intro fs' hother fs'' hread
    cases hread
    cases hn : inodeGet (fs'.openFileTable h).ofInumber with
    | none =>
        simp only [ret_bind, hn]
        exact balanced_unlock (neutral_ret _ _ _)
    | some n =>
        have hne : buffer ≠ [] := by
          rintro rfl
          exact hkeeps ⟨fhandle, h, fs', n, rfl, hentry, hother, hn⟩
        have hlength : ¬ buffer.length = 0 := fun hzero => hne (List.length_eq_zero_iff.mp hzero)
        simp only [ret_bind, hn, if_neg hlength]
        apply balanced_lock
        apply neutral_read.bind
        intro offset s
        exact writeLoop_leaves _ _ _ _ _

theorem tfsRead_neutral (fhandle : Int) (len : Nat) : Neutral other (tfsRead fhandle len) := by
  intro held s
  unfold tfsRead
  split
  · exact neutral_ret _ _ _
  · simp only [bind_eq, pure_eq]
    apply balanced_lock
    apply neutral_read.bind
    intro inum s
    split
    · exact balanced_unlock (neutral_ret _ _ _)
    · apply balanced_lock
      apply neutral_read.bind
      intro offset s
      apply neutral_read.bind
      intro size s
      split
      · exact leave_leaves _
      · exact readLoop_leaves _ _ _ _ _

/-- A call that does not keep its locks is balanced. -/
theorem exec_balanced {c : Call} {held : List (Lock × Mode)} {fs : FS}
    (hkeeps : ¬ KeepsLocks other fs c) :
    Balanced other (fun _ held' => held' = held) (exec c) held fs := by
  have hret : ∀ (r : Ret) held' s, held' = held →
      Balanced other (fun _ held' => held' = held) (ret r : Op Ret) held' s := by
    rintro r held' s rfl
    exact neutral_ret _ _ _
  cases c with
  | lookup name => exact (tfsLookup_neutral name held fs).bind fun r => hret ⟨r, []⟩
  | «open» name flags => exact (tfsOpen_neutral name flags held fs).bind fun r => hret ⟨r, []⟩
  | close fhandle =>
      exact (removeFromOpenFileTable_neutral fhandle held fs).bind fun r => hret ⟨r, []⟩
  | write fhandle buffer => exact (tfsWrite_balanced hkeeps).bind fun r => hret ⟨r, []⟩
  | read fhandle len => exact (tfsRead_neutral fhandle len held fs).bind fun r => hret ⟨r.1, r.2⟩

/-- The walk of a write of no bytes that ends with two locks more. -/
theorem exec_write_nothing {fhandle : Int} {h : Fin maxOpenFiles}
    (hentry : getOpenFileEntry fhandle = some h) :
    exec (.write fhandle []) = .acquire (.openFile h) .write
      (.act some fun fs => Prog.bind
        (match inodeGet (fs.openFileTable h).ofInumber with
          | none => (unlock (.openFile h)).bind fun _ => ret (-1)
          | some n => (lock (.inode n)).bind fun _ => ret 0)
        fun r => ret ⟨r, []⟩) := by
  simp only [exec, tfsWrite, hentry, bind_eq, pure_eq, List.length_nil, ↓reduceIte]
  rfl

theorem write_nothing_walk {fhandle : Int} {h : Fin maxOpenFiles} {n : Fin inodeTableSize}
    {held : List (Lock × Mode)} {fs fs' : FS} (hentry : getOpenFileEntry fhandle = some h)
    (hother : Relation.ReflTransGen other fs fs')
    (hn : inodeGet (fs'.openFileTable h).ofInumber = some n) :
    Walk.To other ⟨exec (.write fhandle []), held, fs⟩
      ⟨.ret ⟨0, []⟩, (.inode n, .write) :: (.openFile h, .write) :: held, fs'⟩ := by
  rw [exec_write_nothing hentry]
  apply Relation.ReflTransGen.head Walk.Step.acquire
  apply Relation.ReflTransGen.trans (Walk.To.others hother)
  apply Relation.ReflTransGen.head (Walk.Step.act rfl)
  simp only [hn]
  exact Relation.ReflTransGen.single Walk.Step.acquire

/-- Every call releases exactly the locks it takes, on every path and whatever the other
threads do, if and only if it is no write of no bytes that comes to an i-node. -/
theorem locks_returned (other : FS → FS → Prop) (fs : FS) (c : Call) :
    (∀ held, Restores other (exec c) held fs) ↔ ¬ KeepsLocks other fs c := by
  constructor
  · rintro hrestores ⟨fhandle, h, fs', n, rfl, hentry, hother, hn⟩
    have hheld := (hrestores [] _ (write_nothing_walk hentry hother hn)).1 _ rfl
    exact absurd hheld (by simp)
  · intro hkeeps held
    exact restores_iff.mpr (exec_balanced hkeeps)

/-- A thread alone creates "/a" and writes no bytes to it: it returns 0 with both locks. -/
theorem write_nothing_keeps_locks : ∃ fs, machine.exec machine.init (.open pathA 1) =
      some (⟨0, []⟩, fs) ∧ ¬ ∀ held, Restores (fun _ _ => False) (exec (.write 0 [])) held fs := by
  have hopen : ((machine.exec initialFS (.open pathA 1)).map fun p =>
      (p.1, (p.2.openFileTable 0).ofInumber)) = some (⟨0, []⟩, 1) := by decide +kernel
  rcases Option.map_eq_some_iff.mp hopen with ⟨⟨r, fs⟩, hexec, heq⟩
  rcases Prod.mk.inj heq with ⟨rfl, hnumber⟩
  rw [machine_init]
  refine ⟨fs, hexec, fun hrestores => ?_⟩
  have hn : inodeGet (fs.openFileTable 0).ofInumber = some 1 := by
    rw [hnumber]
    rfl
  have hwalk : Walk.To (fun _ _ => False) ⟨exec (.write 0 []), [], fs⟩
      ⟨.ret ⟨0, []⟩, [(.inode 1, .write), (.openFile 0, .write)], fs⟩ :=
    write_nothing_walk (index?_natCast (0 : Fin maxOpenFiles)) Relation.ReflTransGen.refl hn
  have hheld := (hrestores [] _ hwalk).1 _ rfl
  exact absurd hheld (by simp)

end TecnicoFS.Part1
