import TecnicoFS.Part1.Runs

/-!
# Part 1: sizes of files are words

`i_size` is a `size_t`. In the model it is a number, and every run keeps it in range, whatever the
calls: a file is created and truncated to size 0, and a write lets it grow up to an offset, which
is a sum of words.
-/

namespace TecnicoFS.Part1

open Threads Threads.Prog
open Part2 (Call Ret AllocationState rootDirInum validPathname hasFlag tfsOTrunc tfsOCreat
  tfsOAppend blockSize dataBlocks inodeTableSize maxOpenFiles maxDirEntries dataBlockGet inodeGet
  getOpenFileEntry)

variable {fs fs' : FS} {n : Fin inodeTableSize} {h : Fin maxOpenFiles} {name : CString}
  {flags : BitVec 32} {c : Call}

/-- All sizes are words. -/
def SizesFit (fs : FS) : Prop := ∀ n, (fs.inodeTable n).iSize < wordSize

/-- The program keeps the sizes in range and does not touch `open_files_mutex`. -/
abbrev KeepsSizes {α : Type} (p : Op α) : Prop := Keeps .openFilesMutex SizesFit p

theorem SizesFit.setInode {inode : Inode} (hs : SizesFit fs) (hnew : inode.iSize < wordSize) :
    SizesFit (fs.setInode n inode) := by
  intro m
  by_cases hm : m = n
  · subst hm
    simpa using hnew
  · simpa [hm] using hs m

theorem SizesFit.setBlocks (hs : SizesFit fs) (direct : Fin maxDirectBlocks → Int) (table : Int) :
    SizesFit (fs.setInode n
      { fs.inodeTable n with iDataBlock := direct, iIndirectDataBlock := table }) :=
  hs.setInode (hs n)

theorem SizesFit.ofBlocks : OfBlocks n SizesFit := ⟨id, id, fun hs => hs.setBlocks _ _⟩

theorem SizesFit.empty (hs : SizesFit fs) {nType : Part2.InodeType}
    {direct : Fin maxDirectBlocks → Int} {table : Int} :
    SizesFit (fs.setInode n ⟨nType, 0, direct, table⟩) := hs.setInode (show 0 < wordSize by decide)

/-! ## Opening -/

theorem dataBlockFree_sizes (block : Int) : KeepsSizes (dataBlockFree block) := by
  unfold dataBlockFree
  split
  · trivial
  · refine Keeps.bind (keeps_lock (by simp)) fun _ =>
      Keeps.bind (keeps_modify fun _ => id) fun _ => ?_
    exact Keeps.bind (keeps_unlock (by simp)) fun _ => trivial

theorem freeBlocks_sizes (is : List (Fin maxDirectBlocks)) : KeepsSizes (freeBlocks n is) := by
  induction is with
  | nil => trivial
  | cons i is ih =>
      rw [freeBlocks]
      refine Keeps.bind (keeps_read _) fun block =>
        Keeps.bind (dataBlockFree_sizes block) fun r => ?_
      split
      · trivial
      · exact Keeps.bind (keeps_modify fun _ hs => hs.setBlocks _ _) fun _ => ih

theorem truncate_sizes : KeepsSizes (truncate n) := by
  rw [truncate]
  simp only [bind_eq, pure_eq]
  have hend : ∀ freed : Bool, KeepsSizes (if freed then
      (Prog.modify fun fs : FS => fs.setInode n { fs.inodeTable n with iSize := 0 }).bind
        fun _ => (ret true : Op Bool)
      else ret false) := by
    intro freed
    split
    · exact Keeps.bind (keeps_modify fun _ hs => hs.empty) fun _ => trivial
    · trivial
  refine Keeps.bind (keeps_read _) fun size => ?_
  split
  · trivial
  · refine Keeps.bind (freeBlocks_sizes _) fun freed => ?_
    split
    · split
      · refine Keeps.bind (keeps_read _) fun block => ?_
        refine Keeps.bind (dataBlockFree_sizes block) fun r => ?_
        split
        · exact hend false
        · exact Keeps.bind (keeps_modify fun _ hs => hs.setBlocks _ _) fun _ => hend true
      · exact hend true
    · trivial

theorem openExisting_sizes (inum : Int) : KeepsSizes (openExisting inum flags) := by
  unfold openExisting
  split
  · trivial
  · next m _ =>
      simp only [bind_eq, pure_eq]
      have hleave : ∀ {α : Type} (value : α),
          KeepsSizes ((unlock .openFileLock : Op Unit).bind fun _ =>
            (unlock (.inode m) : Op Unit).bind fun _ => (ret value : Op α)) := fun _ =>
        Keeps.bind (keeps_unlock (by simp)) fun _ =>
          Keeps.bind (keeps_unlock (by simp)) fun _ => trivial
      have hend : ∀ truncated : Bool, KeepsSizes (if truncated then
          if hasFlag flags tfsOAppend then
            (Prog.read fun fs : FS => (fs.inodeTable m).iSize).bind fun offset =>
              (unlock .openFileLock : Op Unit).bind fun _ =>
                (unlock (.inode m) : Op Unit).bind fun _ =>
                  (ret (some (inum, offset)) : Op (Option (Int × Nat)))
          else (ret 0 : Op Nat).bind fun offset =>
              (unlock .openFileLock : Op Unit).bind fun _ =>
                (unlock (.inode m) : Op Unit).bind fun _ =>
                  (ret (some (inum, offset)) : Op (Option (Int × Nat)))
          else (unlock .openFileLock : Op Unit).bind fun _ =>
            (unlock (.inode m) : Op Unit).bind fun _ => ret none) := by
        intro truncated
        split
        · split
          · exact Keeps.bind (keeps_read _) fun offset => hleave _
          · exact hleave _
        · exact hleave _
      refine Keeps.bind (keeps_lock (by simp)) fun _ => ?_
      split
      · exact Keeps.bind truncate_sizes hend
      · exact hend true

theorem createFirst_sizes (ns : List (Fin inodeTableSize)) :
    KeepsSizes (createFirst .tFile ns) := by
  induction ns with
  | nil => trivial
  | cons n ns ih =>
      rw [createFirst]
      refine Keeps.bind (keeps_lock (by simp)) fun _ => Keeps.bind (keeps_read _) fun state => ?_
      split
      · refine Keeps.bind (keeps_modify fun _ => id) fun _ => Keeps.bind (keeps_unlock (by simp)) ?_
        intro _
        refine Keeps.bind (keeps_modify fun _ hs => hs.setInode (hs n)) fun _ => ?_
        exact Keeps.bind (keeps_modify fun _ hs => hs.empty) fun _ => trivial
      · exact Keeps.bind (keeps_unlock (by simp)) fun _ => ih

theorem fillFirst_sizes (b : Fin dataBlocks) (inumber : Int) (subName : CString)
    (is : List (Fin maxDirEntries)) : KeepsSizes (fillFirst b inumber subName is) := by
  induction is with
  | nil => trivial
  | cons i is ih =>
      rw [fillFirst]
      refine Keeps.bind (keeps_lock (by simp)) fun _ => Keeps.bind (keeps_read _) fun number => ?_
      split
      · refine Keeps.bind (keeps_modify fun _ => id) fun _ => ?_
        refine Keeps.bind (keeps_modify fun _ => id) fun _ => ?_
        exact Keeps.bind (keeps_unlock (by simp)) fun _ => trivial
      · exact Keeps.bind (keeps_unlock (by simp)) fun _ => ih

theorem addDirEntry_sizes (inumber subInumber : Int) (subName : CString) :
    KeepsSizes (addDirEntry inumber subInumber subName) := by
  unfold addDirEntry
  split
  · simp only [bind_eq, pure_eq]
    refine Keeps.bind (keeps_lock (by simp)) fun _ => Keeps.bind (keeps_read _) fun nType => ?_
    refine Keeps.bind (keeps_unlock (by simp)) fun _ => ?_
    split
    · trivial
    · split
      · trivial
      · refine Keeps.bind (keeps_lock (by simp)) fun _ => Keeps.bind (keeps_read _) fun block => ?_
        refine Keeps.bind (keeps_unlock (by simp)) fun _ => ?_
        split
        · trivial
        · exact fillFirst_sizes _ _ _ _
  · trivial

theorem freeDirectBlocks_sizes (is : List (Fin maxDirectBlocks)) :
    KeepsSizes (freeDirectBlocks n is) := by
  induction is with
  | nil => trivial
  | cons i is ih =>
      rw [freeDirectBlocks]
      refine Keeps.bind (keeps_read _) fun block => ?_
      split
      · trivial
      · refine Keeps.bind (keeps_lock (by simp)) fun _ => ?_
        refine Keeps.bind (dataBlockFree_sizes block) fun r => ?_
        refine Keeps.bind (keeps_unlock (by simp)) fun _ => ?_
        split
        · trivial
        · exact ih

theorem inodeDelete_sizes (inumber : Int) : KeepsSizes (inodeDelete inumber) := by
  unfold inodeDelete
  split
  · trivial
  · simp only [bind_eq, pure_eq]
    refine Keeps.bind (keeps_read _) fun state => ?_
    split
    · trivial
    · refine Keeps.bind (keeps_modify fun _ => id) fun _ => Keeps.bind (keeps_read _) fun size => ?_
      split
      · exact freeDirectBlocks_sizes _
      · trivial

theorem openCreated_sizes : KeepsSizes (openCreated name) := by
  rw [openCreated]
  simp only [bind_eq, pure_eq]
  refine Keeps.bind (createFirst_sizes _) fun inum => ?_
  split
  · exact Keeps.bind (keeps_unlock (by simp)) fun _ => trivial
  · refine Keeps.bind (keeps_lock (by simp)) fun _ =>
      Keeps.bind (addDirEntry_sizes _ _ _) fun r => ?_
    split
    · refine Keeps.bind (inodeDelete_sizes inum) fun _ =>
        Keeps.bind (keeps_unlock (by simp)) fun _ => ?_
      exact Keeps.bind (keeps_unlock (by simp)) fun _ => trivial
    · refine Keeps.bind (keeps_unlock (by simp)) fun _ => ?_
      exact Keeps.bind (keeps_unlock (by simp)) fun _ => trivial

/-- A lookup changes nothing, whatever the state. -/
theorem findFirst_keeps {I : FS → Prop} (b : Fin dataBlocks) (subName : CString)
    (is : List (Fin maxDirEntries)) : Keeps .openFilesMutex I (findFirst b subName is) := by
  induction is with
  | nil => trivial
  | cons i is ih =>
      rw [findFirst]
      refine Keeps.bind (keeps_lock (by simp)) fun _ => Keeps.bind (keeps_read _) fun found => ?_
      refine Keeps.bind (keeps_unlock (by simp)) fun _ => ?_
      split
      · exact keeps_read _
      · exact ih

theorem tfsLookup_keeps {I : FS → Prop} : Keeps .openFilesMutex I (tfsLookup name) := by
  unfold tfsLookup
  split
  · unfold findInDir
    split
    · trivial
    · simp only [bind_eq, pure_eq]
      refine Keeps.bind (keeps_lock (by simp)) fun _ => Keeps.bind (keeps_read _) fun inode => ?_
      refine Keeps.bind (keeps_unlock (by simp)) fun _ => ?_
      split
      · trivial
      · split
        · trivial
        · exact findFirst_keeps _ _ _
  · trivial

theorem tfsLookup_state {r : Int} (heval : (tfsLookup name).eval fs = some (r, fs')) : fs' = fs :=
  (tfsLookup_keeps (I := fun s => s = fs)).eval rfl heval

theorem given_sizes {p : Op (Option (Int × Nat))} {r : Int} (hs : SizesFit fs) (hp : KeepsSizes p)
    (heval : (p.bind fun opened => match opened with
      | none => (ret (-1) : Op Int)
      | some (inum, offset) => addToOpenFileTable inum offset).eval fs = some (r, fs')) :
    SizesFit fs' := by
  rcases given_eval heval with ⟨o, fs₂, hopened, hgiven⟩
  have hs₂ := hp.eval hs hopened
  cases o with
  | none => exact hgiven.2 ▸ hs₂
  | some file =>
      cases hgiven with
      | full _ => exact hs₂
      | handle h _ => exact hs₂

theorem tfsOpen_sizes {r : Int} (hs : SizesFit fs)
    (heval : (tfsOpen name flags).eval fs = some (r, fs')) : SizesFit fs' := by
  rw [tfsOpen] at heval
  split at heval
  · simp only [bind_eq, pure_eq, eval_lock] at heval
    rw [eval_bind] at heval
    rcases Option.bind_eq_some_iff.mp heval with ⟨⟨inum, fs₁⟩, hlookup, heval⟩
    cases tfsLookup_state hlookup
    split at heval
    · exact given_sizes hs (openExisting_sizes inum) heval
    · split at heval
      · exact given_sizes hs openCreated_sizes heval
      · cases heval
        exact hs
  · cases heval
    exact hs

/-! ## Writing -/

theorem writeLoop_sizes (last left i : Nat) (buffer : List UInt8) (written : Nat) :
    KeepsSizes (writeLoop h n last left i buffer written) := by
  have hleave : ∀ value : Int, KeepsSizes (leave h n value) := fun _ =>
    ⟨by simp, by simp, trivial⟩
  have hcopy : ∀ (b : Fin dataBlocks) (bytes : List UInt8), KeepsSizes (copyIn h b bytes) :=
    fun b bytes => keeps_modify? fun _ _ hs hstore => SizesFit.ofBlocks.store? (n := n) hs hstore
  have hadvance : ∀ count : Nat,
      KeepsSizes (Prog.modify fun fs : FS => fs.advance h n count : Op Unit) := by
    intro count
    refine keeps_modify fun fs hs => SizesFit.setInode hs ?_
    exact max_lt (hs n) (Nat.mod_lt _ (by decide))
  induction left generalizing i buffer written with
  | zero => exact hleave _
  | succ left ih =>
      rw [writeLoop]
      simp only [bind_eq]
      refine Keeps.bind (writeBlock_keeps (fun _ h => by cases h) SizesFit.ofBlocks i)
        fun block => ?_
      split
      · exact hleave _
      · refine Keeps.bind (keeps_read _) fun offset => ?_
        split
        · refine Keeps.bind (hcopy _ _) fun _ => Keeps.bind (hadvance _) fun _ => ?_
          exact ih _ _ _
        · split
          · refine Keeps.bind (hcopy _ _) fun _ => Keeps.bind (hadvance _) fun _ => ?_
            exact hleave _
          · generalize blockSize = size
            refine Keeps.bind (hcopy _ _) fun _ => Keeps.bind (hadvance _) fun _ => ?_
            exact ih _ _ _

theorem tfsWrite_sizes (fhandle : Int) (buffer : List UInt8) :
    KeepsSizes (tfsWrite fhandle buffer) := by
  unfold tfsWrite
  split
  · trivial
  · simp only [bind_eq, pure_eq]
    refine Keeps.bind (keeps_lock (by simp)) fun _ => Keeps.bind (keeps_read _) fun inum => ?_
    split
    · exact Keeps.bind (keeps_unlock (by simp)) fun _ => trivial
    · refine Keeps.bind (keeps_lock (by simp)) fun _ => ?_
      split
      · trivial
      · exact Keeps.bind (keeps_read _) fun offset => writeLoop_sizes _ _ _ _ _

/-! ## Runs -/

theorem exec_sizes {r : Ret} (hs : SizesFit fs) (hexec : machine.exec fs c = some (r, fs')) :
    SizesFit fs' := by
  cases c with
  | «open» name flags => exact tfsOpen_sizes hs (exec_open hexec)
  | lookup name =>
      change (exec (.lookup name)).eval fs = some (r, fs') at hexec
      rw [exec, bind_eq, eval_bind] at hexec
      rcases Option.bind_eq_some_iff.mp hexec with ⟨⟨r', fs₁⟩, heval, hend⟩
      cases hend
      rw [tfsLookup_state heval]
      exact hs
  | close fhandle =>
      change (exec (.close fhandle)).eval fs = some (r, fs') at hexec
      rw [exec, bind_eq, eval_bind] at hexec
      rcases Option.bind_eq_some_iff.mp hexec with ⟨⟨r', fs₁⟩, heval, hend⟩
      cases hend
      rcases tfsClose_eval heval with rfl | ⟨h, rfl⟩
      · exact hs
      · exact hs
  | read fhandle len =>
      change (exec (.read fhandle len)).eval fs = some (r, fs') at hexec
      rw [exec, bind_eq, eval_bind] at hexec
      rcases Option.bind_eq_some_iff.mp hexec with ⟨⟨out, fs₁⟩, heval, hend⟩
      cases hend
      rw [SizesFit, (tfsRead_onlyOffsets heval).inodes]
      exact hs
  | write fhandle buffer =>
      change (exec (.write fhandle buffer)).eval fs = some (r, fs') at hexec
      rw [exec, bind_eq, eval_bind] at hexec
      rcases Option.bind_eq_some_iff.mp hexec with ⟨⟨r', fs₁⟩, heval, hend⟩
      cases hend
      exact (tfsWrite_sizes fhandle buffer).eval hs heval

/-- Sizes are words in every state of every run. -/
theorem Reach.sizesFit {ok : Machine.Guard FS Call Ret} {tr : Machine.Trace Call Ret}
    (hreach : machine.Reach ok (tr, fs)) : SizesFit fs := by
  refine hreach.invariant (P := fun _ fs => SizesFit fs) ?_ ?_
  · rw [machine_init]
    intro n
    by_cases hn : n = 0
    · subst hn
      decide
    · simp [initialFS, boot, hn, wordSize]
  · intro tr fs c r fs' hs _ hexec
    exact exec_sizes hs hexec

end TecnicoFS.Part1
