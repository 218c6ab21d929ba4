import TecnicoFS.Part1.Opening

/-!
# Part 1: sequential runs whose writes meet a condition

`Writes ok` admits every call but a write; a write goes through a handle of a file and writes
nothing or meets the condition `ok`. Where `ok` excludes the defects of `tfs_write`, every state
of such a run is consistent (`Reach.consistent`). `Changes` is what one call can do.
-/

namespace TecnicoFS.Part1

open Threads Threads.Prog
open Part2 (Call Ret blockSize dataBlocks inodeTableSize maxOpenFiles blockAddr dataBlockGet
  inodeGet getOpenFileEntry)

variable {fs fs' : FS} {n m : Fin inodeTableSize} {h : Fin maxOpenFiles} {buffer : List UInt8}
  {r : Ret} {c : Call}

/-- A condition on the writes of a run. -/
abbrev WriteCondition : Type :=
  FS → Fin maxOpenFiles → Fin inodeTableSize → List UInt8 → Prop

/-- Every call but a write; the writes go through handles of files, and what they write meets the
condition. -/
def Writes (ok : WriteCondition) : Machine.Guard FS Call Ret
  | _, fs, .write fhandle buffer => ∀ h, getOpenFileEntry fhandle = some h →
      ∃ n : Fin inodeTableSize, (fs.openFileTable h).ofInumber = ((n : Nat) : Int) ∧
        IsFile fs n ∧ (buffer = [] ∨ ok fs h n buffer)
  | _, _, _ => True

instance (fs : FS) (n : Fin inodeTableSize) : Decidable (IsFile fs n) :=
  inferInstanceAs (Decidable (_ ∧ _))

instance (ok : WriteCondition) [inst : ∀ fs h n buffer, Decidable (ok fs h n buffer)]
    (tr : Machine.Trace Call Ret) (fs : FS) : ∀ c, Decidable (Writes ok tr fs c)
  | .lookup _ => isTrue trivial
  | .open _ _ => isTrue trivial
  | .close _ => isTrue trivial
  | .write fhandle buffer => inferInstanceAs (Decidable (∀ h, getOpenFileEntry fhandle = some h →
      ∃ n : Fin inodeTableSize, (fs.openFileTable h).ofInumber = ((n : Nat) : Int) ∧
        IsFile fs n ∧ (buffer = [] ∨ ok fs h n buffer)))
  | .read _ _ => isTrue trivial

/-! ## Calls that leave files alone -/

/-- Files, blocks and the directory are as before. -/
structure SameStore (fs fs' : FS) : Prop where
  inodes : fs'.inodeTable = fs.inodeTable
  states : fs'.freeinodeTs = fs.freeinodeTs
  data : fs'.fsData = fs.fsData
  marks : fs'.freeBlocks = fs.freeBlocks

theorem SameStore.refl (fs : FS) : SameStore fs fs := ⟨rfl, rfl, rfl, rfl⟩

/-- Only offsets of handles change. -/
structure OnlyOffsets (fs fs' : FS) : Prop extends SameStore fs fs' where
  handles : fs'.freeOpenFileEntries = fs.freeOpenFileEntries
  files : SameFiles fs fs'

theorem OnlyOffsets.setOffset (ho : OnlyOffsets fs fs') (offset : Nat) : OnlyOffsets fs
    (fs'.setHandle h { fs'.openFileTable h with ofOffset := offset }) :=
  ⟨⟨ho.inodes, ho.states, ho.data, ho.marks⟩, ho.handles, ho.files.setOffset offset⟩

theorem copyOut_onlyOffsets (b : Fin dataBlocks) (offset count : Nat) :
    Keeps .openFilesMutex (OnlyOffsets fs) (copyOut h b offset count) := by
  unfold copyOut
  split
  · refine Keeps.bind (keeps_read _) fun bytes => ?_
    exact Keeps.bind (keeps_modify fun _ ho => ho.setOffset _) fun _ => trivial
  · trivial

theorem leave_onlyOffsets {α : Type} (value : α) :
    Keeps .openFilesMutex (OnlyOffsets fs) (leave h n value) := ⟨by simp, by simp, trivial⟩

theorem readLoop_onlyOffsets (last left i toRead : Nat) (bytes : List UInt8) :
    Keeps .openFilesMutex (OnlyOffsets fs) (readLoop h n last left i toRead bytes) := by
  induction left generalizing i toRead bytes with
  | zero => exact leave_onlyOffsets _
  | succ left ih =>
      rw [readLoop]
      simp only [bind_eq]
      refine Keeps.bind (readBlock_keeps i) fun block => ?_
      split
      · exact leave_onlyOffsets _
      · refine Keeps.bind (keeps_read _) fun offset => ?_
        split
        · exact Keeps.bind (copyOut_onlyOffsets _ _ _) fun more => ih _ _ _
        · split
          · exact Keeps.bind (copyOut_onlyOffsets _ _ _) fun more => leave_onlyOffsets _
          · generalize blockSize = size
            exact Keeps.bind (copyOut_onlyOffsets _ _ _) fun more => ih _ _ _

/-- Whatever a read delivers, only the offset of its handle moves. -/
theorem tfsRead_onlyOffsets {fhandle : Int} {len : Nat} {out : Int × List UInt8}
    (heval : (tfsRead fhandle len).eval fs = some (out, fs')) : OnlyOffsets fs fs' := by
  have hkeeps : Keeps .openFilesMutex (OnlyOffsets fs) (tfsRead fhandle len) := by
    rw [tfsRead]
    split
    · trivial
    · simp only [bind_eq, pure_eq]
      refine Keeps.bind (keeps_lock (by simp)) fun _ => Keeps.bind (keeps_read _) fun inum => ?_
      split
      · exact Keeps.bind (keeps_unlock (by simp)) fun _ => trivial
      · refine Keeps.bind (keeps_lock (by simp)) fun _ => Keeps.bind (keeps_read _) fun offset => ?_
        refine Keeps.bind (keeps_read _) fun size => ?_
        split
        · exact leave_onlyOffsets _
        · exact readLoop_onlyOffsets _ _ _ _ _
  exact hkeeps.eval ⟨SameStore.refl fs, rfl, fun _ => rfl⟩ heval

/-- What `tfs_close` can do: nothing, or give a handle back. -/
theorem tfsClose_eval {fhandle r : Int} (heval : (tfsClose fhandle).eval fs = some (r, fs')) :
    fs' = fs ∨ ∃ h, fs' = (fs.setCount (fs.openFilesCount - 1)).setHandleState h .free := by
  rw [tfsClose, removeFromOpenFileTable] at heval
  split at heval
  · cases heval
  · next h _ =>
      simp only [bind_eq, pure_eq, eval_readLock, eval_read] at heval
      split at heval
      · cases heval
        exact Or.inl rfl
      · rw [eval_lock, eval_modify, eval_read] at heval
        split at heval
        · cases heval
          exact Or.inr ⟨h, rfl⟩
        · cases heval
          exact Or.inr ⟨h, rfl⟩

/-- A write of no bytes. -/
theorem tfsWrite_nil {fhandle r : Int} (heval : (tfsWrite fhandle []).eval fs = some (r, fs')) :
    fs' = fs := by
  rw [tfsWrite] at heval
  split at heval
  · cases heval
    rfl
  · simp only [bind_eq, pure_eq, eval_lock, eval_read] at heval
    split at heval
    · cases heval
      rfl
    · rw [eval_lock, if_pos List.length_nil] at heval
      cases heval
      rfl

/-- A write through a number that is no handle. -/
theorem tfsWrite_invalid {fhandle r : Int} (hhandle : getOpenFileEntry fhandle = none)
    (heval : (tfsWrite fhandle buffer).eval fs = some (r, fs')) : fs' = fs := by
  rw [tfsWrite, hhandle] at heval
  cases heval
  rfl

/-! ## One call -/

/-- What a call can do to a consistent state. -/
inductive Changes (ok : WriteCondition) (fs fs' : FS) : Prop
  | handles : SameStore fs fs' → (∀ h, Refers fs h → Refers fs' h) → Changes ok fs fs'
  | opened {name : CString} {flags : BitVec 32} {r : Int} :
      (tfsOpen name flags).eval fs = some (r, fs') → Changes ok fs fs'
  | wrote {h : Fin maxOpenFiles} {n : Fin inodeTableSize} {buffer : List UInt8} {r : Int} :
      (fs.openFileTable h).ofInumber = ((n : Nat) : Int) → IsFile fs n → ok fs h n buffer →
      (tfsWrite ((h : Nat) : Int) buffer).eval fs = some (r, fs') → Changes ok fs fs'

theorem SameStore.isFile (hs : SameStore fs fs') : IsFile fs' m ↔ IsFile fs m :=
  isFile_congr hs.states (by rw [hs.inodes])

/-- A call other than `tfs_open` leaves the files alone, or it is a write. -/
theorem exec_without_open {ok : WriteCondition} {tr : Machine.Trace Call Ret} (hc : Consistent fs)
    (hguard : Writes ok tr fs c) (hcall : ∀ name flags, c ≠ .open name flags)
    (hexec : machine.exec fs c = some (r, fs')) :
    (SameStore fs fs' ∧ ∀ h, Refers fs h → Refers fs' h) ∨
      ∃ (h : Fin maxOpenFiles) (n : Fin inodeTableSize) (buffer : List UInt8) (r' : Int),
        (fs.openFileTable h).ofInumber = ((n : Nat) : Int) ∧ IsFile fs n ∧ ok fs h n buffer ∧
          (tfsWrite ((h : Nat) : Int) buffer).eval fs = some (r', fs') := by
  have hsame : fs' = fs → (SameStore fs fs' ∧ ∀ h, Refers fs h → Refers fs' h) := by
    rintro rfl
    exact ⟨SameStore.refl fs', fun _ => id⟩
  change (exec c).eval fs = some (r, fs') at hexec
  cases c with
  | lookup name =>
      rcases tfsLookup_eval hc name with ⟨r', heval, -⟩
      rw [exec, bind_eq, eval_bind, heval] at hexec
      cases hexec
      exact Or.inl (hsame rfl)
  | «open» name flags => exact absurd rfl (hcall name flags)
  | close fhandle =>
      rw [exec, bind_eq, eval_bind] at hexec
      rcases Option.bind_eq_some_iff.mp hexec with ⟨⟨r', fs₁⟩, heval, hend⟩
      cases hend
      left
      rcases tfsClose_eval heval with hsame' | ⟨h, rfl⟩
      · exact hsame hsame'
      -- only the mark of the handle changes
      · refine ⟨⟨rfl, rfl, rfl, rfl⟩, fun k hk => hk.congr rfl ?_ fun _ hm => hm⟩
        intro htaken
        by_cases hkh : k = h
        · subst hkh
          simp at htaken
        · simpa [hkh] using htaken
  | read fhandle len =>
      rw [exec, bind_eq, eval_bind] at hexec
      rcases Option.bind_eq_some_iff.mp hexec with ⟨⟨out, fs₁⟩, heval, hend⟩
      cases hend
      left
      have honly := tfsRead_onlyOffsets heval
      refine ⟨honly.toSameStore, fun k hk => hk.congr (honly.files k) ?_ fun m hm => ?_⟩
      · rw [honly.handles]
        exact id
      · exact honly.toSameStore.isFile.mpr hm
  | write fhandle buffer =>
      rw [exec, bind_eq, eval_bind] at hexec
      rcases Option.bind_eq_some_iff.mp hexec with ⟨⟨r', fs₁⟩, heval, hend⟩
      cases hend
      cases hhandle : getOpenFileEntry fhandle with
      | none => exact Or.inl (hsame (tfsWrite_invalid hhandle heval))
      | some h =>
          -- the guard lets empty writes through, and they change nothing
          rcases hguard h hhandle with ⟨n, hn, hfile, rfl | hok⟩
          · exact Or.inl (hsame (tfsWrite_nil heval))
          · rw [index?_eq_some.mp hhandle] at heval
            exact Or.inr ⟨h, n, buffer, r', hn, hfile, hok, heval⟩

/-- A call of `tfs_open`, as part of a run. -/
theorem exec_open {name : CString} {flags : BitVec 32}
    (hexec : machine.exec fs (.open name flags) = some (r, fs')) :
    (tfsOpen name flags).eval fs = some (r.value, fs') := by
  change (exec (.open name flags)).eval fs = some (r, fs') at hexec
  rw [exec, bind_eq, eval_bind] at hexec
  rcases Option.bind_eq_some_iff.mp hexec with ⟨⟨r', fs₁⟩, heval, hend⟩
  cases hend
  exact heval

/-- A call opens a file or does something else. -/
theorem open_or_other (c : Call) :
    (∃ name flags, c = .open name flags) ∨ ∀ name flags, c ≠ .open name flags := by
  by_cases hopen : ∃ name flags, c = .open name flags
  · exact Or.inl hopen
  · exact Or.inr fun name flags heq => hopen ⟨name, flags, heq⟩

theorem exec_changes {ok : WriteCondition} {tr : Machine.Trace Call Ret} (hc : Consistent fs)
    (hguard : Writes ok tr fs c) (hexec : machine.exec fs c = some (r, fs')) :
    Changes ok fs fs' := by
  rcases open_or_other c with ⟨name, flags, rfl⟩ | hother
  · exact .opened (exec_open hexec)
  · rcases exec_without_open hc hguard hother hexec with
      ⟨hsame, hrefers⟩ | ⟨h, n, buffer, r', hn, hfile, hok, heval⟩
    · exact .handles hsame hrefers
    · exact .wrote hn hfile hok heval

/-- A call keeps the invariant. -/
theorem Changes.consistent {ok : WriteCondition} (hc : Consistent fs)
    (hwrites : ∀ fs h n buffer, ok fs h n buffer → WriteOk fs h n buffer)
    (hchanges : Changes ok fs fs') : Consistent fs' := by
  cases hchanges with
  | handles hsame hrefers =>
      exact hc.of_core hsame.states (fun m _ => by rw [hsame.inodes]) hsame.data hsame.marks
        fun h => hrefers h (hc.handles h)
  | opened heval => exact tfsOpen_consistent hc heval
  | wrote hn hfile hok heval =>
      rcases (hwrites _ _ _ _ hok).eval hc hn hfile rfl with ⟨count, fs₁, heval', -, -, hc'⟩
      rw [heval] at heval'
      cases heval'
      exact hc'

/-- Every state of a run is consistent. -/
theorem Reach.consistent {ok : WriteCondition} {tr : Machine.Trace Call Ret}
    (hreach : machine.Reach (Writes ok) (tr, fs))
    (hwrites : ∀ fs h n buffer, ok fs h n buffer → WriteOk fs h n buffer) : Consistent fs := by
  refine hreach.invariant (P := fun _ fs => Consistent fs) ?_ ?_
  · rw [machine_init]
    exact initialFS_consistent
  · intro tr fs c r fs' hc hguard hexec
    exact (exec_changes hc hguard hexec).consistent hc hwrites

/-- A weaker condition on the writes admits the same runs. -/
theorem Writes.mono {ok ok' : WriteCondition} {tr : Machine.Trace Call Ret}
    (hle : ∀ fs h n buffer, ok fs h n buffer → ok' fs h n buffer) (hw : Writes ok tr fs c) :
    Writes ok' tr fs c := by
  cases c with
  | write fhandle buffer =>
      intro h hh
      rcases hw h hh with ⟨n, hn, hfile, hcond⟩
      exact ⟨n, hn, hfile, hcond.imp id (hle fs h n buffer)⟩
  | _ => trivial

/-- A write into the direct blocks that does not run over the end of a block. -/
def DirectOk : WriteCondition := fun fs h _ buffer =>
  buffer ≠ [] ∧ Fits (fs.openFileTable h).ofOffset buffer.length ∧
    (fs.openFileTable h).ofOffset + buffer.length ≤ maxDirectBlocks * blockSize

instance (fs : FS) (h : Fin maxOpenFiles) (n : Fin inodeTableSize) (buffer : List UInt8) :
    Decidable (DirectOk fs h n buffer) := inferInstanceAs (Decidable (_ ∧ _ ∧ _))

theorem DirectOk.writeOk (hd : DirectOk fs h n buffer) : WriteOk fs h n buffer := by
  rcases hd with ⟨hbuffer, hfits, hdirect⟩
  have hle : planned (fs.openFileTable h).ofOffset buffer.length ≤ buffer.length :=
    Nat.min_le_left ..
  constructor
  · exact hbuffer
  · exact hfits
  · simp only [maxFileSize, maxFileBlocks, maxDirectBlocks, tableSize, blockSize] at hdirect ⊢
    omega
  · intro t ht
    rw [newTable, if_neg] at ht
    · cases ht
    · rintro ⟨-, hlt⟩
      simp only [stopBlock, maxDirectBlocks, blockSize] at hdirect hlt
      omega

/-- The state in which one new file is open. -/
theorem reach_opened (ok : WriteCondition) : ∃ tr fs, machine.Reach (Writes ok) (tr, fs) ∧
    Opens fs 0 1 ∧ (fs.openFileTable 0).ofOffset = 0 ∧
      fs.inodeTable 1 = ⟨.tFile, 0, fun _ => -1, -1⟩ ∧ ∀ b, b ≠ 0 → fs.freeBlocks b = .free := by
  have hrun : (machine.run initialFS [.open pathA 1]).map (fun out : List Ret × FS =>
      decide (out.2.freeOpenFileEntries 0 = .taken ∧ out.2.openFileTable 0 = ⟨1, 0⟩ ∧
        out.2.freeinodeTs 1 = .taken ∧ (out.2.inodeTable 1).iNodeType = .tFile ∧
        (out.2.inodeTable 1).iSize = 0 ∧ (∀ i, (out.2.inodeTable 1).iDataBlock i = -1) ∧
        (out.2.inodeTable 1).iIndirectDataBlock = -1 ∧
        ∀ b, b ≠ 0 → out.2.freeBlocks b = .free)) = some true := by
    decide +kernel
  rcases Option.map_eq_some_iff.mp hrun with ⟨⟨results, fs⟩, hrun, hfacts⟩
  rcases of_decide_eq_true hfacts with
    ⟨htaken, hentry, hinode, htype, hsize, hdirect, htable, hfree⟩
  have hstart : machine.Reach (Writes ok) ([], initialFS) := by
    rw [← machine_init]
    exact Machine.Reach.start
  rcases hstart.run (fun tr s c hc => by
    rw [List.mem_singleton] at hc
    subst hc
    trivial) hrun with ⟨tr, hreach⟩
  refine ⟨tr, fs, hreach, ⟨htaken, by rw [hentry]; rfl, hinode, htype⟩, by rw [hentry], ?_, hfree⟩
  rcases hrecord : fs.inodeTable 1 with ⟨nType, size, direct, table⟩
  rw [hrecord] at htype hsize hdirect htable
  cases htype
  cases hsize
  cases htable
  have hslots : direct = fun _ => -1 := funext hdirect
  rw [hslots]
  rfl

end TecnicoFS.Part1
