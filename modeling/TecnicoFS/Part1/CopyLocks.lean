import TecnicoFS.Part1.CopyOut
import TecnicoFS.Part1.Sizes
import TecnicoFS.Part1.LockedRuns

/-!
# Part 1: the locks of `tfs_copy_to_external_fs`

The copy opens, reads and closes its source as any thread does, so it comes to the locks of these
calls: those of `tfs_open` up to the entry of the source and up to the first free handle, and those
of the handle and the i-node for each block. Where one of them is left by an earlier call, the copy
does not return.
-/

namespace TecnicoFS.Part1

open Threads Threads.Prog
open Part2 (Call Ret rootDirInum validPathname hasFlag tfsOTrunc maxFileName blockSize dataBlocks
  inodeTableSize maxOpenFiles maxDirEntries entryAddr dName dInumber dataBlockGet getOpenFileEntry
  inodeGet)

variable {fs fs' : FS} {n : Fin inodeTableSize} {h : Fin maxOpenFiles} {name : CString}
  {env : Outside} {own : List (Lock × Mode)}

/-! ## The locks -/

/-- The elements of a list up to the first of a kind, that one included. -/
def upTo {α : Type} (p : α → Bool) : List α → List α
  | [] => []
  | a :: as => if p a then [a] else a :: upTo p as

theorem mem_upTo_of_find? {α : Type} {p : α → Bool} {as : List α} {a : α}
    (h : as.find? p = some a) : a ∈ upTo p as := by
  induction as with
  | nil => cases h
  | cons b as ih =>
      rw [upTo]
      by_cases hb : p b = true
      · rw [List.find?_cons_of_pos hb] at h
        rw [if_pos hb, Option.some.inj h]
        exact List.mem_singleton_self a
      · rw [List.find?_cons_of_neg hb] at h
        rw [if_neg hb]
        exact List.mem_cons_of_mem b (ih h)

/-- The entry of the directory in this block is the one that is looked for. -/
def found (fs : FS) (b : Fin dataBlocks) (subName : CString) (i : Fin maxDirEntries) : Bool :=
  decide (dInumber fs.fsData (entryAddr b i) ≠ -1 ∧
    strncmp maxFileName (dName fs.fsData (entryAddr b i)) subName.cells = 0)

/-- The locks of the entries that `find_in_dir` looks at. -/
def entryLocks (fs : FS) (b : Fin dataBlocks) (subName : CString)
    (is : List (Fin maxDirEntries)) : List (Lock × Mode) :=
  (upTo (found fs b subName) is).map fun i => (.dirEntry i, .read)

/-- The locks of `tfs_lookup`. -/
def lookupLocks (fs : FS) (name : CString) : List (Lock × Mode) :=
  (.inode 0, .read) ::
    if (fs.inodeTable 0).iNodeType ≠ .tDirectory then []
    else
      match dataBlockGet ((fs.inodeTable 0).iDataBlock 0) with
      | none => []
      | some b => entryLocks fs b name.tail (List.finRange maxDirEntries)

/-- The locks of the handles that `add_to_open_file_table` looks at, and its mutex where one of
them is free. -/
def handleLocks (fs : FS) (hs : List (Fin maxOpenFiles)) : List (Lock × Mode) :=
  (upTo (fun h => decide (fs.freeOpenFileEntries h = .free)) hs).map
      (fun h => (.openFile h, .write)) ++
    if ∃ h ∈ hs, fs.freeOpenFileEntries h = .free then [(.openFilesMutex, .write)] else []

/-- The locks of a copy of the file. -/
def copyLocks (fs : FS) (name : CString) (n : Fin inodeTableSize) : List (Lock × Mode) :=
  (.openFileLock, .write) :: (lookupLocks fs name ++
    (.inode n, .write) :: handleLocks fs (List.finRange maxOpenFiles))

/-! ## Opening -/

theorem findFirst_needs (b : Fin dataBlocks) (subName : CString) (is : List (Fin maxDirEntries))
    (hfree : ∀ i, Lock.dirEntry i ∉ own.map Prod.fst) :
    Needs (entryLocks fs b subName is) own own (findFirst b subName is) fs := by
  induction is with
  | nil => exact needs_ret _
  | cons i is ih =>
      rw [findFirst]
      simp only [bind_eq]
      by_cases hfound : found fs b subName i = true
      · have hlocks : entryLocks fs b subName (i :: is) = [(.dirEntry i, .read)] := by
          rw [entryLocks, upTo, if_pos hfound, List.map_singleton]
        rw [hlocks]
        refine needs_readLock (hfree i) (needs_read (needs_unlock ?_))
        change Needs [] own own (if found fs b subName i = true then _ else _) fs
        rw [if_pos hfound]
        exact needs_load
      · have hlocks : entryLocks fs b subName (i :: is) =
            (.dirEntry i, .read) :: entryLocks fs b subName is := by
          rw [entryLocks, upTo, if_neg hfound, List.map_cons]
          rfl
        rw [hlocks]
        refine needs_readLock (hfree i) (needs_read (needs_unlock ?_))
        change Needs _ own own (if found fs b subName i = true then _ else _) fs
        rw [if_neg hfound]
        exact ih

theorem tfsLookup_needs (hvalid : validPathname name = true)
    (hfree : ∀ l, l ∈ own.map Prod.fst → l = .openFileLock) :
    Needs (lookupLocks fs name) own own (tfsLookup name) fs := by
  have hroot : index? inodeTableSize rootDirInum = some 0 := rfl
  have hinode : Lock.inode 0 ∉ own.map Prod.fst := fun hmem => by cases hfree _ hmem
  rw [tfsLookup, if_pos hvalid, findInDir, hroot]
  simp only [bind_eq]
  refine needs_readLock hinode (needs_read (needs_unlock ?_))
  by_cases htype : (fs.inodeTable 0).iNodeType ≠ .tDirectory
  · rw [if_pos htype, if_pos htype]
    exact needs_ret _
  · rw [if_neg htype, if_neg htype]
    cases dataBlockGet ((fs.inodeTable 0).iDataBlock 0) with
    | none => exact needs_ret _
    | some b => exact findFirst_needs b name.tail _ fun i hmem => by cases hfree _ hmem

theorem addFirst_needs (inumber : Int) (offset : Nat) (hs : List (Fin maxOpenFiles)) :
    Needs (handleLocks fs hs) [] [] (addFirst inumber offset hs) fs := by
  induction hs with
  | nil => exact needs_ret _
  | cons h hs ih =>
      rw [addFirst]
      simp only [bind_eq]
      by_cases hh : fs.freeOpenFileEntries h = .free
      · have hlocks : handleLocks fs (h :: hs) =
            [(.openFile h, .write), (.openFilesMutex, .write)] := by
          rw [handleLocks, upTo, if_pos (decide_eq_true hh), if_pos ⟨h, List.mem_cons_self, hh⟩]
          rfl
        rw [hlocks]
        refine needs_lock (by simp) (needs_read ?_)
        rw [if_pos hh]
        refine needs_lock (by simp) (needs_modify (needs_modify ?_))
        exact needs_unlock_below (by simp) (needs_unlock (needs_ret _))
      · have hlocks : handleLocks fs (h :: hs) = (.openFile h, .write) :: handleLocks fs hs := by
          rw [handleLocks, upTo, if_neg (by simpa using hh), handleLocks, List.map_cons,
            List.cons_append]
          simp only [List.exists_mem_cons_iff, hh, false_or]
        rw [hlocks]
        refine needs_lock (by simp) (needs_read ?_)
        rw [if_neg hh]
        exact needs_unlock ih

/-- `tfs_open` without flags, on a path that is found. -/
theorem tfsOpen_needs (hlookup : (tfsLookup name).eval fs = some (((n : Nat) : Int), fs)) :
    Needs (copyLocks fs name n) [] [] (tfsOpen name 0) fs := by
  have hvalid : validPathname name = true := by
    by_contra hno
    rw [tfsLookup, if_neg hno] at hlookup
    have hminus : (-1 : Int) = ((n : Nat) : Int) := (Prod.mk.inj (Option.some.inj hlookup)).1
    omega
  rw [tfsOpen, if_pos hvalid]
  simp only [bind_eq]
  refine needs_lock (by simp) ((tfsLookup_needs hvalid ?_).bind fun inum fs₁ heval => ?_)
  · intro l hl
    simpa using hl
  · rw [hlookup] at heval
    cases heval
    rw [if_pos (Int.natCast_nonneg _), openExisting, index?_natCast]
    simp only [bind_eq, pure_eq, ret_bind, Prog.bind_assoc]
    refine needs_lock (by simp) ?_
    rw [if_neg (show ¬ hasFlag 0 tfsOTrunc = true by decide)]
    rw [if_pos trivial, if_neg (show ¬ hasFlag 0 Part2.tfsOAppend = true by decide)]
    simp only [Prog.bind_assoc, ret_bind]
    refine needs_unlock_below (show Lock.inode n ≠ .openFileLock by simp) ?_
    exact needs_unlock (addFirst_needs _ _ _)

/-! ## Reading and closing -/

/-- The locks of a read. -/
def readLocks (n : Fin inodeTableSize) (h : Fin maxOpenFiles) : List (Lock × Mode) :=
  [(.openFile h, .write), (.inode n, .write)]

theorem leave_needs {α : Type} (value : α) :
    Needs [] (fileLocks n h) [] (leave h n value) fs := by
  rw [leave]
  simp only [bind_eq, pure_eq]
  exact needs_unlock_below (by simp) (needs_unlock (needs_ret _))

theorem readBlock_needs (i : Nat) : Needs [] own own (readBlock n i) fs := by
  unfold readBlock
  split
  · exact needs_load
  · simp only [bind_eq]
    refine needs_read ?_
    split
    · exact needs_ret _
    · split
      · exact needs_crash
      · exact needs_load

theorem copyOut_needs (b : Fin dataBlocks) (offset count : Nat) :
    Needs [] own own (copyOut h b offset count) fs := by
  unfold copyOut
  split
  · simp only [bind_eq]
    exact needs_read (needs_modify (needs_ret _))
  · exact needs_crash

theorem readLoop_needs (last left i toRead : Nat) (bytes : List UInt8) :
    Needs [] (fileLocks n h) [] (readLoop h n last left i toRead bytes) fs := by
  induction left generalizing i toRead bytes fs with
  | zero => exact leave_needs _
  | succ left ih =>
      rw [readLoop]
      simp only [bind_eq]
      refine (readBlock_needs i).bind fun block fs₁ _ => ?_
      split
      · exact leave_needs _
      · refine needs_read ?_
        split
        · exact (copyOut_needs _ _ _).bind fun more fs₂ _ => ih _ _ _
        · split
          · exact (copyOut_needs _ _ _).bind fun more fs₂ _ => leave_needs _
          · generalize blockSize = size
            exact (copyOut_needs _ _ _).bind fun more fs₂ _ => ih _ _ _

theorem tfsRead_needs (hn : (fs.openFileTable h).ofInumber = ((n : Nat) : Int)) (len : Nat) :
    Needs (readLocks n h) [] [] (tfsRead ((h : Nat) : Int) len) fs := by
  have hhandle : getOpenFileEntry ((h : Nat) : Int) = some h := index?_natCast h
  have hinode : inodeGet ((n : Nat) : Int) = some n := index?_natCast n
  rw [tfsRead, hhandle]
  simp only [bind_eq]
  refine needs_lock (by simp) (needs_read ?_)
  simp only [hn, hinode]
  refine needs_lock (by simp) (needs_read (needs_read ?_))
  split
  · exact leave_needs _
  · exact readLoop_needs _ _ _ _ _

theorem tfsClose_needs (htaken : fs.freeOpenFileEntries h = .taken) :
    Needs [(.openFile h, .read), (.openFilesMutex, .write)] [] [] (tfsClose ((h : Nat) : Int))
      fs := by
  rw [tfsClose, removeFromOpenFileTable, index?_natCast]
  simp only [bind_eq, pure_eq]
  refine needs_readLock (by simp) (needs_read ?_)
  rw [if_neg (not_not.mpr htaken)]
  refine needs_lock (by simp) (needs_modify (needs_read ?_))
  split
  · exact needs_wakeOne (needs_modify (needs_unlock (needs_unlock (needs_ret _))))
  · exact needs_modify (needs_unlock (needs_unlock (needs_ret _)))

/-- However often it reads, the loop comes to the locks of a read only. -/
theorem copyLoop_needs (hn : (fs.openFileTable h).ofInumber = ((n : Nat) : Int))
    (fuel call : Nat) (copied : List UInt8) :
    Needs (readLocks n h) [] [] (copyLoop env ((h : Nat) : Int) (fuel + 1) call copied) fs := by
  have hnone : ∀ outcome s', ∃ need',
      Needs need' [] [] (ret outcome : Op (Option (Bool × List UInt8))) s' ∧ ∀ left, (∀ d ∈ readLocks n h, Grantable left d) → ∀ d ∈ need', Grantable left d :=
    fun outcome s' => ⟨[], needs_ret _, fun left _ d hd => absurd hd List.not_mem_nil⟩
  induction fuel generalizing fs call copied with
  | zero =>
      rw [copyLoop]
      simp only [bind_eq, pure_eq]
      refine (tfsRead_needs hn blockSize).bind_again fun out fs₁ _ => ?_
      repeat' split
      all_goals exact hnone _ _
  | succ fuel ih =>
      rw [copyLoop]
      simp only [bind_eq, pure_eq]
      refine (tfsRead_needs hn blockSize).bind_again fun out fs₁ heval => ?_
      split
      · exact hnone _ _
      split
      · exact hnone _ _
      split
      · have hn₁ := ((tfsRead_onlyOffsets heval).files h).trans hn
        exact ⟨readLocks n h, ih hn₁ _ _, fun _ => id⟩
      · exact hnone _ _

/-! ## The copy -/

/-- The handle that is given out is the last of those looked at. -/
theorem copyLocks_free {left : List (Lock × Mode)}
    (hfirst : (firstFit fun h => fs.freeOpenFileEntries h = .free) = some h)
    (hall : ∀ d ∈ copyLocks fs name n, Grantable left d) : Grantable left (.openFile h, .write) ∧
      Grantable left (.openFilesMutex, .write) ∧ Grantable left (.inode n, .write) := by
  have hfree : fs.freeOpenFileEntries h = .free := (firstFit_eq_some.mp hfirst).1
  rw [firstFit_eq_find?] at hfirst
  have hhandles : ∀ d ∈ handleLocks fs (List.finRange maxOpenFiles), Grantable left d :=
    fun d hd => hall d (List.mem_cons_of_mem _ (List.mem_append_right _ (List.mem_cons_of_mem _ hd)))
  refine ⟨hhandles _ ?_, hhandles _ ?_, hall _ ?_⟩
  · exact List.mem_append_left _ (List.mem_map.mpr ⟨h, mem_upTo_of_find? hfirst, rfl⟩)
  · refine List.mem_append_right _ ?_
    rw [if_pos ⟨h, List.mem_finRange h, hfree⟩]
    exact List.mem_singleton_self _
  · exact List.mem_cons_of_mem _ (List.mem_append_right _ List.mem_cons_self)

/-- The loop leaves the marks of the handles alone. -/
theorem copyLoop_handles {fhandle : Int} {fuel call : Nat} {copied : List UInt8}
    {out : Option (Bool × List UInt8)}
    (heval : (copyLoop env fhandle fuel call copied).eval fs = some (out, fs')) :
    fs'.freeOpenFileEntries = fs.freeOpenFileEntries := by
  induction fuel generalizing fs call copied with
  | zero =>
      cases heval
      rfl
  | succ fuel ih =>
      rw [copyLoop, bind_eq, eval_bind] at heval
      rcases Option.bind_eq_some_iff.mp heval with ⟨⟨read, fs₁⟩, hread, heval⟩
      have honly := tfsRead_onlyOffsets hread
      dsimp only at heval
      split at heval
      · cases heval
        exact honly.handles
      split at heval
      · cases heval
        exact honly.handles
      split at heval
      · exact (ih heval).trans honly.handles
      · cases heval
        exact honly.handles

/-- After the loop the handle may be closed. -/
theorem finishCopy_needs (htaken : fs.freeOpenFileEntries h = .taken)
    (outcome : Option (Bool × List UInt8)) :
    ∃ need, Needs need [] [] (finishCopy ((h : Nat) : Int) outcome) fs ∧
      ∀ left, Grantable left (.openFile h, .write) → Grantable left (.openFilesMutex, .write) →
        ∀ d ∈ need, Grantable left d := by
  have hnone : ∀ left : List (Lock × Mode), ∀ d ∈ [], Grantable left d :=
    fun _ d hd => absurd hd List.not_mem_nil
  rcases outcome with - | ⟨all, copied⟩
  · exact ⟨[], needs_ret _, fun left _ _ => hnone left⟩
  cases all with
  | false => exact ⟨[], needs_ret _, fun left _ _ => hnone left⟩
  | true =>
      refine ⟨[(.openFile h, .read), (.openFilesMutex, .write)], ?_, fun left hh hm => ?_⟩
      · rw [finishCopy]
        simp only [bind_eq, pure_eq]
        refine (tfsClose_needs htaken).bind_again fun r fs₁ _ => ⟨[], ?_, fun left _ => hnone left⟩
        split <;> exact needs_ret _
      · simp only [List.forall_mem_cons]
        exact ⟨hh.read, hm, hnone left⟩

/-- What comes after the open, on a handle whose locks are free. -/
theorem copyRest_needs (env : Outside) (fuel : Nat)
    (hn : (fs.openFileTable h).ofInumber = ((n : Nat) : Int))
    (htaken : fs.freeOpenFileEntries h = .taken) :
    ∃ need, Needs need [] [] (if env.fopen then
        if env.malloc then
          (copyLoop env ((h : Nat) : Int) (fuel + 1) 0 []).bind (finishCopy ((h : Nat) : Int))
        else ret (some (-1, []))
      else ret (some (-1, []))) fs ∧
      ∀ left, Grantable left (.openFile h, .write) → Grantable left (.openFilesMutex, .write) →
        Grantable left (.inode n, .write) → ∀ d ∈ need, Grantable left d := by
  have hnone : ∀ left : List (Lock × Mode), ∀ d ∈ [], Grantable left d :=
    fun _ d hd => absurd hd List.not_mem_nil
  split
  · split
    · rcases (copyLoop_needs hn fuel 0 []).bind_exists
          (P := fun need => ∀ left, Grantable left (.openFile h, .write) →
            Grantable left (.openFilesMutex, .write) → ∀ d ∈ need, Grantable left d)
          (fun left _ _ => hnone left) (fun outcome fs₁ heval => finishCopy_needs
            ((congrFun (copyLoop_handles heval) h).trans htaken) outcome) with
        ⟨need, hneeds, hlocks⟩
      refine ⟨readLocks n h ++ need, hneeds, fun left hh hm hi => ?_⟩
      rw [List.forall_mem_append]
      refine ⟨?_, hlocks left hh hm⟩
      simp only [readLocks, List.forall_mem_cons]
      exact ⟨hh, hi, hnone left⟩
    · exact ⟨[], needs_ret _, fun left _ _ _ => hnone left⟩
  · exact ⟨[], needs_ret _, fun left _ _ _ => hnone left⟩

/-- The copy comes to the locks of its open only: a read and the close come to some of them
again. -/
theorem copy_needs (env : Outside) (fuel : Nat)
    (hlookup : (tfsLookup name).eval fs = some (((n : Nat) : Int), fs)) :
    Needs (copyLocks fs name n) [] [] (tfsCopyToExternalFs env name (fuel + 1)) fs := by
  rw [tfsCopyToExternalFs]
  simp only [bind_eq, pure_eq]
  refine (tfsOpen_needs hlookup).bind_again fun r fs₁ heval => ?_
  rw [tfsOpen_found hlookup (by decide)] at heval
  rcases addToOpenFileTable_first fs ((n : Nat) : Int) (startOffset fs n 0) with
    ⟨h, hfirst, hadd⟩ | ⟨hfull, hadd⟩
  · rw [hadd] at heval
    cases heval
    have hhandle : getOpenFileEntry ((h : Nat) : Int) = some h := index?_natCast h
    have hinode : inodeGet ((n : Nat) : Int) = some n := index?_natCast n
    have hn : ((fs.give h ((n : Nat) : Int) (startOffset fs n 0)).openFileTable h).ofInumber =
        ((n : Nat) : Int) := by simp [FS.give]
    rcases copyRest_needs env fuel hn (by simp [FS.give]) with
      ⟨need, hneeds, hagain⟩
    refine ⟨need, ?_, fun left hall => ?_⟩
    · rw [if_neg (by omega), hhandle]
      refine needs_read ?_
      simp only [hn, hinode]
      exact hneeds
    · rcases copyLocks_free hfirst hall with ⟨hh, hm, hi⟩
      exact hagain left hh hm hi
  · rw [hadd] at heval
    cases heval
    exact ⟨[], needs_ret _, fun left _ d hd => absurd hd List.not_mem_nil⟩

/-! ## Exact copies -/

/-- The copy returns 0 with the bytes of the file, and leaves the file system and the locks as they
were. -/
def CopiesExactly (env : Outside) (fs : FS) (left : List (Lock × Mode)) (name : CString)
    (n : Fin inodeTableSize) : Prop :=
  ∃ (copied : List UInt8) (fs' : FS) (enough : Nat),
    (∀ fuel, enough ≤ fuel → (tfsCopyToExternalFs env name fuel).alone fs left =
      some (some (0, copied), fs', left)) ∧
    copied.map some = fs.contents n ∧ SameStore fs fs' ∧
    fs'.freeOpenFileEntries = fs.freeOpenFileEntries ∧ fs'.openFilesCount = fs.openFilesCount

/-- Where one of its locks is not free, the copy does not return. -/
theorem copy_stuck {left : List (Lock × Mode)}
    (hlookup : (tfsLookup name).eval fs = some (((n : Nat) : Int), fs))
    (hleft : ¬ ∀ d ∈ copyLocks fs name n, Grantable left d) :
    ¬ CopiesExactly env fs left name n := by
  rintro ⟨copied, fs', enough, halone, -⟩
  have hneeds := copy_needs env enough hlookup left
  rw [if_neg hleft, List.nil_append, halone (enough + 1) (Nat.le_succ enough)] at hneeds
  cases hneeds

/-- Where they are, it does what it does with all locks free. -/
theorem Copyable.copies {left : List (Lock × Mode)} (hcopy : Copyable env fs name n)
    (hleft : ∀ d ∈ copyLocks fs name n, Grantable left d) : CopiesExactly env fs left name n := by
  rcases hcopy.eval with ⟨copied, fs', enough, heval, hexact⟩
  refine ⟨copied, fs', enough + 1, fun fuel hfuel => ?_, hexact⟩
  obtain ⟨fuel, rfl⟩ := Nat.exists_eq_add_of_le' (Nat.le_of_add_left_le hfuel)
  have hneeds := copy_needs env fuel hcopy.lookup left
  rw [if_pos hleft, List.nil_append, heval (fuel + 1) (Nat.le_of_add_right_le hfuel)] at hneeds
  exact hneeds

/-- The copy of a file of any size is exact if and only if the locks of its open are free. -/
theorem copy_to_external_fs_exact (left : List (Lock × Mode)) (hcopy : Copyable env fs name n) :
    CopiesExactly env fs left name n ↔ ∀ d ∈ copyLocks fs name n, Grantable left d :=
  ⟨fun hexact => not_not.mp fun hleft => copy_stuck hcopy.lookup hleft hexact, hcopy.copies⟩

/-- A file of three bytes, and whatever locks are left after these calls. -/
theorem play_copyable {cs : List Call} {tr : Machine.Trace Call Ret} {fs : FS}
    {left : List (Lock × Mode)}
    (hplay : lockMachine.play (fun tr s c => Writes DirectOk tr s.1 c) ([], initialFS, []) cs =
      some (tr, fs, left)) (hsize : (fs.inodeTable 1).iSize = 3) (hblock : fs.blockAt 1 0 ≠ none)
    (hfree : ∃ h, fs.freeOpenFileEntries h = .free)
    (hfound : ((tfsLookup pathA).eval fs).map Prod.fst = some 1) :
    lockMachine.Reach (fun tr s c => Writes DirectOk tr s.1 c) (tr, fs, left) ∧
      Copyable ⟨true, true, fun _ => blockSize⟩ fs pathA 1 := by
  rw [← machine_init] at hplay
  refine ⟨Machine.Reach.start.play hplay, rfl, rfl, fun _ => le_refl _, ?_, ?_, fun j hj => ?_,
    hfree⟩
  · rcases Option.map_eq_some_iff.mp hfound with ⟨⟨r, fs₁⟩, hlookup, rfl⟩
    cases tfsLookup_state hlookup
    exact hlookup
  · rw [hsize]
    decide
  · have hzero : j = 0 := by
      rw [hsize, show stopBlock 3 = 1 from rfl] at hj
      omega
    rw [hzero]
    exact hblock

/-- A write of no bytes to another file, through a handle behind the first free one, leaves locks
that are not in the way. -/
theorem copy_to_external_fs_three : ∃ tr fs,
    lockMachine.Reach (fun tr s c => Writes DirectOk tr s.1 c)
      (tr, fs, [(.inode 2, .write), (.openFile 1, .write)]) ∧
    (fs.inodeTable 1).iSize = 3 ∧ CopiesExactly ⟨true, true, fun _ => blockSize⟩ fs
      [(.inode 2, .write), (.openFile 1, .write)] pathA 1 := by
  have hplay : (lockMachine.play (fun tr s c => Writes DirectOk tr s.1 c) ([], initialFS, [])
      [.open pathA 1, .open pathB 1, .write 0 [1, 2, 3], .close 0, .write 1 []]).map
      (fun cfg : Machine.Trace Call Ret × Left => decide (
        cfg.2.2 = [(.inode 2, .write), (.openFile 1, .write)] ∧
        (cfg.2.1.inodeTable 1).iSize = 3 ∧ cfg.2.1.blockAt 1 0 ≠ none ∧
        cfg.2.1.freeOpenFileEntries 0 = .free ∧
        ((tfsLookup pathA).eval cfg.2.1).map Prod.fst = some 1 ∧
        ∀ d ∈ copyLocks cfg.2.1 pathA 1, Grantable cfg.2.2 d)) = some true := by
    decide +kernel
  rcases Option.map_eq_some_iff.mp hplay with ⟨⟨tr, fs, left⟩, hplay, hfacts⟩
  rcases of_decide_eq_true hfacts with ⟨hleft, hsize, hblock, hfree, hfound, hlocks⟩
  rcases play_copyable hplay hsize hblock ⟨0, hfree⟩ hfound with ⟨hreach, hcopy⟩
  dsimp only at hleft
  subst hleft
  exact ⟨tr, fs, hreach, hsize, (copy_to_external_fs_exact _ hcopy).mpr hlocks⟩

/-- After a write of no bytes through a handle of the source, the copy does not return. -/
theorem copy_after_empty_write : ¬ ∀ env tr fs left name n,
    lockMachine.Reach (fun tr s c => Writes DirectOk tr s.1 c) (tr, fs, left) →
    Consistent fs → Copyable env fs name n → CopiesExactly env fs left name n := by
  intro hevery
  have hplay : (lockMachine.play (fun tr s c => Writes DirectOk tr s.1 c) ([], initialFS, [])
      [.open pathA 1, .write 0 [1, 2, 3], .write 0 []]).map
      (fun cfg : Machine.Trace Call Ret × Left => decide (
        (cfg.2.1.inodeTable 1).iSize = 3 ∧ cfg.2.1.blockAt 1 0 ≠ none ∧
        cfg.2.1.freeOpenFileEntries 1 = .free ∧
        ((tfsLookup pathA).eval cfg.2.1).map Prod.fst = some 1 ∧
        ¬ ∀ d ∈ copyLocks cfg.2.1 pathA 1, Grantable cfg.2.2 d)) = some true := by
    decide +kernel
  rcases Option.map_eq_some_iff.mp hplay with ⟨⟨tr, fs, left⟩, hplay, hfacts⟩
  rcases of_decide_eq_true hfacts with ⟨hsize, hblock, hfree, hfound, hlocks⟩
  rcases play_copyable hplay hsize hblock ⟨1, hfree⟩ hfound with ⟨hreach, hcopy⟩
  have hc : Consistent fs := Reach.consistent (Reach.eval hreach) fun _ _ _ _ hd => hd.writeOk
  exact copy_stuck hcopy.lookup hlocks (hevery _ tr fs left pathA 1 hreach hc hcopy)

end TecnicoFS.Part1
