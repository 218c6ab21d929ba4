import TecnicoFS.Part1.Consistency
import TecnicoFS.Part1.Truncation

/-!
# Part 1: `tfs_open` run alone

What a call of `tfs_open` can do in a consistent state: nothing, undo a creation, or find, truncate
or create a file (`OpenResult`), and then give out a handle if there is one (`Given`). Each outcome
keeps the invariant.
-/

namespace TecnicoFS.Part1

open Threads Threads.Prog
open Part2 (rootDirInum validPathname hasFlag tfsOCreat tfsOTrunc tfsOAppend blockSize dataBlocks
  inodeTableSize maxOpenFiles maxFileName maxDirEntries blockAddr dataBlockGet rootBlock rootEntry
  dName dInumber EntryMatches strncmp_dName fillEntry fillEntry_dInumber fillEntry_other
  fillEntry_outside)

variable {fs fs' : FS} {n m : Fin inodeTableSize} {h : Fin maxOpenFiles} {name : CString}
  {flags : BitVec 32}

/-! ## Lookup -/

/-- The scan answers with an entry that has the name, if there is one. -/
theorem findFirst_eval (fs : FS) (subName : CString) (is : List (Fin maxDirEntries)) :
    ∃ r, (findFirst rootBlock subName is).eval fs = some (r, fs) ∧
      (r = -1 ∧ (∀ i ∈ is, ¬ EntryMatches fs.fsData subName i) ∨
        ∃ i : Fin maxDirEntries, EntryMatches fs.fsData subName i ∧ r = entryNumber fs i) := by
  induction is with
  | nil => exact ⟨-1, rfl, Or.inl ⟨rfl, (by simp)⟩⟩
  | cons i is ih =>
      have hmatch : decide (dInumber fs.fsData (Part2.entryAddr rootBlock i) ≠ -1 ∧
          strncmp maxFileName (dName fs.fsData (Part2.entryAddr rootBlock i)) subName.cells = 0) =
          true ↔ EntryMatches fs.fsData subName i := by
        rw [decide_eq_true_iff, EntryMatches, ← strncmp_dName]
        rfl
      rw [findFirst]
      simp only [bind_eq, eval_readLock, eval_read, eval_unlock]
      split
      · next hfound => exact ⟨_, rfl, Or.inr ⟨i, hmatch.mp hfound, rfl⟩⟩
      · next hother =>
          rcases ih with ⟨r, heval, hr⟩
          refine ⟨r, heval, hr.imp (fun hnone => ⟨hnone.1, ?_⟩) id⟩
          exact List.forall_mem_cons.mpr ⟨fun h => hother (hmatch.mpr h), hnone.2⟩

/-- `tfs_lookup` answers with the number of an entry that has the name, if there is one. -/
theorem tfsLookup_named (hc : Consistent fs) (hvalid : validPathname name = true) :
    ∃ r, (tfsLookup name).eval fs = some (r, fs) ∧
      (r = -1 ∧ (∀ i : Fin maxDirEntries, ¬ EntryMatches fs.fsData name.tail i) ∨
        ∃ i : Fin maxDirEntries, EntryMatches fs.fsData name.tail i ∧ r = entryNumber fs i) := by
  have hroot : index? inodeTableSize rootDirInum = some 0 := rfl
  have hblock : dataBlockGet ((fs.inodeTable 0).iDataBlock 0) = some rootBlock := by
    rw [show (fs.inodeTable 0).iDataBlock 0 = 0 from hc.rootData]
    rfl
  rw [tfsLookup, if_pos hvalid, findInDir, hroot]
  simp only [bind_eq, eval_readLock, eval_read, eval_unlock]
  rw [if_neg (by rw [hc.rootType]; simp), hblock]
  rcases findFirst_eval fs name.tail (List.finRange maxDirEntries) with ⟨r, heval, hr⟩
  exact ⟨r, heval, hr.imp (fun hnone => ⟨hnone.1, fun i => hnone.2 i (List.mem_finRange i)⟩) id⟩

/-- `tfs_lookup` answers with a file, or with -1. -/
theorem tfsLookup_eval (hc : Consistent fs) (name : CString) :
    ∃ r, (tfsLookup name).eval fs = some (r, fs) ∧
      (r = -1 ∨ ∃ n : Fin inodeTableSize, r = ((n : Nat) : Int) ∧ IsFile fs n) := by
  by_cases hvalid : validPathname name = true
  · rcases tfsLookup_named hc hvalid with ⟨r, heval, hr⟩
    refine ⟨r, heval, hr.imp And.left ?_⟩
    rintro ⟨i, hmatch, rfl⟩
    exact hc.entries i hmatch.1
  · rw [tfsLookup, if_neg hvalid]
    exact ⟨-1, rfl, Or.inl rfl⟩

/-! ## Creation -/

/-- The i-node `n` becomes an empty file. -/
def FS.newFile (fs : FS) (n : Fin inodeTableSize) : FS :=
  (fs.setInodeState n .taken).setInode n ⟨.tFile, 0, fun _ => -1, -1⟩

/-- The file is entered in the root directory. -/
def FS.enter (fs : FS) (i : Fin maxDirEntries) (n : Fin inodeTableSize) (subName : CString) : FS :=
  fs.setData (fillEntry fs.fsData i ((n : Nat) : Int) subName)

theorem initInode_file : (initInode n .tFile).eval fs =
    some (((n : Nat) : Int), fs.setInode n ⟨.tFile, 0, fun _ => -1, -1⟩) := by
  simp [initInode, Prog.modify, Prog.eval, FS.setInode]

/-- The scan for an i-node takes the first free one. -/
theorem createFirst_eval (fs : FS) (ns : List (Fin inodeTableSize)) :
    (∃ n, (ns.find? fun n => decide (fs.freeinodeTs n = .free)) = some n ∧
      (createFirst .tFile ns).eval fs = some (((n : Nat) : Int), fs.newFile n)) ∨
    (∀ n ∈ ns, fs.freeinodeTs n = .taken) ∧ (createFirst .tFile ns).eval fs = some (-1, fs) := by
  induction ns with
  | nil => exact Or.inr ⟨by simp, rfl⟩
  | cons n ns ih =>
      rw [createFirst]
      simp only [bind_eq, eval_lock, eval_read]
      by_cases hfree : fs.freeinodeTs n = .free
      · left
        refine ⟨n, List.find?_cons_of_pos (by simpa using hfree), ?_⟩
        rw [if_pos hfree, eval_modify, eval_unlock, initInode_file]
        rfl
      · rw [if_neg hfree, eval_unlock, List.find?_cons_of_neg (by simpa using hfree)]
        refine ih.imp id fun hfull => ⟨?_, hfull.2⟩
        rw [eq_free_iff, not_not] at hfree
        exact List.forall_mem_cons.mpr ⟨hfree, hfull.1⟩

/-- The scan for an entry fills the first empty one. -/
theorem fillFirst_eval (fs : FS) (number : Int) (subName : CString) (is : List (Fin maxDirEntries)) :
    (∃ i, (is.find? fun i => decide (entryNumber fs i = -1)) = some i ∧
      (fillFirst rootBlock number subName is).eval fs =
        some (0, fs.setData (fillEntry fs.fsData i number subName))) ∨
    (∀ i ∈ is, entryNumber fs i ≠ -1) ∧
      (fillFirst rootBlock number subName is).eval fs = some (-1, fs) := by
  induction is with
  | nil => exact Or.inr ⟨by simp, rfl⟩
  | cons i is ih =>
      rw [fillFirst]
      simp only [bind_eq, pure_eq, eval_lock, eval_read]
      split
      · next hempty =>
          left
          exact ⟨i, List.find?_cons_of_pos (decide_eq_true hempty), rfl⟩
      · next hused =>
          have hskip : entryNumber fs i ≠ -1 := hused
          rw [eval_unlock, List.find?_cons_of_neg (by simpa using hskip)]
          exact ih.imp id fun hfull => ⟨List.forall_mem_cons.mpr ⟨hused, hfull.1⟩, hfull.2⟩

theorem inodeCreate_eval (fs : FS) :
    (∃ n, (firstFit fun n => fs.freeinodeTs n = .free) = some n ∧
      (inodeCreate .tFile).eval fs = some (((n : Nat) : Int), fs.newFile n)) ∨
    (∀ n, fs.freeinodeTs n = .taken) ∧ (inodeCreate .tFile).eval fs = some (-1, fs) := by
  rw [inodeCreate, firstFit_eq_find?]
  exact (createFirst_eval fs (List.finRange inodeTableSize)).imp id fun hfull =>
    ⟨fun n => hfull.1 n (List.mem_finRange n), hfull.2⟩

theorem addDirEntry_eval (hc : Consistent fs) (hroot : fs'.inodeTable 0 = fs.inodeTable 0)
    (hdata : fs'.fsData = fs.fsData) (n : Fin inodeTableSize) (subName : CString) :
    (∃ i, (firstFit fun i => entryNumber fs i = -1) = some i ∧
      (addDirEntry rootDirInum ((n : Nat) : Int) subName).eval fs' =
        some (0, fs'.enter i n subName)) ∨
    (subName.strlen = 0 ∨ ∀ i, entryNumber fs i ≠ -1) ∧
      (addDirEntry rootDirInum ((n : Nat) : Int) subName).eval fs' = some (-1, fs') := by
  have hindex : index? inodeTableSize rootDirInum = some 0 := rfl
  have hblock : dataBlockGet ((fs'.inodeTable 0).iDataBlock 0) = some rootBlock := by
    rw [hroot, show (fs.inodeTable 0).iDataBlock 0 = 0 from hc.rootData]
    rfl
  have hentry : ∀ i, entryNumber fs' i = entryNumber fs i := fun i => by
    rw [entryNumber, entryNumber, hdata]
  rw [addDirEntry, hindex, index?_natCast]
  simp only [bind_eq, pure_eq, eval_readLock, eval_read, eval_unlock]
  rw [if_neg (by rw [hroot, hc.rootType]; simp)]
  split
  · next hempty => exact Or.inr ⟨Or.inl hempty, rfl⟩
  · rw [eval_readLock, eval_read, eval_unlock, hblock, firstFit_eq_find?]
    rcases fillFirst_eval fs' ((n : Nat) : Int) subName (List.finRange maxDirEntries) with
      ⟨i, hfind, heval⟩ | ⟨hfull, heval⟩
    · simp only [hentry] at hfind
      exact Or.inl ⟨i, hfind, heval⟩
    · simp only [hentry] at hfull
      exact Or.inr ⟨Or.inr fun i => hfull i (List.mem_finRange i), heval⟩

theorem inodeDelete_new (n : Fin inodeTableSize) :
    (inodeDelete ((n : Nat) : Int)).eval (fs.newFile n) =
      some (0, (fs.newFile n).setInodeState n .free) := by
  have htaken : (fs.newFile n).freeinodeTs n ≠ .free := by simp [FS.newFile]
  have hsize : ¬ 0 < (((fs.newFile n).setInodeState n .free).inodeTable n).iSize := by
    simp [FS.newFile]
  rw [inodeDelete, index?_natCast]
  simp only [bind_eq, pure_eq, eval_read]
  rw [if_neg htaken, eval_modify, eval_read, if_neg hsize, eval_ret]

/-- How `tfs_open` ends on a path that it has to create. -/
inductive Creates (fs : FS) : Option (Int × Nat) → FS → Prop
  | full : Creates fs none fs
  /-- The directory is full and the i-node is given back. -/
  | undone (n : Fin inodeTableSize) : fs.freeinodeTs n = .free →
      Creates fs none ((fs.newFile n).setInodeState n .free)
  | created (n : Fin inodeTableSize) (i : Fin maxDirEntries) (subName : CString) :
      fs.freeinodeTs n = .free → entryNumber fs i = -1 →
      Creates fs (some (((n : Nat) : Int), 0)) ((fs.newFile n).enter i n subName)

/-- The same, with the name of the file. -/
inductive CreatesAs (fs : FS) (subName : CString) : Option (Int × Nat) → FS → Prop
  | failed {fs' : FS} : Creates fs none fs' → CreatesAs fs subName none fs'
  | created (n : Fin inodeTableSize) (i : Fin maxDirEntries) : fs.freeinodeTs n = .free →
      entryNumber fs i = -1 →
      CreatesAs fs subName (some (((n : Nat) : Int), 0)) ((fs.newFile n).enter i n subName)

/-- The creation takes the first free i-node and the first empty entry. -/
theorem openCreated_eval (hc : Consistent fs) (name : CString) :
    (∃ n i, (firstFit fun n => fs.freeinodeTs n = .free) = some n ∧
      (firstFit fun i => entryNumber fs i = -1) = some i ∧
      (openCreated name).eval fs =
        some (some (((n : Nat) : Int), 0), (fs.newFile n).enter i n name.tail)) ∨
    ((∀ n, fs.freeinodeTs n = .taken) ∨ name.tail.strlen = 0 ∨ ∀ i, entryNumber fs i ≠ -1) ∧
      ∃ fs', Creates fs none fs' ∧ (openCreated name).eval fs = some (none, fs') := by
  rw [openCreated, bind_eq, eval_bind]
  rcases inodeCreate_eval fs with ⟨n, hn, heval⟩ | ⟨hfull, heval⟩
  · have hfree : fs.freeinodeTs n = .free := (firstFit_eq_some.mp hn).1
    have hne : n ≠ 0 := by
      rintro rfl
      rw [hc.rootTaken] at hfree
      cases hfree
    rw [heval, Option.bind_some]
    simp only [index?_natCast, bind_eq, pure_eq, eval_lock]
    rw [eval_bind]
    have hroot : (fs.newFile n).inodeTable 0 = fs.inodeTable 0 := by
      simp [FS.newFile, hne.symm]
    rcases addDirEntry_eval hc hroot rfl n name.tail with ⟨i, hi, heval'⟩ | ⟨hfailed, heval'⟩
    · refine Or.inl ⟨n, i, hn, hi, ?_⟩
      rw [heval', Option.bind_some]
      rfl
    · refine Or.inr ⟨Or.inr hfailed, _, .undone n hfree, ?_⟩
      rw [heval', Option.bind_some, if_pos rfl, eval_bind, inodeDelete_new, Option.bind_some]
      rfl
  · refine Or.inr ⟨Or.inl hfull, fs, .full, ?_⟩
    rw [heval, Option.bind_some]
    rfl

theorem openCreated_named (hc : Consistent fs) (name : CString) :
    ∃ o fs', (openCreated name).eval fs = some (o, fs') ∧ CreatesAs fs name.tail o fs' := by
  rcases openCreated_eval hc name with ⟨n, i, hn, hi, heval⟩ | ⟨-, fs', hfailed, heval⟩
  · exact ⟨_, _, heval, .created n i (firstFit_eq_some.mp hn).1 (firstFit_eq_some.mp hi).1⟩
  · exact ⟨none, fs', heval, .failed hfailed⟩

theorem CreatesAs.creates {subName : CString} {o : Option (Int × Nat)}
    (h : CreatesAs fs subName o fs') : Creates fs o fs' := by
  cases h with
  | failed hfailed => exact hfailed
  | created n i hfree hempty => exact .created n i subName hfree hempty

/-! ## A file that is there -/

/-- The offset of a new handle. -/
def startOffset (fs : FS) (n : Fin inodeTableSize) (flags : BitVec 32) : Nat :=
  if hasFlag flags tfsOAppend then (fs.inodeTable n).iSize else 0

theorem startOffset_emptied (he : Emptied n fs fs') : startOffset fs' n flags = 0 := by
  rw [startOffset, he.size]
  split <;> rfl

theorem openExisting_keep (hflag : hasFlag flags tfsOTrunc = false) :
    (openExisting ((n : Nat) : Int) flags).eval fs =
      some (some (((n : Nat) : Int), startOffset fs n flags), fs) := by
  rw [openExisting, index?_natCast]
  simp only [bind_eq, pure_eq, eval_lock, hflag]
  rw [if_neg Bool.false_ne_true, ret_bind, if_pos rfl, startOffset]
  split <;> rfl

theorem openExisting_trunc (hflag : hasFlag flags tfsOTrunc = true)
    (heval : (truncate n).eval fs = some (true, fs')) :
    (openExisting ((n : Nat) : Int) flags).eval fs =
      some (some (((n : Nat) : Int), startOffset fs' n flags), fs') := by
  rw [openExisting, index?_natCast]
  simp only [bind_eq, pure_eq, eval_lock, hflag]
  rw [if_pos trivial, eval_bind, heval, startOffset, Option.bind_some, if_pos rfl]
  split <;> rfl

theorem openExisting_crash (hflag : hasFlag flags tfsOTrunc = true)
    (heval : (truncate n).eval fs = none) :
    (openExisting ((n : Nat) : Int) flags).eval fs = none := by
  rw [openExisting, index?_natCast]
  simp only [bind_eq, pure_eq, eval_lock, hflag]
  rw [if_pos trivial, eval_bind, heval]
  rfl

/-! ## The handle -/

/-- The handle is given out. -/
def FS.give (fs : FS) (h : Fin maxOpenFiles) (inumber : Int) (offset : Nat) : FS :=
  ((fs.setHandleState h .taken).setHandle h ⟨inumber, offset⟩).setCount (fs.openFilesCount + 1)

/-- What `add_to_open_file_table` answers: a handle that was free, or -1 where all are in use. -/
inductive Given (fs : FS) (inumber : Int) (offset : Nat) : Int → FS → Prop
  | full : (∀ h, fs.freeOpenFileEntries h = .taken) → Given fs inumber offset (-1) fs
  | handle (h : Fin maxOpenFiles) : fs.freeOpenFileEntries h = .free →
      Given fs inumber offset ((h : Nat) : Int) (fs.give h inumber offset)

/-- The scan for a handle takes the first free one. -/
theorem addFirst_eval (fs : FS) (inumber : Int) (offset : Nat) (hs : List (Fin maxOpenFiles)) :
    (∃ h, (hs.find? fun h => decide (fs.freeOpenFileEntries h = .free)) = some h ∧
      (addFirst inumber offset hs).eval fs = some (((h : Nat) : Int), fs.give h inumber offset)) ∨
    (∀ h ∈ hs, fs.freeOpenFileEntries h = .taken) ∧
      (addFirst inumber offset hs).eval fs = some (-1, fs) := by
  induction hs with
  | nil => exact Or.inr ⟨by simp, rfl⟩
  | cons h hs ih =>
      rw [addFirst]
      simp only [bind_eq, eval_lock, eval_read]
      by_cases hfree : fs.freeOpenFileEntries h = .free
      · left
        refine ⟨h, List.find?_cons_of_pos (by simpa using hfree), ?_⟩
        rw [if_pos hfree]
        rfl
      · rw [if_neg hfree, eval_unlock, List.find?_cons_of_neg (by simpa using hfree)]
        refine ih.imp id fun hfull => ⟨?_, hfull.2⟩
        rw [eq_free_iff, not_not] at hfree
        exact List.forall_mem_cons.mpr ⟨hfree, hfull.1⟩

theorem addToOpenFileTable_first (fs : FS) (inumber : Int) (offset : Nat) :
    (∃ h, (firstFit fun h => fs.freeOpenFileEntries h = .free) = some h ∧
      (addToOpenFileTable inumber offset).eval fs =
        some (((h : Nat) : Int), fs.give h inumber offset)) ∨
    (∀ h, fs.freeOpenFileEntries h = .taken) ∧
      (addToOpenFileTable inumber offset).eval fs = some (-1, fs) := by
  rw [addToOpenFileTable, firstFit_eq_find?]
  exact (addFirst_eval fs inumber offset (List.finRange maxOpenFiles)).imp id fun hfull =>
    ⟨fun h => hfull.1 h (List.mem_finRange h), hfull.2⟩

theorem addToOpenFileTable_eval (fs : FS) (inumber : Int) (offset : Nat) :
    ∃ r fs', (addToOpenFileTable inumber offset).eval fs = some (r, fs') ∧
      Given fs inumber offset r fs' := by
  rcases addToOpenFileTable_first fs inumber offset with ⟨h, hfirst, heval⟩ | ⟨hfull, heval⟩
  · exact ⟨_, _, heval, .handle h (firstFit_eq_some.mp hfirst).1⟩
  · exact ⟨_, _, heval, .full hfull⟩

/-! ## The call -/

/-- What `tfs_open` can do before it gives out a handle. It answers with the file and the offset
for that. -/
inductive OpenResult (fs : FS) (flags : BitVec 32) : Option (Int × Nat) → FS → Prop
  | absent : OpenResult fs flags none fs
  | found (n : Fin inodeTableSize) : IsFile fs n → hasFlag flags tfsOTrunc = false →
      OpenResult fs flags (some (((n : Nat) : Int), startOffset fs n flags)) fs
  | emptied (n : Fin inodeTableSize) (fs' : FS) : IsFile fs n → hasFlag flags tfsOTrunc = true →
      Truncates fs n → Emptied n fs fs' → OpenResult fs flags (some (((n : Nat) : Int), 0)) fs'
  | created {o : Option (Int × Nat)} {fs' : FS} : Creates fs o fs' → OpenResult fs flags o fs'

/-- The end of `tfs_open`: a handle is given out if the file is known. -/
theorem given_eval {p : Op (Option (Int × Nat))} {r : Int}
    (heval : (p.bind fun opened => match opened with
      | none => (ret (-1) : Op Int)
      | some (inum, offset) => addToOpenFileTable inum offset).eval fs = some (r, fs')) :
    ∃ o fs₁, p.eval fs = some (o, fs₁) ∧ match o with
      | none => r = -1 ∧ fs' = fs₁
      | some (inumber, offset) => Given fs₁ inumber offset r fs' := by
  rw [eval_bind] at heval
  rcases Option.bind_eq_some_iff.mp heval with ⟨⟨o, fs₁⟩, hopened, hgiven⟩
  refine ⟨o, fs₁, hopened, ?_⟩
  cases o with
  | none =>
      cases hgiven
      exact ⟨rfl, rfl⟩
  | some file =>
      rcases addToOpenFileTable_eval fs₁ file.1 file.2 with ⟨r', fs₂, hadd, hgiven'⟩
      change (addToOpenFileTable file.1 file.2).eval fs₁ = some (r, fs') at hgiven
      rw [hadd] at hgiven
      cases hgiven
      exact hgiven'

/-- `tfs_open` on a path that names a file. -/
theorem tfsOpen_existing (hlookup : (tfsLookup name).eval fs = some (((n : Nat) : Int), fs)) :
    (tfsOpen name flags).eval fs =
      ((openExisting ((n : Nat) : Int) flags).bind fun opened => match opened with
        | none => (ret (-1) : Op Int)
        | some (inum, offset) => addToOpenFileTable inum offset).eval fs := by
  have hvalid : validPathname name = true := by
    by_contra hnot
    rw [tfsLookup, if_neg hnot] at hlookup
    have hminus : (-1 : Int) = ((n : Nat) : Int) := (Prod.mk.inj (Option.some.inj hlookup)).1
    omega
  rw [tfsOpen, if_pos hvalid]
  simp only [bind_eq, pure_eq, eval_lock]
  rw [eval_bind, hlookup, Option.bind_some]
  exact congrArg (fun p : Op Int => p.eval fs) (if_pos (Int.natCast_nonneg _))

/-- `tfs_open` on a path that names no file and is not created. -/
theorem tfsOpen_absent (hvalid : validPathname name = true)
    (hlookup : (tfsLookup name).eval fs = some (-1, fs))
    (hcreat : ¬ hasFlag flags tfsOCreat = true) :
    (tfsOpen name flags).eval fs = some (-1, fs) := by
  rw [tfsOpen, if_pos hvalid]
  simp only [bind_eq, pure_eq, eval_lock]
  rw [eval_bind, hlookup, Option.bind_some, if_neg (show ¬ (0 : Int) ≤ -1 by decide), if_neg hcreat]
  rfl

/-- `tfs_open` on a path that is created. -/
theorem tfsOpen_created {inumber : Int} {offset : Nat} (hvalid : validPathname name = true)
    (hlookup : (tfsLookup name).eval fs = some (-1, fs)) (hcreat : hasFlag flags tfsOCreat = true)
    (heval : (openCreated name).eval fs = some (some (inumber, offset), fs')) :
    (tfsOpen name flags).eval fs = (addToOpenFileTable inumber offset).eval fs' := by
  rw [tfsOpen, if_pos hvalid]
  simp only [bind_eq, pure_eq, eval_lock]
  rw [eval_bind, hlookup, Option.bind_some, if_neg (show ¬ (0 : Int) ≤ -1 by decide), if_pos hcreat,
    eval_bind, heval]
  rfl

/-- What `tfs_open` does before it gives out a handle: it opens a file that is there or creates
it. -/
inductive OpensOrCreates (fs : FS) (name : CString) (flags : BitVec 32) :
    Option (Int × Nat) → FS → Prop
  | «opens» {inum : Int} {o : Option (Int × Nat)} {fs' : FS} : 0 ≤ inum →
      (tfsLookup name).eval fs = some (inum, fs) →
      (openExisting inum flags).eval fs = some (o, fs') → OpensOrCreates fs name flags o fs'
  | creates {o : Option (Int × Nat)} {fs' : FS} : hasFlag flags tfsOCreat = true →
      (tfsLookup name).eval fs = some (-1, fs) →
      (openCreated name).eval fs = some (o, fs') → OpensOrCreates fs name flags o fs'

/-- The two halves of `tfs_open`. -/
theorem tfsOpen_split (hc : Consistent fs) {r : Int}
    (heval : (tfsOpen name flags).eval fs = some (r, fs')) :
    (r = -1 ∧ fs' = fs) ∨ validPathname name = true ∧
      ∃ o fs₁, OpensOrCreates fs name flags o fs₁ ∧ match o with
        | none => r = -1 ∧ fs' = fs₁
        | some (inumber, offset) => Given fs₁ inumber offset r fs' := by
  rw [tfsOpen] at heval
  split at heval
  · next hvalid =>
      simp only [bind_eq, pure_eq, eval_lock] at heval
      rcases tfsLookup_eval hc name with ⟨inum, hlookup, hfound⟩
      rw [eval_bind, hlookup, Option.bind_some] at heval
      rcases hfound with rfl | ⟨n, rfl, -⟩
      · rw [if_neg (show ¬ (0 : Int) ≤ -1 by decide)] at heval
        split at heval
        · next hcreat =>
            rcases given_eval heval with ⟨o, fs₁, hopened, hend⟩
            exact Or.inr ⟨hvalid, o, fs₁, .creates hcreat hlookup hopened, hend⟩
        · cases heval
          exact Or.inl ⟨rfl, rfl⟩
      · rw [if_pos (Int.natCast_nonneg _)] at heval
        rcases given_eval heval with ⟨o, fs₁, hopened, hend⟩
        exact Or.inr ⟨hvalid, o, fs₁, .opens (Int.natCast_nonneg _) hlookup hopened, hend⟩
  · cases heval
    exact Or.inl ⟨rfl, rfl⟩

/-- A file that is there is opened as it is, or emptied. -/
inductive OpensFile (fs : FS) (n : Fin inodeTableSize) (flags : BitVec 32) : Nat → FS → Prop
  | kept : hasFlag flags tfsOTrunc = false → OpensFile fs n flags (startOffset fs n flags) fs
  | emptied (fs' : FS) : hasFlag flags tfsOTrunc = true → Truncates fs n → Emptied n fs fs' →
      OpensFile fs n flags 0 fs'

theorem openExisting_opensFile (hc : Consistent fs) (hn : IsFile fs n) {o : Option (Int × Nat)}
    (heval : (openExisting ((n : Nat) : Int) flags).eval fs = some (o, fs')) :
    ∃ offset, o = some (((n : Nat) : Int), offset) ∧ OpensFile fs n flags offset fs' := by
  by_cases hflag : hasFlag flags tfsOTrunc = true
  · by_cases hok : Truncates fs n
    · rcases truncate_ok (hc.layout.file hn) hok with ⟨fs₂, htrunc, hemptied⟩
      rw [openExisting_trunc hflag htrunc, startOffset_emptied hemptied] at heval
      cases heval
      exact ⟨0, rfl, .emptied fs' hflag hok hemptied⟩
    · rw [openExisting_crash hflag (truncate_crash (hc.layout.file hn) hok)] at heval
      cases heval
  · have hkeep : hasFlag flags tfsOTrunc = false := by simpa using hflag
    rw [openExisting_keep hkeep] at heval
    cases heval
    exact ⟨_, rfl, .kept hkeep⟩

theorem OpensFile.result {offset : Nat} (h : OpensFile fs n flags offset fs') (hn : IsFile fs n) :
    OpenResult fs flags (some (((n : Nat) : Int), offset)) fs' := by
  cases h with
  | kept hkeep => exact .found n hn hkeep
  | emptied _ hflag hok hemptied => exact .emptied n fs' hn hflag hok hemptied

theorem OpensOrCreates.result (hc : Consistent fs) {o : Option (Int × Nat)}
    (h : OpensOrCreates fs name flags o fs') : OpenResult fs flags o fs' := by
  cases h with
  | «opens» hpos hlookup heval =>
      rcases tfsLookup_eval hc name with ⟨r, hlookup', hr⟩
      rw [hlookup] at hlookup'
      cases hlookup'
      rcases hr with rfl | ⟨n, rfl, hn⟩
      · exact absurd hpos (by decide)
      · rcases openExisting_opensFile hc hn heval with ⟨offset, rfl, hfile⟩
        exact hfile.result hn
  | creates _ _ heval =>
      rcases openCreated_named hc name with ⟨o', fs₁, heval', hcreates⟩
      rw [heval] at heval'
      cases heval'
      exact .created hcreates.creates

/-- `tfs_open` in a consistent state, where it returns. -/
theorem tfsOpen_opened (hc : Consistent fs) {r : Int}
    (heval : (tfsOpen name flags).eval fs = some (r, fs')) :
    ∃ o fs₁, OpenResult fs flags o fs₁ ∧ match o with
      | none => r = -1 ∧ fs' = fs₁
      | some (inumber, offset) => Given fs₁ inumber offset r fs' := by
  rcases tfsOpen_split hc heval with ⟨rfl, rfl⟩ | ⟨-, o, fs₁, hopened, hend⟩
  · exact ⟨none, fs', .absent, rfl, rfl⟩
  · exact ⟨o, fs₁, hopened.result hc, hend⟩

/-! ## The invariant -/

theorem newFile_states (hfree : fs.freeinodeTs n = .free) :
    ((fs.newFile n).setInodeState n .free).freeinodeTs = fs.freeinodeTs := by
  change Function.update (Function.update fs.freeinodeTs n .taken) n .free = fs.freeinodeTs
  rw [Function.update_idem, ← hfree, Function.update_eq_self]

theorem newFile_other (hm : m ≠ n) : (fs.newFile n).inodeTable m = fs.inodeTable m := by
  simp [FS.newFile, hm]

theorem enter_fsData {i : Fin maxDirEntries} {subName : CString} :
    ((fs.newFile n).enter i n subName).fsData =
      fillEntry fs.fsData i ((n : Nat) : Int) subName := by
  have hdata : (fs.newFile n).fsData = fs.fsData := rfl
  rw [FS.enter, FS.fsData_setData, hdata]

theorem enter_inodeTable {i : Fin maxDirEntries} {subName : CString} :
    ((fs.newFile n).enter i n subName).inodeTable = (fs.newFile n).inodeTable := rfl

/-- A file that is entered in the directory. -/
theorem enter_isFile {i : Fin maxDirEntries} {subName : CString} :
    IsFile ((fs.newFile n).enter i n subName) m ↔ m = n ∨ IsFile fs m := by
  by_cases hm : m = n
  · subst hm
    exact iff_of_true ⟨by simp [FS.newFile, FS.enter], by simp [FS.newFile, FS.enter]⟩ (Or.inl rfl)
  · rw [or_iff_right hm, IsFile, IsFile]
    simp [FS.newFile, FS.enter, hm]

theorem enter_ref_self {i : Fin maxDirEntries} {subName : CString} (r : Ref) :
    ((fs.newFile n).enter i n subName).ref n r = -1 := by
  refine ref_none (fun j => ?_) ?_ r
  · simp [FS.newFile, FS.enter]
  · simp [FS.newFile, FS.enter]

/-- A block other than that of the root directory holds the same bytes. -/
theorem enter_sameBlock {i : Fin maxDirEntries} {subName : CString} {b : Fin dataBlocks}
    (hb : b ≠ 0) : SameBlock fs ((fs.newFile n).enter i n subName) b := by
  have hpos : 0 < (b : Nat) := Nat.pos_of_ne_zero fun heq => hb (Fin.ext heq)
  intro x _
  rw [enter_fsData, fillEntry_outside i.isLt]
  simp only [blockAddr, blockSize]
  omega

theorem Consistent.ne_zero (hc : Consistent fs) {b : Fin dataBlocks} (hm : IsFile fs m)
    (hb : fs.Owns m b) : b ≠ 0 := by
  rintro rfl
  exact hc.layout.not_root hm hb hc.rootData

theorem enter_ref_other {i : Fin maxDirEntries} {subName : CString} (hc : Consistent fs)
    (hm : IsFile fs m) (hmn : m ≠ n) : ((fs.newFile n).enter i n subName).ref m = fs.ref m := by
  refine ref_congr ?_ ?_ fun t ht => enter_sameBlock (hc.ne_zero hm ⟨.table, ht⟩)
  · simp [FS.newFile, FS.enter, hmn]
  · simp [FS.newFile, FS.enter, hmn]

theorem enter_entryNumber {i j : Fin maxDirEntries} {subName : CString} :
    entryNumber ((fs.newFile n).enter i n subName) j =
      if j = i then ((n : Nat) : Int) else entryNumber fs j := by
  have hn := n.isLt
  simp only [inodeTableSize] at hn
  rw [entryNumber, entryNumber, enter_fsData]
  by_cases hj : j = i
  · subst hj
    rw [if_pos rfl, fillEntry_dInumber (by omega) (by omega)]
  · have hne : (j : Nat) ≠ i := fun heq => hj (Fin.ext heq)
    rw [if_neg hj, (fillEntry_other hne).1]

theorem enter_consistent {i : Fin maxDirEntries} {subName : CString} (hc : Consistent fs)
    (hfree : fs.freeinodeTs n = .free) : Consistent ((fs.newFile n).enter i n subName) := by
  have hn : n ≠ 0 := by
    rintro rfl
    rw [hc.rootTaken] at hfree
    cases hfree
  have hnot : ∀ m, IsFile fs m → m ≠ n := by
    rintro m hm rfl
    rw [hm.1] at hfree
    cases hfree
  have hother : ∀ m, m ≠ n → ((fs.newFile n).enter i n subName).inodeTable m = fs.inodeTable m := by
    intro m hm
    rw [enter_inodeTable, newFile_other hm]
  have hzero := hother 0 hn.symm
  have hroot : ((fs.newFile n).enter i n subName).rootRef = fs.rootRef := by
    rw [FS.rootRef, FS.rootRef, hzero]
  -- a place that holds a block is one of a file that was there
  have hold : ∀ m r, IsFile ((fs.newFile n).enter i n subName) m →
      ((fs.newFile n).enter i n subName).ref m r ≠ -1 →
        IsFile fs m ∧ ((fs.newFile n).enter i n subName).ref m r = fs.ref m r := by
    intro m r hm hr
    rcases enter_isFile.mp hm with rfl | hm
    · exact absurd (enter_ref_self r) hr
    · exact ⟨hm, by rw [enter_ref_other hc hm (hnot m hm)]⟩
  exact
    { layout :=
        { taken := fun m r hm hr => by
            rcases hold m r hm hr with ⟨hm, heq⟩
            rw [heq] at hr ⊢
            exact hc.layout.taken m r hm hr
          distinct := fun m m' r r' hm hm' hr heq => by
            rcases hold m r hm hr with ⟨hm, hsame⟩
            rcases hold m' r' hm' (heq ▸ hr) with ⟨hm', hsame'⟩
            rw [hsame] at hr heq
            rw [hsame'] at heq
            exact hc.layout.distinct m m' r r' hm hm' hr heq
          root := fun m r hm hr => by
            rcases hold m r hm hr with ⟨hm, heq⟩
            rw [heq] at hr ⊢
            rw [hroot]
            exact hc.layout.root m r hm hr }
      rootType := by rw [hzero]; exact hc.rootType
      rootData := hroot.trans hc.rootData
      rootTaken := by simpa [FS.newFile, FS.enter, hn.symm] using hc.rootTaken
      rootBlock := hc.rootBlock
      entries := fun j hj => by
        rw [enter_entryNumber] at hj ⊢
        split
        · exact ⟨n, rfl, enter_isFile.mpr (Or.inl rfl)⟩
        · next hji =>
            rw [if_neg hji] at hj
            rcases hc.entries j hj with ⟨k, hk, hkfile⟩
            exact ⟨k, hk, enter_isFile.mpr (Or.inr hkfile)⟩
      sizes := fun m hm => by
        rcases enter_isFile.mp hm with rfl | hm
        · simp [FS.newFile, FS.enter]
        · rw [hother m (hnot m hm)]
          exact hc.sizes m hm
      handles := fun h => (hc.handles h).congr rfl id fun m hm => enter_isFile.mpr (Or.inr hm) }

theorem Creates.consistent {o : Option (Int × Nat)} (hc : Consistent fs)
    (hcreates : Creates fs o fs') : Consistent fs' := by
  cases hcreates with
  | full => exact hc
  | undone n hfree =>
      have hstates := newFile_states hfree
      have hinodes : ∀ m, fs.freeinodeTs m = .taken →
          ((fs.newFile n).setInodeState n .free).inodeTable m = fs.inodeTable m := by
        intro m htaken
        refine newFile_other ?_
        rintro rfl
        rw [htaken] at hfree
        cases hfree
      refine hc.of_core hstates hinodes rfl rfl fun h => (hc.handles h).congr rfl id fun m hm => ?_
      rw [IsFile, hstates, hinodes m hm.1]
      exact hm
  | created n i subName hfree _ => exact enter_consistent hc hfree

/-- A truncation keeps the invariant. -/
theorem Emptied.consistent (hc : Consistent fs) (hn : IsFile fs n) (he : Emptied n fs fs') :
    Consistent fs' := by
  have hzero := he.other (hn.ne_root hc).symm
  have hroot : fs'.rootRef = fs.rootRef := by rw [FS.rootRef, FS.rootRef, hzero]
  -- what a file still holds it held before, so nothing can collide
  have hkept : ∀ m r, fs'.ref m r ≠ -1 → fs'.ref m r = fs.ref m r := by
    intro m r hr
    by_cases hm : m = n
    · subst hm
      exact he.ref_self.resolve_left hr
    · rw [he.ref_other hm]
  exact
    { layout :=
        { taken := fun m r hm hr => by
            have hm := he.isFile.mp hm
            have hr' := hr
            rw [hkept m r hr] at hr' ⊢
            rcases hc.layout.taken m r hm hr' with ⟨b, hb, htaken⟩
            refine ⟨b, hb, (he.marks b).mpr ⟨htaken, fun r' hback heq => hr ?_⟩⟩
            -- a block given back was held by the emptied file alone
            rcases hc.layout.distinct m n r r' hm hn hr' (hb.trans heq.symm) with ⟨rfl, rfl⟩
            exact he.ref_back hback
          distinct := fun m m' r r' hm hm' hr heq => by
            have hr' : fs'.ref m' r' ≠ -1 := heq ▸ hr
            rw [hkept m r hr, hkept m' r' hr'] at heq
            rw [hkept m r hr] at hr
            exact hc.layout.distinct m m' r r' (he.isFile.mp hm) (he.isFile.mp hm') hr heq
          root := fun m r hm hr => by
            have hr' := hr
            rw [hkept m r hr] at hr' ⊢
            rw [hroot]
            exact hc.layout.root m r (he.isFile.mp hm) hr' }
      rootType := by rw [hzero]; exact hc.rootType
      rootData := hroot.trans hc.rootData
      rootTaken := by rw [he.states]; exact hc.rootTaken
      rootBlock := (he.marks 0).mpr ⟨hc.rootBlock, fun r _ heq => hc.ne_zero hn ⟨r, heq⟩ rfl⟩
      entries := fun i hi => by
        rw [(entry_congr (fun x (_ : x < blockSize) => congrFun he.fsData x) i).1] at hi ⊢
        rcases hc.entries i hi with ⟨k, hk, hfk⟩
        exact ⟨k, hk, he.isFile.mpr hfk⟩
      sizes := fun m hm => by
        by_cases hmn : m = n
        · rw [hmn, he.size]
          exact Nat.zero_le _
        · rw [he.other hmn]
          exact hc.sizes m (he.isFile.mp hm)
      handles := fun h => (hc.handles h).congr (by rw [he.handles])
        (by rw [he.handleStates]; exact id) fun m hm => he.isFile.mpr hm }

/-- What is found or created is a file, and the invariant holds. -/
theorem OpenResult.consistent {o : Option (Int × Nat)} (hc : Consistent fs)
    (ho : OpenResult fs flags o fs') :
    Consistent fs' ∧ ∀ inumber offset, o = some (inumber, offset) →
      ∃ n : Fin inodeTableSize, inumber = ((n : Nat) : Int) ∧ IsFile fs' n := by
  cases ho with
  | absent => exact ⟨hc, (by simp)⟩
  | found n hn _ =>
      refine ⟨hc, fun inumber offset heq => ?_⟩
      cases heq
      exact ⟨n, rfl, hn⟩
  | emptied n _ hn _ _ he =>
      refine ⟨he.consistent hc hn, fun inumber offset heq => ?_⟩
      cases heq
      exact ⟨n, rfl, he.isFile.mpr hn⟩
  | created hcreates =>
      refine ⟨hcreates.consistent hc, fun inumber offset heq => ?_⟩
      subst heq
      cases hcreates with
      | created n i subName _ _ => exact ⟨n, rfl, enter_isFile.mpr (Or.inl rfl)⟩

theorem Given.consistent {r : Int} {offset : Nat} (hc : Consistent fs) (hn : IsFile fs n)
    (hg : Given fs ((n : Nat) : Int) offset r fs') : Consistent fs' := by
  cases hg with
  | full _ => exact hc
  | handle h _ =>
      refine hc.of_core rfl (fun _ _ => rfl) rfl rfl fun k => ?_
      by_cases hk : k = h
      · subst hk
        exact Or.inr ⟨n, by simp [FS.give], hn⟩
      · exact (hc.handles k).congr (by simp [FS.give, hk]) (by simp [FS.give, hk]) fun _ hm => hm

/-- `tfs_open` keeps the invariant. -/
theorem tfsOpen_consistent (hc : Consistent fs) {r : Int}
    (heval : (tfsOpen name flags).eval fs = some (r, fs')) : Consistent fs' := by
  rcases tfsOpen_opened hc heval with ⟨o, fs₁, hopened, hend⟩
  rcases hopened.consistent hc with ⟨hc₁, hfile⟩
  cases o with
  | none => exact hend.2 ▸ hc₁
  | some file =>
      rcases hfile _ _ rfl with ⟨n, hn, hfile⟩
      change Given fs₁ file.1 file.2 r fs' at hend
      rw [hn] at hend
      exact hend.consistent hc₁ hfile

end TecnicoFS.Part1
