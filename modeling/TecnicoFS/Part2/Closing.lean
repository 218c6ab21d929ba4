import TecnicoFS.Part2.Concurrent
import TecnicoFS.Part2.Runs
import TecnicoFS.Lib.Soundness

/-!
# Part 2: the discipline of opening, closing and shutting down

Handle marks change with both the global lock and `open_files_mutex`, the counter and
`open_flag` with the mutex. While the mutex is free the counter is the number of marks.

The discipline has two uses. In the server (`server`) at most one worker waits, and nobody
sleeps on `open_files_cond` while the mutex is free and the counter is 0. For threads that
call the library, any number may wait, and `open_flag = 0` says that nothing is open.
-/

namespace TecnicoFS.Part2.Concurrent

open Threads Threads.Prog

/-- The number of handles marked `TAKEN`. -/
def takenCount (fs : FS) : Nat :=
  (Finset.univ.filter fun h => fs.freeOpenFileEntries h = .taken).card

/-- The marks, the counter and the flag are the same. -/
structure SameHandles (fs fs' : FS) : Prop where
  marks : fs'.freeOpenFileEntries = fs.freeOpenFileEntries
  count : fs'.openFilesCount = fs.openFilesCount
  flag : fs'.openFlag = fs.openFlag

variable {S : Type} {fs fs' fs'' : FS} {h : Fin maxOpenFiles}

namespace SameHandles

theorem refl : SameHandles fs fs := ⟨rfl, rfl, rfl⟩

theorem trans (h : SameHandles fs fs') (h' : SameHandles fs' fs'') : SameHandles fs fs'' :=
  ⟨h'.marks.trans h.marks, h'.count.trans h.count, h'.flag.trans h.flag⟩

theorem takenCount_eq (h : SameHandles fs fs') : takenCount fs' = takenCount fs := by
  unfold takenCount
  rw [h.marks]

end SameHandles

theorem takenCount_markTaken {inumber : Int} {offset : Nat}
    (hfree : fs.freeOpenFileEntries h = .free) :
    takenCount (markTaken fs h inumber offset) = takenCount fs + 1 :=
  card_update_of_ne (by simp [hfree])

theorem takenCount_markFree (htaken : fs.freeOpenFileEntries h = .taken) :
    takenCount (markFree fs h) + 1 = takenCount fs :=
  card_update_of_eq htaken (by simp)

theorem takenCount_eq_zero : takenCount fs = 0 ↔ ∀ h, fs.freeOpenFileEntries h ≠ .taken := by
  simp [takenCount, Finset.filter_eq_empty_iff]

theorem free_of_ne_taken {state : AllocationState} (h : state ≠ .taken) : state = .free := by
  cases state with
  | free => rfl
  | taken => exact absurd rfl h

/-! ## An open keeps the handles up to the table -/

theorem dataBlockFree_sameHandles (fs : FS) (blockNumber : Int) :
    SameHandles fs (dataBlockFree fs blockNumber).2 := by
  unfold dataBlockFree
  split
  · exact SameHandles.refl
  · exact ⟨rfl, rfl, rfl⟩

theorem truncateOpened_sameHandles {n : Fin inodeTableSize} {flags : BitVec 32}
    (htrunc : truncateOpened fs n flags = some fs') : SameHandles fs fs' := by
  unfold truncateOpened at htrunc
  split at htrunc
  · split at htrunc
    rename_i hfree
    have hsame := dataBlockFree_sameHandles fs (fs.inodeTable n).iDataBlock
    rw [hfree] at hsame
    split at htrunc
    · cases htrunc
    · cases htrunc
      exact hsame.trans ⟨rfl, rfl, rfl⟩
  · cases htrunc
    exact SameHandles.refl

theorem inodeCreate_file_sameHandles (fs : FS) : SameHandles fs (inodeCreate fs .tFile).2 := by
  unfold inodeCreate
  split
  · exact SameHandles.refl
  · exact ⟨rfl, rfl, rfl⟩

theorem inodeDelete_sameHandles (fs : FS) (inumber : Int) :
    SameHandles fs (inodeDelete fs inumber).2 := by
  unfold inodeDelete
  split
  · exact SameHandles.refl
  · rename_i n _
    split
    · exact SameHandles.refl
    · simp only
      have hsame := dataBlockFree_sameHandles
        { fs with freeinodeTs := Function.update fs.freeinodeTs n .free }
        (fs.inodeTable n).iDataBlock
      split
      · split
        · exact ⟨hsame.marks, hsame.count, hsame.flag⟩
        · exact ⟨hsame.marks, hsame.count, hsame.flag⟩
      · exact ⟨rfl, rfl, rfl⟩

theorem addDirEntry_sameHandles (fs : FS) (inumber subInumber : Int) (subName : CString) :
    SameHandles fs (addDirEntry fs inumber subInumber subName).2 := by
  unfold addDirEntry
  split
  · split
    · exact SameHandles.refl
    · split
      · exact SameHandles.refl
      · split
        · exact SameHandles.refl
        · split
          · exact SameHandles.refl
          · exact ⟨rfl, rfl, rfl⟩
  · exact SameHandles.refl

theorem openFile_sameHandles {name : CString} {flags : BitVec 32} {found : Option (Int × Nat)}
    (hopen : openFile fs name flags = some (found, fs')) : SameHandles fs fs' := by
  unfold openFile at hopen
  split at hopen
  · split at hopen
    · cases hopen
      exact SameHandles.refl
    · split at hopen
      · cases hopen
        exact SameHandles.refl
      · rename_i htrunc
        cases hopen
        exact truncateOpened_sameHandles htrunc
  · split at hopen
    · have hcreate := inodeCreate_file_sameHandles fs
      rcases hinum : inodeCreate fs .tFile with ⟨inum, fs₁⟩
      rw [hinum] at hopen hcreate
      simp only at hopen
      split at hopen
      · cases hopen
        exact hcreate
      · split at hopen
        · cases hopen
        · have hadd := addDirEntry_sameHandles fs₁ rootDirInum inum name.tail
          rcases hr : addDirEntry fs₁ rootDirInum inum name.tail with ⟨r, fs₂⟩
          rw [hr] at hopen hadd
          simp only at hopen
          split at hopen
          · cases hopen
            exact (hcreate.trans hadd).trans (inodeDelete_sameHandles fs₂ inum)
          · cases hopen
            exact hcreate.trans hadd
    · cases hopen
      exact SameHandles.refl

/-! ## The discipline -/

/-- What the threads share: the books count the workers that destroy. -/
abbrev CloseWorld (S : Type) : Type := World (Shared S) Cond Nat

/-- At most one worker destroys: the one whose request raised `shutdown_called`. Outside the
server nothing is open once `open_flag` is 0. -/
structure CloseInv (server : Prop) (w : CloseWorld S) : Prop where
  total : w.total = w.state.destroyers.length
  called : w.state.shutdownCalled = w.state.accepted.isSome
  once : w.state.destroyers.Nodup
  accepted : ∀ i ∈ w.state.destroyers, w.state.accepted = some i
  shut : ¬ server → w.state.fs.openFlag = 0 →
    w.state.fs.openFilesCount = 0 ∧ ∀ h, w.state.fs.freeOpenFileEntries h = .free

/-- What a thread may change with the locks it holds. -/
structure CloseGuar (held : List (Lock S × Mode)) (w w' : CloseWorld S) : Prop where
  mutex : (.openFilesMutex, .write) ∉ held →
    SameHandles w.state.fs w'.state.fs ∧ ∀ v, w'.asleep v → w.asleep v
  marks : (.singleGlobalLock, .write) ∉ held →
    w'.state.fs.freeOpenFileEntries = w.state.fs.freeOpenFileEntries
  called : (.shuttingDownLock, .write) ∉ held →
    w'.state.shutdownCalled = w.state.shutdownCalled
  accepted : ∀ i, w.state.accepted = some i → w'.state.accepted = some i
  own : ∀ i, (.session i, .write) ∉ held → i ∈ w'.state.destroyers → i ∈ w.state.destroyers

/-- The counter is this far from the number of marks. -/
def CountOff (w : CloseWorld S) (n : Int) : Prop :=
  w.state.fs.openFilesCount = takenCount w.state.fs + n

/-- In the server nobody waits for a counter that is 0. -/
def Awake (server : Prop) (w : CloseWorld S) : Prop :=
  server → w.state.fs.openFilesCount = 0 → ¬ w.asleep .openFilesCond

/-- The discipline of the calls, in the server or as a library. -/
def closeDiscipline (S : Type) (server : Prop) : Discipline (Shared S) (Lock S) Cond Nat where
  inv := CloseInv server
  guar := CloseGuar
  lockInv l w := l = .openFilesMutex → CountOff w 0 ∧ Awake server w
  order _ _ := True
  shared _ := True
  single := server
  waiter b := server → b = 1
  entry s s' := s'.destroyers.length - s.destroyers.length
  entry_self s := Nat.sub_self _
  guar_refl _ _ := ⟨fun _ => ⟨SameHandles.refl, fun _ h => h⟩, fun _ => rfl, fun _ => rfl,
    fun _ h => h, fun _ _ h => h⟩
  keeps := by
    rintro held w w' l - hguar hheld hl rfl
    rcases hl rfl with ⟨hcount, hawake⟩
    rcases hguar.mutex hheld with ⟨hsame, hasleep⟩
    constructor
    · unfold CountOff
      rw [hsame.count, hsame.takenCount_eq]
      exact hcount
    · intro hserver hzero hsleeps
      exact hawake hserver (hsame.count ▸ hzero) (hasleep _ hsleeps)
  inv_quieter := by
    rintro w w' ⟨hstate, htotal, -⟩ ⟨h₁, h₂, h₃, h₄, h₅⟩
    constructor
    · rw [htotal, hstate, h₁]
    · rw [hstate, h₂]
    · rw [hstate]
      exact h₃
    · rw [hstate]
      exact h₄
    · rw [hstate]
      exact h₅
  lockInv_quieter := by
    rintro l w w' ⟨hstate, -, hasleep⟩ hl hmutex
    rcases hl hmutex with ⟨hcount, hawake⟩
    constructor
    · unfold CountOff
      rw [hstate]
      exact hcount
    · intro hserver hzero hsleeps
      rw [hstate] at hzero
      exact hawake hserver hzero (hasleep _ hsleeps)

variable {server : Prop} {held : List (Lock S × Mode)} {w w' : CloseWorld S} {i : S}

/-- A thread that holds the mutex sees the handles unchanged and no new sleepers. -/
theorem mutex_stable (hrely : (closeDiscipline S server).Rely held w w')
    (hheld : (.openFilesMutex, .write) ∈ held) :
    SameHandles w.state.fs w'.state.fs ∧ ∀ v, w'.asleep v → w.asleep v := by
  refine hrely.stable (P := fun w₁ => SameHandles w.state.fs w₁.state.fs ∧
    ∀ v, w₁.asleep v → w.asleep v) ⟨SameHandles.refl, fun _ h => h⟩ ?_ ?_
  · intro held' w₁ w₂ hcompat _ _ hguar _ hsame
    rcases hguar.mutex (fun hmem => nomatch (hcompat _ _ _ hmem hheld).1) with ⟨hnext, hasleep⟩
    exact ⟨hsame.1.trans hnext, fun v hv => hsame.2 v (hasleep v hv)⟩
  · intro w₁ w₂ _ hquiet hsame
    rw [hquiet.1]
    exact ⟨hsame.1, fun v hv => hsame.2 v (hquiet.2.2 v hv)⟩

/-- A thread that holds the global lock sees the marks unchanged. -/
theorem marks_stable (hrely : (closeDiscipline S server).Rely held w w')
    (hheld : (.singleGlobalLock, .write) ∈ held) :
    w'.state.fs.freeOpenFileEntries = w.state.fs.freeOpenFileEntries := by
  refine hrely.stable (P := fun w₁ => w₁.state.fs.freeOpenFileEntries =
    w.state.fs.freeOpenFileEntries) rfl ?_ ?_
  · intro held' w₁ w₂ hcompat _ _ hguar _ hsame
    exact (hguar.marks fun hmem => nomatch (hcompat _ _ _ hmem hheld).1).trans hsame
  · intro w₁ w₂ _ hquiet hsame
    rw [hquiet.1, hsame]

/-- A thread that holds the lock of `shutdown_called` sees it unchanged. -/
theorem called_stable (hrely : (closeDiscipline S server).Rely held w w')
    (hheld : (.shuttingDownLock, .write) ∈ held) :
    w'.state.shutdownCalled = w.state.shutdownCalled := by
  refine hrely.stable (P := fun w₁ => w₁.state.shutdownCalled = w.state.shutdownCalled) rfl ?_ ?_
  · intro held' w₁ w₂ hcompat _ _ hguar _ hsame
    exact (hguar.called fun hmem => nomatch (hcompat _ _ _ hmem hheld).1).trans hsame
  · intro w₁ w₂ _ hquiet hsame
    rw [hquiet.1, hsame]

/-- The request that raised `shutdown_called` stays the same, and no other thread destroys
for the session of this one. -/
def Chosen (i : S) (w : CloseWorld S) : Prop :=
  w.state.accepted = some i ∧ i ∉ w.state.destroyers

theorem Chosen.stable (h : Chosen i w) (hrely : (closeDiscipline S server).Rely held w w')
    (hheld : (.session i, .write) ∈ held) : Chosen i w' := by
  refine hrely.stable h ?_ ?_
  · intro held' w₁ w₂ hcompat _ _ hguar _ hchosen
    refine ⟨hguar.accepted i hchosen.1, fun hmem => hchosen.2 ?_⟩
    exact hguar.own i (fun hmem' => nomatch (hcompat _ _ _ hmem' hheld).1) hmem
  · intro w₁ w₂ _ hquiet hchosen
    unfold Chosen
    rw [hquiet.1]
    exact hchosen

theorem CountOff.stable {n : Int} (hoff : CountOff w n)
    (hrely : (closeDiscipline S server).Rely held w w')
    (hheld : (.openFilesMutex, .write) ∈ held) : CountOff w' n := by
  have hsame := (mutex_stable hrely hheld).1
  unfold CountOff
  rw [hsame.count, hsame.takenCount_eq]
  exact hoff

theorem Awake.stable (hawake : Awake server w)
    (hrely : (closeDiscipline S server).Rely held w w')
    (hheld : (.openFilesMutex, .write) ∈ held) : Awake server w' := by
  rcases mutex_stable hrely hheld with ⟨hsame, hasleep⟩
  intro hserver hzero hsleeps
  exact hawake hserver (hsame.count ▸ hzero) (hasleep _ hsleeps)

/-! ## The calls under the discipline -/

/-- The world with another file system. -/
def setFs (w : CloseWorld S) (fs : FS) : CloseWorld S := ⟨w.state.setFs fs, w.asleep, w.total⟩

@[simp] theorem setFs_state (w : CloseWorld S) (fs : FS) :
    (setFs w fs).state = w.state.setFs fs := rfl

@[simp] theorem setFs_asleep (w : CloseWorld S) (fs : FS) : (setFs w fs).asleep = w.asleep := rfl

theorem after_setFs (w : CloseWorld S) (fs : FS) :
    (closeDiscipline S server).after w (w.state.setFs fs) = setFs w fs := by
  unfold Discipline.after
  have hentry : (closeDiscipline S server).entry w.state (w.state.setFs fs) = 0 := Nat.sub_self _
  rw [hentry]
  rfl

theorem CloseInv.setFs (hinv : CloseInv server w)
    (hshut : ¬ server → fs.openFlag = 0 →
      fs.openFilesCount = 0 ∧ ∀ h, fs.freeOpenFileEntries h = .free) :
    CloseInv server (setFs w fs) :=
  ⟨hinv.total, hinv.called, hinv.once, hinv.accepted, hshut⟩

/-- An open handle keeps `open_flag` up. -/
theorem CloseInv.flag_ne (hinv : CloseInv server w) (hlib : ¬ server)
    (htaken : w.state.fs.freeOpenFileEntries h = .taken) : w.state.fs.openFlag ≠ 0 := by
  intro hflag
  rw [(hinv.shut hlib hflag).2 h] at htaken
  cases htaken

theorem CloseGuar.setFs (hmutex : (.openFilesMutex, .write) ∉ held → SameHandles w.state.fs fs)
    (hmarks : (.singleGlobalLock, .write) ∉ held →
      fs.freeOpenFileEntries = w.state.fs.freeOpenFileEntries) :
    CloseGuar held w (setFs w fs) :=
  ⟨fun h => ⟨hmutex h, fun _ hv => hv⟩, hmarks, fun _ => rfl, fun _ h => h, fun _ _ h => h⟩

theorem CountOff.markTaken {n : Int} {inumber : Int} {offset : Nat} (hoff : CountOff w n)
    (hfree : w.state.fs.freeOpenFileEntries h = .free) :
    CountOff (Concurrent.setFs w (Concurrent.markTaken w.state.fs h inumber offset)) (n - 1) := by
  have htaken : takenCount (Concurrent.markTaken w.state.fs h inumber offset) =
      takenCount w.state.fs + 1 := takenCount_markTaken hfree
  unfold CountOff at hoff ⊢
  simp only [setFs_state, Shared.setFs_fs, htaken]
  simp only [Concurrent.markTaken, hoff]
  push_cast
  omega

theorem CountOff.markFree {n : Int} (hoff : CountOff w n)
    (htaken : w.state.fs.freeOpenFileEntries h = .taken) :
    CountOff (Concurrent.setFs w (Concurrent.markFree w.state.fs h)) (n + 1) := by
  have hfree := takenCount_markFree htaken
  unfold CountOff at hoff ⊢
  have hcount : (Concurrent.markFree w.state.fs h).openFilesCount = w.state.fs.openFilesCount := rfl
  simp only [setFs_state, Shared.setFs_fs, hcount, hoff]
  omega

theorem CountOff.setCount {n : Int} (hoff : CountOff w n) (d : Int) :
    CountOff (Concurrent.setFs w (Concurrent.setCount w.state.fs (w.state.fs.openFilesCount + d)))
      (n + d) := by
  unfold CountOff at hoff ⊢
  have htaken : ∀ count, takenCount (Concurrent.setCount w.state.fs count) =
      takenCount w.state.fs := fun _ => rfl
  simp only [setFs_state, Shared.setFs_fs, htaken]
  simp only [Concurrent.setCount, hoff]
  omega

theorem closed_of_zero (hoff : CountOff w 0) (hzero : w.state.fs.openFilesCount = 0) :
    ∀ h, w.state.fs.freeOpenFileEntries h ≠ .taken := by
  unfold CountOff at hoff
  exact takenCount_eq_zero.mp (by omega)

theorem Awake.of_taken (hoff : CountOff w 0) (hsome : 0 < takenCount w.state.fs) :
    Awake server w := by
  intro _ hzero
  unfold CountOff at hoff
  omega

theorem Awake.markFree (hawake : Awake server w) :
    Awake server (Concurrent.setFs w (Concurrent.markFree w.state.fs h)) := hawake

section Calls

variable [DecidableEq S] {R : Type} {may : Shared S → Shared S → Prop} {b : Nat}

/-- The weakest precondition of a program under the discipline. -/
abbrev CloseWp (server : Prop) (may : Shared S → Shared S → Prop)
    (Q : R → List (Lock S × Mode) → Nat → CloseWorld S → Prop) (p : Op S R)
    (held : List (Lock S × Mode)) (b : Nat) (w : CloseWorld S) : Prop :=
  wp (closeDiscipline S server) may Q p held b w

variable {Q : R → List (Lock S × Mode) → Nat → CloseWorld S → Prop} {k : Unit → Op S R}

/-- An assignment to the file system with the mutex held. -/
theorem wp_setFs {f : FS → FS} (hheld : (.openFilesMutex, .write) ∈ held)
    (h : ∀ w', (closeDiscipline S server).Rely held w w' → CloseInv server w' →
      may w'.state (w'.state.setFs (f w'.state.fs)) →
      (¬ server → (f w'.state.fs).openFlag = 0 → (f w'.state.fs).openFilesCount = 0 ∧
        ∀ h, (f w'.state.fs).freeOpenFileEntries h = .free) ∧
      ((.singleGlobalLock, .write) ∉ held →
        (f w'.state.fs).freeOpenFileEntries = w'.state.fs.freeOpenFileEntries) ∧
      CloseWp server may Q (k ()) held b (setFs w' (f w'.state.fs))) :
    CloseWp server may Q ((Prog.modify fun s => s.setFs (f s.fs)).bind k) held b w := by
  refine wp_modify fun w' hrely hinv hmay => ?_
  rcases h w' hrely hinv hmay with ⟨hshut, hmarks, hnext⟩
  have hentry : (closeDiscipline S server).entry w'.state (w'.state.setFs (f w'.state.fs)) = 0 :=
    Nat.sub_self _
  rw [after_setFs, hentry, add_zero]
  exact ⟨CloseInv.setFs hinv hshut, CloseGuar.setFs (fun hmem => absurd hheld hmem) hmarks, hnext⟩

/-- Opening marks a handle only while `open_flag` is up, where that matters. -/
theorem addToOpenFileTable_wp {Q : Int → List (Lock S × Mode) → Nat → CloseWorld S → Prop}
    {inumber : Int} {offset : Nat} (hheld : (.singleGlobalLock, .write) ∈ held)
    (hmay : ¬ server → ∀ s s', may s s' → s.fs.openFlag = 0 → s' = s)
    (hQ : ∀ r w', Q r held b w') :
    CloseWp server may Q (addToOpenFileTable inumber offset) held b w := by
  unfold addToOpenFileTable
  simp only [bind_eq, pure_eq]
  refine wp_read fun w₁ _ _ => ?_
  cases hscan : firstFit fun h => w₁.state.fs.freeOpenFileEntries h = .free with
  | none => exact wp_ret fun w₂ _ _ => hQ _ _
  | some h =>
      have hfree₁ := (firstFit_eq_some.mp hscan).1
      refine wp_lock fun w₂ hrely₂ _ => ⟨trivial, fun hlock₂ => ?_⟩
      have hfree₂ : w₂.state.fs.freeOpenFileEntries h = .free := by
        rw [marks_stable hrely₂ hheld, hfree₁]
      refine wp_setFs (f := fun fs => markTaken fs h inumber offset) List.mem_cons_self
        fun w₃ hrely₃ _ hmay₃ => ?_
      have hoff₃ := (hlock₂ rfl).1.stable hrely₃ List.mem_cons_self
      have hfree₃ : w₃.state.fs.freeOpenFileEntries h = .free := by
        rw [marks_stable hrely₃ (List.mem_cons_of_mem _ hheld), hfree₂]
      refine ⟨fun hlib hflag => ?_, fun hmem => absurd (List.mem_cons_of_mem _ hheld) hmem, ?_⟩
      -- with the flag down nothing may change, and the mark would
      · have hmark := congrArg (fun s => s.fs.freeOpenFileEntries h) (hmay hlib _ _ hmay₃ hflag)
        simp [markTaken, hfree₃] at hmark
      refine wp_setFs (f := fun fs => setCount fs (fs.openFilesCount + 1)) List.mem_cons_self
        fun w₄ hrely₄ _ hmay₄ => ?_
      have hoff₄ := (hoff₃.markTaken hfree₃).stable hrely₄ List.mem_cons_self
      refine ⟨fun hlib hflag => ?_, fun _ => rfl, ?_⟩
      · have hcount := congrArg (fun s => s.fs.openFilesCount) (hmay hlib _ _ hmay₄ hflag)
        simp [setCount] at hcount
      have hsome₄ : 0 < takenCount w₄.state.fs := by
        rw [(mutex_stable hrely₄ List.mem_cons_self).1.takenCount_eq]
        simp [takenCount_markTaken hfree₃]
      refine wp_unlock fun w₅ hrely₅ _ => ⟨fun _ _ => ?_, ?_⟩
      · -- the counter is not 0, so it does not matter who sleeps
        have hoff₅ := (hoff₄.setCount 1).stable hrely₅ List.mem_cons_self
        have hsome₅ : 0 < takenCount w₅.state.fs := by
          rw [(mutex_stable hrely₅ List.mem_cons_self).1.takenCount_eq]
          exact hsome₄
        exact ⟨hoff₅, Awake.of_taken hoff₅ hsome₅⟩
      · rw [dropLock_cons_self]
        exact wp_ret fun w₆ _ _ => hQ _ _

theorem tfsOpenUnsynchronized_wp {Q : Int → List (Lock S × Mode) → Nat → CloseWorld S → Prop}
    {name : CString} {flags : BitVec 32} (hheld : (.singleGlobalLock, .write) ∈ held)
    (hmay : ¬ server → ∀ s s', may s s' → s.fs.openFlag = 0 → s' = s)
    (hQ : ∀ r w', Q r held b w') :
    CloseWp server may Q (tfsOpenUnsynchronized name flags) held b w := by
  intro w₁ hrely₁ hinv₁ s' hs' _
  rcases Option.map_eq_some_iff.mp hs' with ⟨⟨found, fs₁⟩, hopen, rfl⟩
  have hsame := openFile_sameHandles hopen
  have hentry : (closeDiscipline S server).entry w₁.state (w₁.state.setFs fs₁) = 0 :=
    Nat.sub_self _
  rw [after_setFs, hentry, add_zero]
  refine ⟨CloseInv.setFs hinv₁ fun hlib hflag => ?_,
    CloseGuar.setFs (fun _ => hsame) fun _ => hsame.marks, ?_⟩
  · rw [hsame.count, hsame.marks]
    exact hinv₁.shut hlib (hsame.flag ▸ hflag)
  · simp only [hopen]
    cases found with
    | none => exact wp_ret fun w₂ _ _ => hQ _ _
    | some entry => exact addToOpenFileTable_wp hheld hmay hQ

/-- A close that brings the counter to 0 wakes the thread that waits for it. -/
theorem removeFromOpenFileTable_wp {Q : Int → List (Lock S × Mode) → Nat → CloseWorld S → Prop}
    {fhandle : Int} (hheld : (.singleGlobalLock, .write) ∈ held) (hQ : ∀ r w', Q r held b w') :
    CloseWp server may Q (removeFromOpenFileTable fhandle) held b w := by
  unfold removeFromOpenFileTable
  cases index? maxOpenFiles fhandle with
  | none => exact wp_ret fun w₁ _ _ => hQ _ _
  | some h =>
      simp only [bind_eq, pure_eq]
      refine wp_read fun w₁ _ _ => ?_
      split
      · exact wp_ret fun w₂ _ _ => hQ _ _
      rename_i htaken
      have htaken₁ : w₁.state.fs.freeOpenFileEntries h = .taken := not_not.mp htaken
      refine wp_lock fun w₂ hrely₂ _ => ⟨trivial, fun hlock₂ => ?_⟩
      have htaken₂ : w₂.state.fs.freeOpenFileEntries h = .taken := by
        rw [marks_stable hrely₂ hheld, htaken₁]
      refine wp_setFs (f := fun fs => setCount fs (fs.openFilesCount - 1)) List.mem_cons_self
        fun w₃ hrely₃ hinv₃ _ => ?_
      have htaken₃ : w₃.state.fs.freeOpenFileEntries h = .taken := by
        rw [marks_stable hrely₃ (List.mem_cons_of_mem _ hheld), htaken₂]
      have hoff₃ := ((hlock₂ rfl).1.stable hrely₃ List.mem_cons_self).setCount (-1)
      refine ⟨fun hlib hflag => absurd hflag (CloseInv.flag_ne hinv₃ hlib htaken₃), fun _ => rfl, ?_⟩
      -- both branches of the wake-up end by marking the entry free
      have hfree : ∀ w₅, w₅.state.fs.freeOpenFileEntries h = .taken → CountOff w₅ (0 + -1) →
          Awake server w₅ →
          CloseWp server may Q
            ((Prog.modify fun s => s.setFs (markFree s.fs h)).bind fun _ =>
              (unlock Lock.openFilesMutex).bind fun _ => ret 0)
            ((.openFilesMutex, .write) :: held) b w₅ := by
        intro w₅ htaken₅ hoff₅ hawake₅
        refine wp_setFs (f := fun fs => markFree fs h) List.mem_cons_self
          fun w₆ hrely₆ hinv₆ _ => ?_
        have htaken₆ : w₆.state.fs.freeOpenFileEntries h = .taken := by
          rw [marks_stable hrely₆ (List.mem_cons_of_mem _ hheld), htaken₅]
        have hoff₆ := (hoff₅.stable hrely₆ List.mem_cons_self).markFree htaken₆
        have hawake₆ : Awake server (setFs w₆ (markFree w₆.state.fs h)) :=
          Awake.markFree (hawake₅.stable hrely₆ List.mem_cons_self)
        refine ⟨fun hlib hflag => absurd hflag (CloseInv.flag_ne hinv₆ hlib htaken₆),
          fun hmem => absurd (List.mem_cons_of_mem _ hheld) hmem, ?_⟩
        refine wp_unlock fun w₇ hrely₇ _ => ⟨fun _ _ => ?_, ?_⟩
        · have hoff₇ := hoff₆.stable hrely₇ List.mem_cons_self
          exact ⟨hoff₇, hawake₆.stable hrely₇ List.mem_cons_self⟩
        · rw [dropLock_cons_self]
          exact wp_ret fun w₈ _ _ => hQ _ _
      refine wp_read fun w₄ hrely₄ _ => ?_
      have htaken₄ : w₄.state.fs.freeOpenFileEntries h = .taken := by
        rw [marks_stable hrely₄ (List.mem_cons_of_mem _ hheld)]
        exact htaken₃
      have hoff₄ := hoff₃.stable hrely₄ List.mem_cons_self
      split
      · refine wp_wakeOne fun w₅ hrely₅ _ hnone => hfree w₅ ?_ ?_ fun hserver _ => hnone hserver
        · rw [marks_stable hrely₅ (List.mem_cons_of_mem _ hheld), htaken₄]
        · exact hoff₄.stable hrely₅ List.mem_cons_self
      · rename_i hlast
        exact hfree w₄ htaken₄ hoff₄ fun _ hzero => absurd hzero hlast

theorem tfsOpen_wp {Q : Int → List (Lock S × Mode) → Nat → CloseWorld S → Prop} {name : CString}
    {flags : BitVec 32} (hmay : ¬ server → ∀ s s', may s s' → s.fs.openFlag = 0 → s' = s)
    (hQ : ∀ r w', Q r held b w') : CloseWp server may Q (tfsOpen name flags) held b w := by
  unfold tfsOpen
  simp only [bind_eq, pure_eq]
  refine wp_lock fun w₁ _ _ => ⟨trivial, fun hlock₁ => ?_⟩
  refine wp_read fun w₂ hrely₂ _ => ?_
  have hlock₂ := hrely₂.lockInv (l := .openFilesMutex) List.mem_cons_self hlock₁
  split
  · refine wp_unlock fun w₃ hrely₃ _ =>
      ⟨fun _ => hrely₃.lockInv List.mem_cons_self hlock₂, ?_⟩
    rw [dropLock_cons_self]
    exact wp_ret fun w₄ _ _ => hQ _ _
  · refine wp_unlock fun w₃ hrely₃ _ =>
      ⟨fun _ => hrely₃.lockInv List.mem_cons_self hlock₂, ?_⟩
    rw [dropLock_cons_self]
    refine wp_lock fun w₄ _ _ => ⟨trivial, fun _ => ?_⟩
    refine wp_bind ?_
    refine tfsOpenUnsynchronized_wp List.mem_cons_self hmay fun r w₅ => ?_
    refine wp_unlock fun w₆ _ _ => ⟨fun _ hl => (by cases hl), ?_⟩
    rw [dropLock_cons_self]
    exact wp_ret fun w₇ _ _ => hQ _ _

theorem tfsClose_wp {Q : Int → List (Lock S × Mode) → Nat → CloseWorld S → Prop} {fhandle : Int}
    (hQ : ∀ r w', Q r held b w') : CloseWp server may Q (tfsClose fhandle) held b w := by
  unfold tfsClose
  simp only [bind_eq, pure_eq]
  refine wp_lock fun w₁ _ _ => ⟨trivial, fun _ => ?_⟩
  refine wp_bind ?_
  refine removeFromOpenFileTable_wp List.mem_cons_self fun r w₂ => ?_
  refine wp_unlock fun w₃ _ _ => ⟨fun _ hl => (by cases hl), ?_⟩
  rw [dropLock_cons_self]
  exact wp_ret fun w₄ _ _ => hQ _ _

/-- The thread that destroys waits until the counter is 0, and then nothing is open. -/
theorem tfsDestroyAfterAllClosed_wp
    {Q : Int → List (Lock S × Mode) → Nat → CloseWorld S → Prop}
    (hwaiter : server → b = 1) (hQ : ∀ r w', Q r held b w') :
    CloseWp server may Q tfsDestroyAfterAllClosed held b w := by
  unfold tfsDestroyAfterAllClosed
  simp only [bind_eq, pure_eq]
  refine wp_lock fun w₁ _ _ => ⟨trivial, fun hlock₁ => ?_⟩
  refine wp_await fun w₂ hrely₂ _ =>
    ⟨hwaiter, hrely₂.lockInv List.mem_cons_self hlock₁, trivial, fun w₃ hinv₃ hlock₃ => ⟨?_, ?_⟩⟩
  · intro hready
    have hzero₃ : w₃.state.fs.openFilesCount = 0 := of_decide_eq_true hready
    refine wp_setFs (f := fun fs => setFlag fs 0) List.mem_cons_self fun w₄ hrely₄ _ _ => ?_
    have hlock₄ := hrely₄.lockInv List.mem_cons_self hlock₃
    have hzero₄ : w₄.state.fs.openFilesCount = 0 := by
      rw [(mutex_stable hrely₄ List.mem_cons_self).1.count, hzero₃]
    have hclosed₄ := closed_of_zero (hlock₄ rfl).1 hzero₄
    refine ⟨fun _ _ => ⟨hzero₄, fun h => free_of_ne_taken (hclosed₄ h)⟩, fun _ => rfl, ?_⟩
    refine wp_unlock fun w₅ hrely₅ _ => ⟨fun _ => ?_, ?_⟩
    · refine hrely₅.lockInv List.mem_cons_self ?_
      exact hlock₄
    · rw [dropLock_cons_self]
      exact wp_ret fun w₆ _ _ => hQ _ _
  · intro hbusy
    have hbusy₃ : w₃.state.fs.openFilesCount ≠ 0 := of_decide_eq_false hbusy
    refine ⟨⟨hinv₃.total, hinv₃.called, hinv₃.once, hinv₃.accepted, hinv₃.shut⟩, ?_, fun hl => ?_⟩
    · exact ⟨fun hmem => absurd List.mem_cons_self hmem, fun _ => rfl, fun _ => rfl,
        fun _ h => h, fun _ _ h => h⟩
    · exact ⟨(hlock₃ hl).1, fun _ hzero => absurd hzero hbusy₃⟩

end Calls

/-! ## The start -/

theorem closeInv_start (server : Prop) (hflag : fs.openFlag ≠ 0) :
    CloseInv server (World.start (Shared.start fs : Shared S)) :=
  ⟨rfl, rfl, List.nodup_nil, fun _ hi => absurd hi List.not_mem_nil,
    fun _ hzero => absurd hzero hflag⟩

theorem closeLock_start (server : Prop) (hcount : fs.openFilesCount = 0)
    (hclosed : ∀ h, fs.freeOpenFileEntries h ≠ .taken) (l : Lock S) :
    (closeDiscipline S server).lockInv l (World.start (Shared.start fs)) := by
  rintro -
  refine ⟨?_, fun _ _ hasleep => hasleep⟩
  have hzero := takenCount_eq_zero.mpr hclosed
  simp [CountOff, World.start, hcount, hzero]

/-- Nothing is open after `tfs_init`. -/
theorem init_open : machine.init.openFlag ≠ 0 ∧ machine.init.openFilesCount = 0 ∧
    ∀ h, machine.init.freeOpenFileEntries h ≠ .taken := by
  rw [machine_init]
  exact ⟨by decide, rfl, fun h => by simp [initState, boot]⟩

end TecnicoFS.Part2.Concurrent
