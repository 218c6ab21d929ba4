import TecnicoFS.Part2.Closing

/-!
# Part 2: the counter of open files over init and destroy cycles

`open_files_count` is set to 0 when the program is loaded and never again: `state_init` marks
every handle `FREE` and leaves the counter alone. The difference between the counter and the
number of marks is therefore carried through every call but `tfs_init`, which adds the number
of handles it finds `TAKEN` (`exec_drift`).

* `count_survives`: while no `tfs_init` finds a handle open, the counter is exact.
* `count_drifts`: open, destroy, init, and the shutdown waits for ever.
-/

namespace TecnicoFS.Part2.Lifecycle

open Concurrent

/-! ## Runs over several lives of the file system -/

/-- The calls that touch the handle table or the counter. -/
inductive Call where
  | init
  | open (name : CString) (flags : BitVec 32)
  | close (fhandle : Int)
  | destroy
  | destroyAfterAllClosed
deriving DecidableEq

/-- `tfs_destroy`: `state_destroy` does nothing. -/
def tfsDestroy (fs : FS) : Int × FS := (0, fs)

/-- `tfs_destroy_after_all_closed` on a single thread: nobody ends a wait, so it returns only
where it does not wait. -/
def tfsDestroyAfterAllClosed (fs : FS) : Option (Int × FS) :=
  if fs.openFilesCount ≠ 0 then none else some (0, setFlag fs 0)

/-- One call. A global lock that `tfs_destroy` has destroyed is not modelled: an open or a
close in between works as ever here, and where it fails instead it changes nothing. -/
def exec (fs : FS) : Call → Option (Int × FS)
  | .init => some (tfsInit fs)
  | .open name flags => Part2.tfsOpen fs name flags
  | .close fhandle => some (Part2.tfsClose fs fhandle)
  | .destroy => some (tfsDestroy fs)
  | .destroyAfterAllClosed => tfsDestroyAfterAllClosed fs

/-- The library from the moment the program is loaded. -/
def machine : Machine FS Call Int := ⟨boot, exec⟩

/-- The next `tfs_init` is the first one, or follows a destroy. -/
def MayInit : Machine.Trace Call Int → Prop
  | [] => True
  | (.init, _) :: _ => False
  | (.destroy, _) :: _ => True
  | (.destroyAfterAllClosed, _) :: _ => True
  | (.open _ _, _) :: tr => MayInit tr
  | (.close _, _) :: tr => MayInit tr

instance decidableMayInit : ∀ tr, Decidable (MayInit tr)
  | [] => isTrue trivial
  | (.init, _) :: _ => isFalse id
  | (.destroy, _) :: _ => isTrue trivial
  | (.destroyAfterAllClosed, _) :: _ => isTrue trivial
  | (.open _ _, _) :: tr => decidableMayInit tr
  | (.close _, _) :: tr => decidableMayInit tr

/-- What the client may call. -/
def Lives : Machine.Guard FS Call Int := fun tr _ c => c = .init → MayInit tr

/-- Every `tfs_init` finds no handle open. -/
def ClosedLives : Machine.Guard FS Call Int := fun tr fs c =>
  Lives tr fs c ∧ (c = .init → ∀ h, fs.freeOpenFileEntries h ≠ .taken)

instance (tr : Machine.Trace Call Int) (fs : FS) (c : Call) : Decidable (Lives tr fs c) :=
  inferInstanceAs (Decidable (c = .init → MayInit tr))

instance (tr : Machine.Trace Call Int) (fs : FS) (c : Call) : Decidable (ClosedLives tr fs c) :=
  inferInstanceAs (Decidable (Lives tr fs c ∧
    (c = .init → ∀ h, fs.freeOpenFileEntries h ≠ .taken)))

/-! ## The drift of the counter -/

/-- How far the counter is from the number of marks. -/
def drift (fs : FS) : Int := fs.openFilesCount - takenCount fs

variable {fs fs' : FS} {r : Int}

theorem drift_of_sameHandles (h : SameHandles fs fs') : drift fs' = drift fs := by
  unfold drift
  rw [h.count, h.takenCount_eq]

theorem drift_setCount (fs : FS) (count : Int) :
    drift (setCount fs count) = count - takenCount fs := rfl

theorem addToOpenFileTable_drift (fs : FS) (inumber : Int) (offset : Nat) :
    drift (Part2.addToOpenFileTable fs inumber offset).2 = drift fs := by
  cases hfit : firstFit fun h => fs.freeOpenFileEntries h = .free with
  | none =>
      unfold Part2.addToOpenFileTable
      rw [hfit]
  | some h =>
      have hadd : (Part2.addToOpenFileTable fs inumber offset).2 =
          setCount (markTaken fs h inumber offset) (fs.openFilesCount + 1) := by
        unfold Part2.addToOpenFileTable
        rw [hfit]
        rfl
      have htaken : takenCount (markTaken fs h inumber offset) = takenCount fs + 1 :=
        takenCount_markTaken (firstFit_eq_some.mp hfit).1
      rw [hadd, drift_setCount, htaken]
      unfold drift
      omega

theorem tfsClose_drift (fs : FS) (fhandle : Int) :
    drift (Part2.tfsClose fs fhandle).2 = drift fs := by
  unfold Part2.tfsClose
  cases hindex : index? maxOpenFiles fhandle with
  | none =>
      unfold Part2.removeFromOpenFileTable
      rw [hindex]
  | some h =>
      by_cases hmark : fs.freeOpenFileEntries h = .taken
      · have hremove : (Part2.removeFromOpenFileTable fs fhandle).2 =
            setCount (markFree fs h) (fs.openFilesCount - 1) := by
          simp only [Part2.removeFromOpenFileTable, hindex, hmark, ne_eq, not_true_eq_false,
            ↓reduceIte, setCount, markFree]
        have hfree := takenCount_markFree hmark
        rw [hremove, drift_setCount]
        unfold drift
        omega
      · simp only [Part2.removeFromOpenFileTable, hindex, ne_eq, hmark, not_false_eq_true,
          ↓reduceIte]

theorem tfsOpen_drift {name : CString} {flags : BitVec 32}
    (hopen : Part2.tfsOpen fs name flags = some (r, fs')) : drift fs' = drift fs := by
  unfold Part2.tfsOpen at hopen
  split at hopen
  · cases hopen
    rfl
  · rw [tfsOpenUnsynchronized_eq] at hopen
    rcases Option.map_eq_some_iff.mp hopen with ⟨⟨found, fs₁⟩, hfile, hret⟩
    have hsame := drift_of_sameHandles (openFile_sameHandles hfile)
    cases found with
    | none =>
        cases hret
        exact hsame
    | some entry =>
        have hadd := addToOpenFileTable_drift fs₁ entry.1 entry.2
        simp only at hret
        rw [hret] at hadd
        exact hadd.trans hsame

/-- `tfs_init` marks every handle `FREE` and keeps the counter. -/
theorem tfsInit_drift (fs : FS) : drift (tfsInit fs).2 = drift fs + takenCount fs := by
  have hnone : takenCount (tfsInit fs).2 = 0 := by
    rw [tfsInit_eq]
    exact takenCount_eq_zero.mpr fun h => by simp [stateInit]
  have hcount : (tfsInit fs).2.openFilesCount = fs.openFilesCount := by
    rw [tfsInit_eq]
    rfl
  unfold drift
  omega

theorem tfsDestroyAfterAllClosed_drift
    (hdestroy : tfsDestroyAfterAllClosed fs = some (r, fs')) : drift fs' = drift fs := by
  unfold tfsDestroyAfterAllClosed at hdestroy
  split at hdestroy
  · cases hdestroy
  · rw [← (Prod.mk.inj (Option.some.inj hdestroy)).2]
    rfl

/-- What one call does to the drift. -/
theorem exec_drift {c : Call} (hexec : exec fs c = some (r, fs')) :
    drift fs' = if c = .init then drift fs + takenCount fs else drift fs := by
  cases c with
  | init =>
      rw [if_pos rfl, ← tfsInit_drift, Option.some.inj hexec]
  | «open» name flags =>
      rw [if_neg (by simp)]
      exact tfsOpen_drift hexec
  | close fhandle =>
      rw [if_neg (by simp), ← tfsClose_drift fs fhandle, Option.some.inj hexec]
  | destroy =>
      rw [if_neg (by simp), ← (Prod.mk.inj (Option.some.inj hexec)).2]
  | destroyAfterAllClosed =>
      rw [if_neg (by simp)]
      exact tfsDestroyAfterAllClosed_drift hexec

/-! ## Runs -/

/-- The counter is exact, and so `tfs_destroy_after_all_closed` returns exactly when no handle
is open. -/
def CountExact (fs : FS) : Prop :=
  fs.openFilesCount = takenCount fs ∧
    ((tfsDestroyAfterAllClosed fs).isSome ↔ ∀ h, fs.freeOpenFileEntries h ≠ .taken)

theorem countExact_of_drift (h : drift fs = 0) : CountExact fs := by
  have hcount : fs.openFilesCount = takenCount fs := Int.sub_eq_zero.mp h
  refine ⟨hcount, ?_⟩
  rw [← takenCount_eq_zero, tfsDestroyAfterAllClosed, hcount]
  split
  · simp_all
  · simp_all

theorem reach_drift {tr : Machine.Trace Call Int} (h : machine.Reach ClosedLives (tr, fs)) :
    drift fs = 0 := by
  apply h.invariant (P := fun _ fs => drift fs = 0)
  · decide
  · intro tr fs c r fs' hdrift hok hexec
    have hstep := exec_drift hexec
    by_cases hinit : c = .init
    · -- the condition: this `tfs_init` finds no mark
      have hnone := takenCount_eq_zero.mpr (hok.2 hinit)
      rw [hstep, hdrift, if_pos hinit, hnone]
      rfl
    · rw [hstep, hdrift, if_neg hinit]

/-- In every run in which no `tfs_init` finds a handle open, the counter is exact in every
state. -/
theorem count_survives {tr : Machine.Trace Call Int}
    (h : machine.Reach ClosedLives (tr, fs)) : CountExact fs :=
  countExact_of_drift (reach_drift h)

/-- Two lives of the file system, with every file closed in between. -/
theorem count_survives_two_lives : ∃ fs, fs.openFilesCount = 1 ∧ CountExact fs := by
  have hplay : ((machine.play ClosedLives ([], boot) [.init, .open pathA tfsOCreat, .close 0,
      .destroyAfterAllClosed, .init, .open pathA tfsOCreat]).map fun cfg =>
        cfg.2.openFilesCount) = some 1 := by decide +kernel
  rcases Option.map_eq_some_iff.mp hplay with ⟨⟨tr, fs⟩, hrun, hcount⟩
  exact ⟨fs, hcount, count_survives (Machine.Reach.start.play hrun)⟩

/-- A handle left open at `tfs_destroy` is counted for ever: after the next `tfs_init` no
handle is open, and `tfs_destroy_after_all_closed` does not return. -/
theorem count_drifts : ∃ tr fs, machine.Reach Lives (tr, fs) ∧
    (∀ h, fs.freeOpenFileEntries h ≠ .taken) ∧ fs.openFilesCount = 1 ∧
    tfsDestroyAfterAllClosed fs = none ∧ ¬ CountExact fs := by
  have hplay : ((machine.play Lives ([], boot) [.init, .open pathA tfsOCreat, .destroy,
      .init]).map fun cfg => (decide (takenCount cfg.2 = 0), cfg.2.openFilesCount)) =
        some (true, 1) := by decide +kernel
  rcases Option.map_eq_some_iff.mp hplay with ⟨⟨tr, fs⟩, hrun, heq⟩
  rcases Prod.mk.inj heq with ⟨hnone, hcount⟩
  have htaken : takenCount fs = 0 := of_decide_eq_true hnone
  have hone : fs.openFilesCount = 1 := hcount
  refine ⟨tr, fs, Machine.Reach.start.play hrun, takenCount_eq_zero.mp htaken, hone, ?_, ?_⟩
  · rw [tfsDestroyAfterAllClosed, hone]
    rfl
  · intro hexact
    have := hexact.1
    omega

end TecnicoFS.Part2.Lifecycle
