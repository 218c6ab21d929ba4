import TecnicoFS.Part2.Closing
import TecnicoFS.Lib.Schedule

/-!
# Part 2: the shutdown loses no wakeup

Any number of workers handle requests to open, to close and to shut down. Only the worker
that raises `shutdown_called` destroys (`Chosen`), so a single sleeper is all a signal has to
reach; and the worker that brings the counter to 0 signals before it lets go of the mutex.
-/

namespace TecnicoFS.Part2.Concurrent

open Threads Threads.Prog

variable {S : Type}

/-- The programs of the workers: a session and its request. -/
def workerBody (call : S × Request) : Op S Int := threadHandler call.1 call.2

/-- The thread is at the top of its wait loop, with the mutex, and finds the counter 0. -/
def leavesWait {T C : Type} (cfg : Config T (Shared S) (Lock S) Cond C Int) (t : T) : Bool :=
  match cfg.task t with
  | some ⟨_, .await _ .openFilesMutex _ _, _, false⟩ => cfg.state.fs.openFilesCount = 0
  | _ => false

/-! ## The worker under the discipline -/

section Worker

variable [DecidableEq S] {held : List (Lock S × Mode)} {w : CloseWorld S} {i : S}
  {Q : Int → List (Lock S × Mode) → Nat → CloseWorld S → Prop}

/-- Everything is allowed in the server. -/
def anyStep : Shared S → Shared S → Prop := fun _ _ => True

/-- The first request to shut down raises `shutdown_called`. -/
theorem wp_accept {request : Request} {k : Unit → Op S Int} {b : Nat}
    (hheld : (.shuttingDownLock, .write) ∈ held)
    (hfirst : request = .shutdown → w.state.shutdownCalled = false)
    (hnext : ∀ w', (request = .shutdown → Chosen i w') →
      CloseWp True anyStep Q (k ()) held b w') :
    CloseWp True anyStep Q
      ((Prog.modify fun s => if request = .shutdown then s.accept i else s).bind k) held b w := by
  refine wp_modify fun w' hrely hinv _ => ?_
  have hcalled := called_stable hrely hheld
  by_cases hshutdown : request = .shutdown
  · rw [if_pos hshutdown] at *
    have hnone : w'.state.accepted = none := by
      have hfalse := hinv.called
      rw [hcalled, hfirst hshutdown] at hfalse
      exact Option.not_isSome_iff_eq_none.mp (by simp [← hfalse])
    have hnew : i ∉ w'.state.destroyers := by
      intro hmem
      rw [hinv.accepted i hmem] at hnone
      cases hnone
    have hentry : (closeDiscipline S True).entry w'.state (w'.state.accept i) = 0 := Nat.sub_self _
    unfold Discipline.after
    rw [hentry, add_zero, add_zero]
    refine ⟨⟨hinv.total, rfl, hinv.once, ?_, fun hlib => absurd trivial hlib⟩,
      ⟨fun _ => ⟨SameHandles.refl, fun _ h => h⟩, fun _ => rfl, fun hmem => absurd hheld hmem, ?_,
        fun _ _ h => h⟩, hnext _ fun _ => ⟨rfl, hnew⟩⟩
    · intro j hj
      rw [hinv.accepted j hj] at hnone
      cases hnone
    · intro j hj
      rw [hj] at hnone
      cases hnone
  · rw [if_neg hshutdown] at *
    rw [after_self, (closeDiscipline S True).entry_self, add_zero]
    exact ⟨hinv, (closeDiscipline S True).guar_refl _ _, hnext _ fun h => absurd h hshutdown⟩

/-- The chosen worker is entered in the books when it begins to destroy. -/
theorem caseShutdown_wp (hheld : (.session i, .write) ∈ held) (hchosen : Chosen i w) :
    CloseWp True anyStep Q (caseShutdown i) held 0 w := by
  unfold caseShutdown
  simp only [bind_eq]
  refine wp_modify fun w₁ hrely₁ hinv₁ _ => ?_
  have hchosen₁ := hchosen.stable hrely₁ hheld
  -- this session is the one chosen, so no other has got here
  have hnone : w₁.state.destroyers = [] := by
    refine List.eq_nil_iff_forall_not_mem.mpr fun j hj => ?_
    have hj' := hinv₁.accepted j hj
    rw [hchosen₁.1] at hj'
    cases hj'
    exact hchosen₁.2 hj
  have hentry : (closeDiscipline S True).entry w₁.state (w₁.state.record i) = 1 := by
    simp [closeDiscipline, hnone]
  unfold Discipline.after
  rw [hentry, zero_add]
  refine ⟨⟨?_, hinv₁.called, ?_, ?_, fun hlib => absurd trivial hlib⟩,
    ⟨fun _ => ⟨SameHandles.refl, fun _ h => h⟩, fun _ => rfl, fun _ => rfl, fun _ h => h, ?_⟩, ?_⟩
  · simp [hinv₁.total, hnone]
  · simp [hnone]
  · intro j hj
    rw [Shared.record_destroyers, hnone, List.nil_append, List.mem_singleton] at hj
    rw [hj]
    exact hchosen₁.1
  · intro j hj hmem
    rw [Shared.record_destroyers, hnone, List.nil_append, List.mem_singleton] at hmem
    subst hmem
    exact absurd hheld hj
  · refine wp_bind (tfsDestroyAfterAllClosed_wp (fun _ => rfl) fun r w₂ => ?_)
    refine wp_lock fun w₃ _ _ => ⟨trivial, fun _ => ?_⟩
    refine wp_modify fun w₄ _ hinv₄ _ => ?_
    have hentry₄ : (closeDiscipline S True).entry w₄.state
        { w₄.state with shuttingDown := true } = 0 := Nat.sub_self _
    unfold Discipline.after
    rw [hentry₄, add_zero, add_zero]
    refine ⟨⟨hinv₄.total, hinv₄.called, hinv₄.once, hinv₄.accepted, hinv₄.shut⟩,
      ⟨fun _ => ⟨SameHandles.refl, fun _ h => h⟩, fun _ => rfl, fun _ => rfl, fun _ h => h,
        fun _ _ h => h⟩, ?_⟩
    exact wp_unlock fun w₅ _ _ => ⟨fun _ hl => (by cases hl), trivial⟩

theorem threadHandler_wp {request : Request} (hQ : ∀ r w', Q r [] 0 w') :
    CloseWp True anyStep Q (threadHandler i request) [] 0 w := by
  unfold threadHandler
  simp only [bind_eq, pure_eq]
  refine wp_lock fun w₁ _ _ => ⟨trivial, fun _ => ?_⟩
  refine wp_lock fun w₂ _ _ => ⟨trivial, fun _ => ?_⟩
  refine wp_read fun w₃ _ _ => ?_
  split
  · refine wp_unlock fun w₄ _ _ => ⟨fun _ hl => (by cases hl), ?_⟩
    rw [dropLock_cons_self]
    refine wp_unlock fun w₅ _ _ => ⟨fun _ hl => (by cases hl), ?_⟩
    rw [dropLock_cons_self]
    exact wp_ret fun w₆ _ _ => hQ _ _
  · rename_i hgo
    have hfirst : request = .shutdown → w₃.state.shutdownCalled = false := by
      intro hshutdown
      simpa [hshutdown] using hgo
    refine wp_accept (i := i) List.mem_cons_self hfirst fun w₄ hchosen₄ => ?_
    refine wp_unlock fun w₅ hrely₅ _ => ⟨fun _ hl => (by cases hl), ?_⟩
    rw [dropLock_cons_self]
    have hleave : ∀ r w', CloseWp True anyStep Q
        ((unlock (Lock.session i)).bind fun _ => ret r) [(.session i, .write)] 0 w' := by
      intro r w'
      refine wp_unlock fun w₆ _ _ => ⟨fun _ hl => (by cases hl), ?_⟩
      rw [dropLock_cons_self]
      exact wp_ret fun w₇ _ _ => hQ _ _
    refine wp_bind ?_
    cases request with
    | «open» name flags => exact tfsOpen_wp (fun hlib => absurd trivial hlib) hleave
    | close fhandle => exact tfsClose_wp hleave
    | shutdown =>
        have hchosen₅ := (hchosen₄ rfl).stable hrely₅ (List.mem_cons_of_mem _ List.mem_cons_self)
        exact caseShutdown_wp List.mem_cons_self hchosen₅

end Worker

/-! ## Runs -/

section Runs

variable {T : Type} [DecidableEq S]

/-- The calls promise nothing but to follow the discipline. -/
def shutdownContract (S T : Type) :
    Contract T (Shared S) (Lock S) Cond (S × Request) Int Nat where
  allowed _ := True
  may _ := anyStep
  post _ _ _ _ := True
  weight _ _ := 0
  J _ _ := True

omit [DecidableEq S] in
theorem CloseInv.destroyers_le {server : Prop} {w : CloseWorld S} (h : CloseInv server w) :
    w.state.destroyers.length ≤ 1 := by
  have hsub : ∀ i ∈ w.state.destroyers, i ∈ w.state.accepted.toList := by
    intro i hi
    simp [h.accepted i hi]
  have hle := (h.once.subperm hsub).length_le
  cases hacc : w.state.accepted with
  | none => simp_all
  | some i => simpa [hacc] using hle

theorem shutdown_meets :
    Meets (closeDiscipline S True) (shutdownContract S T) workerBody where
  start c log w rest _ _ _ _ := threadHandler_wp fun _ _ => ⟨rfl, rfl, trivial⟩
  done _ _ _ _ := trivial
  J_guar _ _ _ _ _ := trivial
  J_quieter _ _ _ := trivial
  single := by
    intro _ w x y z hinv hx hy htotal
    -- two sleepers would be two workers that destroy
    have hle := hinv.destroyers_le
    have hlen := hinv.total
    have hx' := hx trivial
    have hy' := hy trivial
    omega

/-- At most one worker destroys. While `open_files_mutex` is free and the counter is 0, no
worker sleeps on `open_files_cond`; and when a worker leaves its wait loop, no handle is
marked `TAKEN`. -/
theorem shutdown_wakes [DecidableEq T] [Fintype T]
    {cfg : Config T (Shared S) (Lock S) Cond (S × Request) Int}
    (hreach : Reach workerBody (Shared.start machine.init) (fun _ _ _ => True) cfg) :
    cfg.state.destroyers.length ≤ 1 ∧
      ¬ (cfg.state.fs.openFilesCount = 0 ∧ cfg.Unwritten .openFilesMutex ∧
        cfg.Asleep .openFilesCond) ∧
      ∀ t, leavesWait cfg t = true → ∀ h, cfg.state.fs.freeOpenFileEntries h ≠ .taken := by
  have hfollows : ∀ cfg t cfg', True →
      Follows (closeDiscipline S True) (shutdownContract S T) cfg t cfg' :=
    fun _ _ _ _ => ⟨fun _ _ _ => trivial, fun _ _ => trivial, fun _ _ hl => absurd trivial hl⟩
  rcases init_open with ⟨hflag, hcount, hclosed⟩
  rcases hreach.sound shutdown_meets (closeInv_start True hflag)
    (closeLock_start True hcount hclosed) trivial hfollows with ⟨b, g, hsound⟩
  refine ⟨hsound.inv.destroyers_le, ?_, fun t hleaves => ?_⟩
  · rintro ⟨hzero, hfree, hasleep⟩
    exact (hsound.free _ hfree rfl).2 trivial hzero hasleep
  · unfold leavesWait at hleaves
    split at hleaves
    · rename_i htask
      have hzero : cfg.state.fs.openFilesCount = 0 := of_decide_eq_true hleaves
      rcases Discipline.Later.now (hsound.tasks t _ htask) hsound.inv with ⟨-, hlock, -⟩
      exact closed_of_zero (hlock rfl).1 hzero
    · cases hleaves

end Runs

/-! ## Two workers -/

/-- The worker goes on for so many steps. -/
def steps (t : Fin 2) (count : Nat) : List (Move (Fin 2) (Fin 2 × Request)) :=
  List.replicate count (t, none)

/-- The worker handles a request of its session, for so many steps. -/
def handles (t : Fin 2) (request : Request) (count : Nat) :
    List (Move (Fin 2) (Fin 2 × Request)) :=
  (t, some (t, request)) :: steps t count

/-- Worker 1 is asked to shut down while worker 0 has a file open, and waits for its close. -/
theorem shutdown_wakes_two :
    ∃ cfg : Config (Fin 2) (Shared (Fin 2)) (Lock (Fin 2)) Cond (Fin 2 × Request) Int,
      cfg.state.destroyers = [1] ∧ leavesWait cfg 1 = true ∧
      (cfg.state.destroyers.length ≤ 1 ∧
        ¬ (cfg.state.fs.openFilesCount = 0 ∧ cfg.Unwritten .openFilesMutex ∧
          cfg.Asleep .openFilesCond) ∧
        ∀ t, leavesWait cfg t = true → ∀ h, cfg.state.fs.freeOpenFileEntries h ≠ .taken) := by
  have hplay : ((Config.init (Shared.start machine.init)).play workerBody (fun _ _ _ => True)
      (handles 0 (.open pathA tfsOCreat) 18 ++ handles 1 .shutdown 6 ++ handles 0 (.close 0) 16 ++
        steps 1 1)).map (fun cfg => decide (cfg.state.destroyers = [1] ∧ leavesWait cfg 1 = true)) =
      some true := by
    decide +kernel
  rcases Option.map_eq_some_iff.mp hplay with ⟨cfg, hplay, hfacts⟩
  rcases of_decide_eq_true hfacts with ⟨hdestroyers, hleaves⟩
  exact ⟨cfg, hdestroyers, hleaves, shutdown_wakes (Reach.init.play hplay)⟩

end TecnicoFS.Part2.Concurrent
