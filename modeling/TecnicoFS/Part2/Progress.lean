import TecnicoFS.Lib.Progress
import TecnicoFS.Part2.GlobalLock
import TecnicoFS.Part2.Shutdown

/-!
# Part 2: no call hangs but for the shutdown

A session's lock comes first, then `shutting_down_lock`, the global lock and `open_files_mutex`;
a worker that shuts the server down takes `shutting_down_lock` again after it has let go of the
last two. So the calls of any number of threads come to an end, whatever the order of their
steps. Only `tfs_destroy_after_all_closed` may be left, asleep, and in the server that means that
a file is still open.
-/

namespace TecnicoFS.Part2.Concurrent

open Threads Threads.Prog

variable {S : Type} [DecidableEq S]

/-- The order in which the mutexes are taken. -/
def rank : Lock S → Nat
  | .session _ => 0
  | .shuttingDownLock => 1
  | .singleGlobalLock => 2
  | .openFilesMutex => 3

omit [DecidableEq S] in
theorem rank_lt_four (l : Lock S) : rank l < 4 := by
  cases l with
  | _ => simp [rank]

/-! ## The library -/

/-- Takes only mutexes from the global lock on, and gives them back. -/
abbrev Inner {α : Type} (p : Op S α) : Prop := Above rank 3 p

theorem findEntry_inner (b : Fin dataBlocks) (subName : CString)
    (entries : List (Fin maxDirEntries)) : Inner (findEntry b subName entries : Op S Int) := by
  induction entries with
  | nil => exact above_ret _
  | cons i rest ih =>
      rw [findEntry]
      refine (above_read _).bind fun inumber => (above_read _).bind fun name => ?_
      split
      · exact above_read _
      · exact ih

theorem findInDir_inner (inumber : Int) (subName : CString) :
    Inner (findInDir inumber subName : Op S Int) := by
  unfold findInDir
  split
  · exact above_ret _
  · refine (above_read _).bind fun type => ?_
    split
    · exact above_ret _
    · refine (above_read _).bind fun block => ?_
      split
      · exact above_ret _
      · exact findEntry_inner _ _ _

theorem dataBlockAlloc_inner : Inner (dataBlockAlloc : Op S Int) := by
  unfold dataBlockAlloc
  apply Above.bind (above_read _)
  intro free
  split
  · exact above_ret _
  · exact Above.bind (above_modify _) fun _ => above_ret _

theorem allocIfEmpty_inner (n : Fin inodeTableSize) : Inner (allocIfEmpty n : Op S Unit) := by
  unfold allocIfEmpty
  refine (above_read _).bind fun size => ?_
  split
  · exact dataBlockAlloc_inner.bind fun b => above_modify _
  · exact above_ret _

theorem growTo_inner (h : Fin maxOpenFiles) (n : Fin inodeTableSize) :
    Inner (growTo h n : Op S Unit) := by
  unfold growTo
  refine (above_read _).bind fun offset => (above_read _).bind fun size => ?_
  split
  · exact above_modify _
  · exact above_ret _

theorem tfsWriteUnsynchronized_inner (fhandle : Int) (buffer : List UInt8) :
    Inner (tfsWriteUnsynchronized fhandle buffer : Op S Int) := by
  unfold tfsWriteUnsynchronized
  split
  · exact above_ret _
  · refine (above_read _).bind fun inumber => ?_
    split
    · exact above_ret _
    · rename_i n _
      refine (above_read _).bind fun offset => ?_
      simp only
      split
      · exact above_ret _
      · refine (allocIfEmpty_inner n).bind fun _ => (above_read _).bind fun block => ?_
        split
        · exact above_ret _
        · refine (above_read _).bind fun offset => (above_modify? _).bind fun _ => ?_
          refine (above_modify _).bind fun _ => ?_
          exact (growTo_inner _ n).bind fun _ => above_ret _

theorem tfsReadUnsynchronized_inner (fhandle : Int) (len : Nat) :
    Inner (tfsReadUnsynchronized fhandle len : Op S (Int × List UInt8)) := by
  unfold tfsReadUnsynchronized
  split
  · exact above_ret _
  · refine (above_read _).bind fun inumber => ?_
    split
    · exact above_ret _
    · refine (above_read _).bind fun size => (above_read _).bind fun offset => ?_
      simp only
      split
      · exact above_ret _
      · refine (above_read _).bind fun block => ?_
        split
        · exact above_ret _
        · refine (above_read _).bind fun offset => ?_
          refine Above.bind ?_ fun bytes => (above_modify _).bind fun _ => above_ret _
          unfold copyOut
          split
          · exact above_crash
          · exact above_read _

theorem addToOpenFileTable_inner (inumber : Int) (offset : Nat) :
    Inner (addToOpenFileTable inumber offset : Op S Int) := by
  unfold addToOpenFileTable
  refine (above_read _).bind fun free => ?_
  split
  · exact above_ret _
  · constructor
    intro low waits held hheld
    exact climbs_lock hheld fun _ _ => climbs_unlock rfl

theorem removeFromOpenFileTable_inner (fhandle : Int) :
    Inner (removeFromOpenFileTable fhandle : Op S Int) := by
  unfold removeFromOpenFileTable
  split
  · exact above_ret _
  · refine (above_read _).bind fun state => ?_
    split
    · exact above_ret _
    · rename_i h _ _
      constructor
      intro low waits held hheld
      refine climbs_lock hheld fun _ _ => ?_
      simp only [bind_eq, pure_eq, ret_bind]
      split
      · exact fun _ => climbs_unlock rfl
      · exact fun _ => climbs_unlock rfl

theorem tfsOpenUnsynchronized_inner (name : CString) (flags : BitVec 32) :
    Inner (tfsOpenUnsynchronized name flags : Op S Int) := by
  constructor
  intro low waits held hheld s
  simp only
  split
  · exact (addToOpenFileTable_inner _ _).climbs low waits held hheld
  · rfl

theorem tfsOpen_above (name : CString) (flags : BitVec 32) :
    Above rank 2 (tfsOpen name flags : Op S Int) := by
  constructor
  intro low waits held hheld
  have hmutex : ∀ q ∈ held, rank q.1 < rank (.openFilesMutex : Lock S) :=
    fun q hq => (hheld q hq).trans (by simp [rank])
  unfold tfsOpen
  refine climbs_lock hmutex fun s => ?_
  simp only [bind_eq, pure_eq, ret_bind]
  split
  · exact climbs_unlock rfl
  · refine climbs_unlock ?_
    have hbody := Above.section (l := Lock.singleGlobalLock)
      (tfsOpenUnsynchronized_inner (S := S) name flags) le_rfl fun r => above_ret r
    exact hbody.climbs low waits held hheld

theorem tfsClose_above (fhandle : Int) : Above rank 2 (tfsClose fhandle : Op S Int) :=
  Above.section (l := Lock.singleGlobalLock) (removeFromOpenFileTable_inner fhandle) le_rfl
    fun r => above_ret r

/-- The calls of a program that uses the library: its calls on files, and the last one. -/
inductive Service where
  | call (c : Call)
  | destroyAfterAllClosed
deriving DecidableEq

/-- The programs of the calls. -/
def service : Service → Op S Ret
  | .call c => exec c
  | .destroyAfterAllClosed => do
      let r ← tfsDestroyAfterAllClosed
      pure ⟨r, []⟩

theorem exec_above (c : Call) : Above rank 2 (exec c : Op S Ret) := by
  cases c with
  | lookup name =>
      refine Above.bind (Above.section (l := Lock.singleGlobalLock) ?_ le_rfl fun r => above_ret r)
        fun r => above_ret _
      unfold tfsLookupUnsynchronized
      split
      · exact findInDir_inner _ _
      · exact above_ret _
  | «open» name flags => exact (tfsOpen_above name flags).bind fun r => above_ret _
  | close fhandle => exact (tfsClose_above fhandle).bind fun r => above_ret _
  | write fhandle buffer =>
      exact Above.bind (Above.section (l := Lock.singleGlobalLock)
        (tfsWriteUnsynchronized_inner fhandle buffer) le_rfl fun r => above_ret r)
        fun r => above_ret _
  | read fhandle len =>
      exact Above.bind (Above.section (l := Lock.singleGlobalLock)
        (tfsReadUnsynchronized_inner fhandle len) le_rfl fun r => above_ret r) fun r => above_ret _

/-- `tfs_destroy_after_all_closed` may wait, with no other lock. -/
theorem tfsDestroyAfterAllClosed_climbs {α : Type} {low : Nat} {waits : Prop}
    {Q : List (Lock S × Mode) → Prop} {k : Int → Op S α} {held : List (Lock S × Mode)}
    (hwaits : waits) (hheld : ∀ p ∈ held, rank p.1 < low ∧ rank p.1 < 3)
    (hk : Climbs rank low waits Q (k 0) held) :
    Climbs rank low waits Q (tfsDestroyAfterAllClosed.bind k) held := by
  unfold tfsDestroyAfterAllClosed
  simp only [bind_eq, pure_eq, Prog.bind_assoc]
  refine climbs_lock (fun p hp => (hheld p hp).2) ⟨hwaits, ⟨held, rfl, hheld⟩, fun _ => ?_⟩
  exact climbs_unlock hk

theorem service_climbs (c : Service) :
    Climbs rank 0 (c = .destroyAfterAllClosed) (fun held => held = [])
      (service c : Op S Ret) [] := by
  cases c with
  | call c => exact (exec_above c).climbs _ _ _ fun q hq => absurd hq List.not_mem_nil
  | destroyAfterAllClosed =>
      exact tfsDestroyAfterAllClosed_climbs rfl (fun q hq => absurd hq List.not_mem_nil) rfl

/-- Every step is allowed. -/
abbrev anyCall {C : Type} : C → Shared S → Shared S → Prop := fun _ => anyStep

/-- Whatever state the library is in and however the steps of the threads interleave: when no new
call is made, every call returns but `tfs_destroy_after_all_closed`, which may sleep. Otherwise a
step is undefined: a copy that leaves `fs_data`, or the name of an empty path. -/
theorem library_returns {T : Type} [DecidableEq T] [Fintype T] {s : Shared S}
    {cfg : Config T (Shared S) (Lock S) Cond Service Ret}
    (hreach : Reach service s (fun _ _ _ => True) cfg) :
    Inevitable (Continues service anyCall)
      (fun cfg => (∃ t, cfg.Fails anyCall t) ∨ ∀ t task, cfg.task t = some task →
        task.call = .destroyAfterAllClosed ∧ task.asleep = true) cfg := by
  have hclimbing : Climbing rank 0 (fun c => c = .destroyAfterAllClosed) cfg :=
    hreach.invariant EachTask.init fun cfg t cfg' h hstep _ => h.step service_climbs hstep
  have hend : Inevitable (Continues service anyCall) (fun cfg =>
      Climbing rank 0 (fun c => c = .destroyAfterAllClosed) cfg ∧
        ((∃ t, cfg.Fails anyCall t) ∨ ∀ t, cfg.Rests rank 0 t)) cfg := Orderly.inevitable
    (fun _ h => h.orderly) rank_lt_four (fun _ _ _ => trivial)
    (fun cfg cfg' h hstep => by
      obtain ⟨t, task, -, -, hstep, -⟩ := hstep
      exact h.step service_climbs hstep) hclimbing
  refine hend.mono fun cfg hcfg => ?_
  obtain ⟨hclimbing, hfails | hrests⟩ := hcfg
  · exact Or.inl hfails
  · refine Or.inr fun t task htask => ?_
    obtain hasleep | ⟨l, -, hlt, -⟩ := hrests t task htask
    · exact ⟨hclimbing.waits_of_asleep htask hasleep, hasleep⟩
    · exact absurd hlt (Nat.not_lt_zero _)

/-- Thread 0 opens a file while thread 1 waits for the global lock. -/
theorem library_returns_two :
    ∃ cfg : Config (Fin 2) (Shared Unit) (Lock Unit) Cond Service Ret,
      (.singleGlobalLock, .write) ∈ cfg.held 0 ∧ (cfg.task 1).isSome ∧
        Inevitable (Continues service anyCall)
          (fun cfg => (∃ t, cfg.Fails anyCall t) ∨ ∀ t task, cfg.task t = some task →
            task.call = .destroyAfterAllClosed ∧ task.asleep = true) cfg := by
  have hplay : ((Config.init (Shared.start initState)).play service (fun _ _ _ => True)
      ((0, some (.call (.open pathA tfsOCreat))) :: List.replicate 5 (0, none) ++
        [(1, some (.call (.lookup pathA)))])).map
      (fun cfg : Config (Fin 2) (Shared Unit) (Lock Unit) Cond Service Ret =>
        decide ((.singleGlobalLock, .write) ∈ cfg.held 0 ∧ (cfg.task 1).isSome)) =
      some true := by
    decide +kernel
  obtain ⟨cfg, hplay, hfacts⟩ := Option.map_eq_some_iff.mp hplay
  obtain ⟨hheld, hruns⟩ := of_decide_eq_true hfacts
  exact ⟨cfg, hheld, hruns, library_returns (Reach.init.play hplay)⟩

/-! ## The server -/

theorem threadHandler_climbs (call : S × Request) :
    Climbs rank 1 (call.2 = .shutdown) (fun held => held = []) (workerBody call) [] := by
  obtain ⟨i, request⟩ := call
  unfold workerBody threadHandler
  simp only [bind_eq, pure_eq]
  refine climbs_lock (fun q hq => absurd hq List.not_mem_nil) ?_
  refine climbs_lock (by simp [rank]) fun s => ?_
  simp only [ret_bind]
  split
  · exact climbs_unlock (climbs_unlock rfl)
  · refine fun _ => climbs_unlock ?_
    have hinner : ∀ {p : Op S Int}, Above rank 2 p → Climbs rank 1 (request = .shutdown)
        (fun held => held = []) (p.bind fun r => (unlock (Lock.session i)).bind fun _ => ret r)
        [(.session i, .write)] := by
      intro p hp
      refine (hp.climbs _ _ _ (by simp [rank])).bind ?_
      rintro r held rfl
      exact climbs_unlock rfl
    cases request with
    | «open» name flags => exact hinner (tfsOpen_above name flags)
    | close fhandle => exact hinner (tfsClose_above fhandle)
    | shutdown =>
        unfold serve caseShutdown
        simp only [bind_eq, Prog.bind_assoc]
        refine fun _ => tfsDestroyAfterAllClosed_climbs trivial (by simp [rank]) ?_
        refine climbs_lock (by simp [rank]) fun _ => ?_
        exact climbs_unlock trivial

/-- What the workers keep: the order of the mutexes, and what the mutexes guard. -/
structure Working {T : Type} [Fintype T]
    (cfg : Config T (Shared S) (Lock S) Cond (S × Request) Int) : Prop where
  climbing : Climbing rank 1 (fun call => call.2 = .shutdown) cfg
  sound : ∃ b g, Sound (closeDiscipline S True) (shutdownContract S T) cfg b g

section Workers

variable {T : Type} [DecidableEq T] [Fintype T]
  {cfg cfg' : Config T (Shared S) (Lock S) Cond (S × Request) Int} {t : T}

omit [DecidableEq T] in
theorem working_init :
    Working (Config.init (Shared.start machine.init) :
      Config T (Shared S) (Lock S) Cond (S × Request) Int) := by
  obtain ⟨hflag, hcount, hclosed⟩ := init_open
  exact ⟨EachTask.init, _, _, Sound.init (closeInv_start True hflag)
    (closeLock_start True hcount hclosed) trivial⟩

theorem Working.step (h : Working cfg) (hstep : Step workerBody cfg t cfg') : Working cfg' := by
  constructor
  · exact h.climbing.step threadHandler_climbs hstep
  · obtain ⟨b, g, hsound⟩ := h.sound
    exact hsound.step shutdown_meets hstep
      ⟨fun _ _ _ => trivial, fun _ _ => trivial, fun _ _ hl => absurd trivial hl⟩

omit [DecidableEq T] in
theorem Working.sleeps (h : Working cfg) {task : Task (Shared S) (Lock S) Cond (S × Request) Int}
    (htask : cfg.task t = some task) (hasleep : task.asleep = true) :
    cfg.Sleeps t .openFilesCond := by
  have hclimbs := h.climbing.tasks t task htask
  obtain ⟨c, p, k, asleep⟩ := task
  simp only at hasleep
  subst hasleep
  cases p with
  | await v l ready next => exact ⟨c, l, ready, next, k, htask⟩
  | _ => exact hclimbs.elim

omit [DecidableEq T] in
/-- Where all workers rest, a held mutex is the lock of a session whose worker sleeps. -/
theorem Working.holder (h : Working cfg) (hrests : ∀ t, cfg.Rests rank 1 t) {u : T} {l : Lock S}
    (hu : cfg.Holds u l) : cfg.Sleeps u .openFilesCond ∧ ∃ i, l = .session i := by
  obtain ⟨task, htask, hasleep, hlow⟩ | hlow := h.climbing.orderly.holder hrests hu
  · refine ⟨h.sleeps htask hasleep, ?_⟩
    cases l with
    | session i => exact ⟨i, rfl⟩
    | _ => simp [rank] at hlow
  · omega

omit [DecidableEq T] in
/-- Where all workers rest, one that is not done sleeps, or waits for the session of a sleeper. -/
theorem Working.rests (h : Working cfg) (hrests : ∀ t, cfg.Rests rank 1 t) (t : T) :
    cfg.task t = none ∨ cfg.Sleeps t .openFilesCond ∨
      ∃ i u, cfg.WaitsFor t (.session i) ∧ cfg.Holds u (.session i) ∧
        cfg.Sleeps u .openFilesCond := by
  cases htask : cfg.task t with
  | none => exact Or.inl rfl
  | some task =>
      right
      obtain hasleep | ⟨l, hwaits, -, u, hu⟩ := hrests t task htask
      · exact Or.inl (h.sleeps htask hasleep)
      · obtain ⟨hsleeps, i, rfl⟩ := h.holder hrests hu
        exact Or.inr ⟨i, u, hwaits, hu, hsleeps⟩

omit [DecidableEq T] in
/-- In the server, with the mutex free, nobody sleeps but while a file is open. -/
theorem Working.open_of_asleep (h : Working cfg) (hfree : cfg.Unwritten .openFilesMutex)
    (hasleep : cfg.Asleep .openFilesCond) : ∃ h, cfg.state.fs.freeOpenFileEntries h = .taken := by
  obtain ⟨b, g, hsound⟩ := h.sound
  obtain ⟨hcount, hawake⟩ := hsound.free _ hfree rfl
  by_contra hclosed
  push Not at hclosed
  have hzero : cfg.state.fs.openFilesCount = 0 := by
    have hnone : takenCount (cfg.world g).state.fs = 0 := takenCount_eq_zero.mpr hclosed
    unfold CountOff at hcount
    rw [hnone] at hcount
    exact hcount
  exact hawake trivial hzero hasleep

/-- Whatever the workers of the server are doing and however their steps interleave: when no new
request comes, every request to open or to close is served, and so is the shutdown, unless a file
stays open. Then its worker sleeps, and the others are done or wait for that worker's session.
The process ends before that if the shutdown exits or an open is undefined. -/
theorem requests_return
    (hreach : Reach workerBody (Shared.start machine.init) (fun _ _ _ => True) cfg) :
    Inevitable (Continues workerBody anyCall)
      (fun cfg => (∃ t, cfg.Fails anyCall t) ∨ (∀ t, cfg.task t = none) ∨
        (∃ h, cfg.state.fs.freeOpenFileEntries h = .taken) ∧
          ∃ d, cfg.Sleeps d .openFilesCond ∧ ∀ t, t ≠ d → cfg.task t = none ∨
            ∃ i, cfg.WaitsFor t (.session i) ∧ cfg.Holds d (.session i)) cfg := by
  have hworking : Working cfg :=
    hreach.invariant working_init fun _ _ _ h hstep _ => h.step hstep
  have hend : Inevitable (Continues workerBody anyCall) (fun cfg =>
      Working cfg ∧ ((∃ t, cfg.Fails anyCall t) ∨ ∀ t, cfg.Rests rank 1 t)) cfg :=
    Orderly.inevitable (fun _ h => h.climbing.orderly) rank_lt_four (fun _ _ _ => trivial)
    (fun _ _ h hstep => by
      obtain ⟨t, task, -, -, hstep, -⟩ := hstep
      exact h.step hstep) hworking
  refine hend.mono fun cfg hcfg => ?_
  obtain ⟨hworking, hfails | hrests⟩ := hcfg
  · exact Or.inl hfails
  · right
    by_cases hasleep : cfg.Asleep .openFilesCond
    · right
      have hfree : cfg.Unwritten .openFilesMutex := by
        intro u hu
        obtain ⟨-, i, hi⟩ := hworking.holder hrests ⟨_, hu⟩
        cases hi
      refine ⟨hworking.open_of_asleep hfree hasleep, ?_⟩
      obtain ⟨d, hd⟩ := hasleep
      obtain ⟨b, g, hsound⟩ := hworking.sound
      have hsingle : ∀ u, cfg.Sleeps u .openFilesCond → u = d :=
        fun u hu => hsound.one_sleeper shutdown_meets trivial hu hd
      refine ⟨d, hd, fun t ht => ?_⟩
      obtain hidle | hsleeps | ⟨i, u, hwaits, hu, hsleeps⟩ := hworking.rests hrests t
      · exact Or.inl hidle
      · exact absurd (hsingle t hsleeps) ht
      · rw [hsingle u hsleeps] at hu
        exact Or.inr ⟨i, hwaits, hu⟩
    · left
      intro t
      obtain hidle | hsleeps | ⟨-, u, -, -, hsleeps⟩ := hworking.rests hrests t
      · exact hidle
      · exact absurd ⟨t, hsleeps⟩ hasleep
      · exact absurd ⟨u, hsleeps⟩ hasleep

end Workers

/-- Worker 0 opens a file while worker 1 is asked to shut down. -/
theorem requests_return_two :
    ∃ cfg : Config (Fin 2) (Shared (Fin 2)) (Lock (Fin 2)) Cond (Fin 2 × Request) Int,
      cfg.state.shutdownCalled = true ∧ (cfg.task 0).isSome ∧
        Inevitable (Continues workerBody anyCall)
          (fun cfg => (∃ t, cfg.Fails anyCall t) ∨ (∀ t, cfg.task t = none) ∨
            (∃ h, cfg.state.fs.freeOpenFileEntries h = .taken) ∧
              ∃ d, cfg.Sleeps d .openFilesCond ∧ ∀ t, t ≠ d → cfg.task t = none ∨
                ∃ i, cfg.WaitsFor t (.session i) ∧ cfg.Holds d (.session i)) cfg := by
  have hplay : ((Config.init (Shared.start machine.init)).play workerBody (fun _ _ _ => True)
      (handles 0 (.open pathA tfsOCreat) 9 ++ handles 1 .shutdown 6)).map
      (fun cfg => decide (cfg.state.shutdownCalled = true ∧ (cfg.task 0).isSome)) =
      some true := by
    decide +kernel
  obtain ⟨cfg, hplay, hfacts⟩ := Option.map_eq_some_iff.mp hplay
  obtain ⟨hcalled, hruns⟩ := of_decide_eq_true hfacts
  exact ⟨cfg, hcalled, hruns, requests_return (Reach.init.play hplay)⟩

end TecnicoFS.Part2.Concurrent
