import TecnicoFS.Part1.LockOrder
import TecnicoFS.Part1.Release
import TecnicoFS.Part1.Wakeup

/-!
# Part 1: every call returns, but for a shutdown while a file is open

The locks of part 1 are taken in the order of `rank`, as `LockOrder.lean` shows for every run, and
every call gives back the locks it takes, as `Release.lean` shows for every program. So a thread
that is not in a call holds nothing that another one waits for, and the calls of any number of
threads come to an end whatever the order of their steps. A `tfs_destroy_after_all_closed` is left
only where `open_files_count` is not 0: the close that brings it to 0 wakes it.

Past its wait it destroys the locks, and the process exits where one of them is in use. That is
no step of the program here: the runs are those in which no other thread is in a call by then, and
none makes one afterwards.
-/

namespace TecnicoFS.Part1

open Threads Threads.Prog Threads.Discipline
open Part2 (Call Ret)

/-- The calls of a program that uses the library: its calls on files, and the last one. -/
inductive Service where
  | call (c : Call)
  | destroyAfterAllClosed
deriving DecidableEq

/-- The programs of the calls. -/
def service : Service → Op Ret
  | .call c => exec c
  | .destroyAfterAllClosed => do
      let r ← tfsDestroyAfterAllClosed
      pure ⟨r, []⟩

/-- Only the shutdown waits. -/
abbrev ShutsDown (c : Service) : Prop := c = .destroyAfterAllClosed

/-- Every call but a write of no bytes. -/
def Proper : Service → Prop
  | .call c => NonEmptyWrite c
  | .destroyAfterAllClosed => True

instance : DecidablePred Proper
  | .call _ => inferInstanceAs (Decidable (NonEmptyWrite _))
  | .destroyAfterAllClosed => isTrue trivial

/-- The steps of a write spare the root directory. -/
def SparesIfWrite (c : Service) (fs fs' : FS) : Prop :=
  match c with
  | .call c => WritesSpareRoot c fs fs'
  | .destroyAfterAllClosed => True

instance : ∀ c fs fs', Decidable (SparesIfWrite c fs fs')
  | .call _, _, _ => inferInstanceAs (Decidable (WritesSpareRoot _ _ _))
  | .destroyAfterAllClosed, _, _ => isTrue trivial

/-- A step of a write spares the root directory, and no step makes the counter negative, as two
closes of one handle at once can do. -/
def Sparing (c : Service) (fs fs' : FS) : Prop := SparesIfWrite c fs fs' ∧ 0 ≤ fs'.openFilesCount

instance (c : Service) (fs fs' : FS) : Decidable (Sparing c fs fs') :=
  inferInstanceAs (Decidable (_ ∧ _))

section Runs

variable {T : Type}

/-- A shutdown past its wait: it destroys the locks, or is about to return. -/
def PastWait (task : Task FS Lock Cond Service Ret) : Prop :=
  ShutsDown task.call ∧ match task.prog with
    | .release _ _ => True
    | .ret _ => True
    | _ => False

instance : DecidablePred PastWait := fun ⟨call, prog, _, _⟩ =>
  match prog with
  | .release _ _ => inferInstanceAs (Decidable (ShutsDown call ∧ True))
  | .ret _ => inferInstanceAs (Decidable (ShutsDown call ∧ True))
  | .acquire _ _ _ => inferInstanceAs (Decidable (ShutsDown call ∧ False))
  | .act _ _ => inferInstanceAs (Decidable (ShutsDown call ∧ False))
  | .signal _ _ => inferInstanceAs (Decidable (ShutsDown call ∧ False))
  | .await _ _ _ _ => inferInstanceAs (Decidable (ShutsDown call ∧ False))
  | .crash => inferInstanceAs (Decidable (ShutsDown call ∧ False))

/-- A shutdown destroys the locks while another thread is in a call. -/
def DestroysInUse (cfg : Config T FS Lock Cond Service Ret) : Prop :=
  ∃ d, ∃ task ∈ cfg.task d, PastWait task ∧ ∃ t, t ≠ d ∧ (cfg.task t).isSome

/-- No shutdown has destroyed the locks, or is about to. -/
def LocksThere (cfg : Config T FS Lock Cond Service Ret) : Prop :=
  (∀ d, ∀ task ∈ cfg.task d, ¬ PastWait task) ∧ ∀ done ∈ cfg.log, ¬ ShutsDown done.call

/-- There is one shutdown at a time. -/
def CallStep (cfg : Config T FS Lock Cond Service Ret) (t : T)
    (cfg' : Config T FS Lock Cond Service Ret) : Prop :=
  Starts Proper cfg t cfg' ∧ StartsAlone ShutsDown cfg t cfg' ∧
    ∀ task ∈ cfg.task t, Sparing task.call cfg.state cfg'.state

instance [Fintype T] : ∀ (cfg : Config T FS Lock Cond Service Ret) t cfg',
    Decidable (CallStep cfg t cfg') := fun cfg t cfg' =>
  inferInstanceAs (Decidable (Starts Proper cfg t cfg' ∧ StartsAlone ShutsDown cfg t cfg' ∧
    ∀ task ∈ cfg.task t, Sparing task.call cfg.state cfg'.state))

/-- A call begins as long as the locks are there, and nobody destroys them under a call. -/
def ServiceStep (cfg : Config T FS Lock Cond Service Ret) (t : T)
    (cfg' : Config T FS Lock Cond Service Ret) : Prop :=
  CallStep cfg t cfg' ∧ (cfg.task t = none → LocksThere cfg) ∧ ¬ DestroysInUse cfg'

instance [Fintype T] [DecidableEq T] : ∀ (cfg : Config T FS Lock Cond Service Ret) t cfg',
    Decidable (ServiceStep cfg t cfg') := fun cfg t cfg' =>
  inferInstanceAs (Decidable (CallStep cfg t cfg' ∧
    (cfg.task t = none → (∀ d, ∀ task ∈ cfg.task d, ¬ PastWait task) ∧
      ∀ done ∈ cfg.log, ¬ ShutsDown done.call) ∧
    ¬ ∃ d, ∃ task ∈ cfg'.task d, PastWait task ∧ ∃ t, t ≠ d ∧ (cfg'.task t).isSome))

/-- The calls only promise to keep the discipline. -/
def serviceContract (T : Type) : Contract T FS Lock Cond Service Ret Unit where
  allowed := Proper
  may := SparesIfWrite
  post _ _ _ _ := True
  weight _ _ := ()
  J _ _ := True

theorem service_meets : Meets (dirDiscipline False).waiting (serviceContract T) service where
  start := by
    intro c log w rest hproper hinv _ _
    cases c with
    | call c =>
        have hcall := order_meets.start (T := T) c [] w () hproper hinv trivial rfl
        exact hcall.waiting.mono fun _ _ _ _ _ hpost => ⟨hpost.1, rfl, trivial⟩
    | destroyAfterAllClosed =>
        unfold service tfsDestroyAfterAllClosed
        simp only [bind_eq, pure_eq, Prog.bind_assoc]
        refine wp_lock fun w₁ _ _ => ⟨below_nil, fun _ => ?_⟩
        refine wp_await fun w₂ _ _ => ⟨trivial, trivial, below_nil, fun w₃ hinv₃ _ => ⟨fun _ => ?_,
          fun _ => ⟨hinv₃, DirGuar.refl _ _ _, trivial⟩⟩⟩
        refine wp_unlock fun w₄ _ _ => ⟨fun _ => trivial, ?_⟩
        rw [dropLock_cons_self]
        exact wp_ret fun _ _ _ => ⟨rfl, rfl, trivial⟩
  done := fun _ _ _ _ => trivial
  J_guar := fun _ _ _ _ _ => trivial
  J_quieter := fun _ _ _ => trivial
  single := fun hsingle => hsingle.elim

/-- A call that begins signals what it will owe, and gives back its locks. -/
theorem service_signals {c : Service} (hproper : Proper c) (k : Nat) (fs : FS) :
    TaskSignals allClosed Counted ShutsDown []
        (⟨c, service c, k, false⟩ : Task FS Lock Cond Service Ret) ∧
      GivesBack [] fs (⟨c, service c, k, false⟩ : Task FS Lock Cond Service Ret) := by
  cases c with
  | call c =>
      refine ⟨(exec_tidy c).alone, exec_balanced ?_⟩
      rintro ⟨fhandle, entry, fs', n, hcall, -, -, -⟩
      rw [hcall] at hproper
      exact hproper rfl
  | destroyAfterAllClosed =>
      refine ⟨⟨rfl, rfl, rfl, rfl, rfl, rfl, fun _ => rfl, rfl⟩, ?_⟩
      intro fs' _ _
      refine ⟨⟨.write, List.mem_cons_self⟩, ?_⟩
      rw [dropLock_cons_self]
      rfl

variable [DecidableEq T] [Fintype T] {cfg cfg' : Config T FS Lock Cond Service Ret} {t : T}

/-- What the threads keep: the order of the locks, and that the one that waits will be woken. -/
structure Working (cfg : Config T FS Lock Cond Service Ret) : Prop where
  sound : ∃ b g, Sound (dirDiscipline False).waiting (serviceContract T) cfg b g
  waking : Waking allClosed Counted ShutsDown cfg
  lone : cfg.Lone ShutsDown
  counted : 0 ≤ cfg.state.openFilesCount

namespace Working

omit [DecidableEq T] in
theorem init : Working (Config.init machine.init : Config T FS Lock Cond Service Ret) where
  sound := ⟨_, _, Sound.init (dirInv_start (dirInv_init False)) (fun _ => trivial) trivial⟩
  waking := Waking.init
  lone := Config.Lone.init
  counted := by
    rw [machine_init]
    exact Int.le_refl 0

theorem step (h : Working cfg) (hstep : Step service cfg t cfg') (hok : CallStep cfg t cfg') :
    Working cfg' := by
  obtain ⟨hproper, halone, hsparing⟩ := hok
  constructor
  · obtain ⟨b, g, hsound⟩ := h.sound
    exact hsound.step service_meets hstep ⟨fun task hidle htask => hproper hidle task htask,
      fun task htask => (hsparing task htask).1, fun _ _ hshared => absurd trivial hshared⟩
  · exact h.waking.step h.lone hstep
      (fun task hidle htask => service_signals (hproper hidle task htask) _ _)
      fun task htask => ⟨h.counted, (hsparing task htask).2⟩
  · exact h.lone.step hstep halone
  · cases htask : cfg.task t with
    | some task => exact (hsparing task htask).2
    | none =>
        rw [hstep.state_of_idle htask]
        exact h.counted

omit [DecidableEq T] in
theorem orderly (h : Working cfg) : Orderly rank 0 cfg := by
  obtain ⟨b, g, hsound⟩ := h.sound
  exact h.waking.orderly fun t l hwaits => hsound.order hwaits

omit [DecidableEq T] in
/-- Where all threads rest, at most one is left: a shutdown that sleeps while the counter is
positive. -/
theorem rests (h : Working cfg) (hrests : ∀ t, cfg.Rests rank 0 t) :
    (∀ t, cfg.task t = none) ∨ 0 < cfg.state.openFilesCount ∧
      ∃ d, cfg.Sleeps d .openFilesCond ∧ ∀ t, t ≠ d → cfg.task t = none := by
  have hasleep : ∀ t task, cfg.task t = some task → task.asleep = true := by
    intro t task htask
    obtain hasleep | ⟨l, -, hlt, -⟩ := hrests t task htask
    · exact hasleep
    · exact absurd hlt (Nat.not_lt_zero _)
  have hshutdown : ∀ t task, cfg.task t = some task → ShutsDown task.call := fun t task htask =>
    ((h.waking.tasks.tasks t task htask).1.of_asleep (hasleep t task htask)).1
  by_cases hnone : ∀ t, cfg.task t = none
  · exact Or.inl hnone
  · right
    push Not at hnone
    obtain ⟨d, hd⟩ := hnone
    obtain ⟨task, htask⟩ := Option.ne_none_iff_exists'.mp hd
    have hsleeps : cfg.Sleeps d .openFilesCond := h.waking.sleeps htask (hasleep d task htask)
    refine ⟨?_, d, hsleeps, fun t ht => ?_⟩
    · -- nobody has the mutex, so the sleeper would have been woken
      have hfree : cfg.Unwritten .openFilesMutex := by
        intro u hu
        obtain ⟨-, -, -, hlt⟩ | hlt := h.orderly.holder hrests ⟨_, hu⟩
        · exact absurd hlt (Nat.not_lt_zero _)
        · exact absurd hlt (Nat.not_lt_zero _)
      have hcounted := h.counted
      have hne : cfg.state.openFilesCount ≠ 0 := fun hzero =>
        h.waking.awake hfree (decide_eq_true hzero) ⟨d, hsleeps⟩
      omega
    · by_contra hrun
      obtain ⟨task', htask'⟩ := Option.ne_none_iff_exists'.mp hrun
      exact ht (h.lone t d task' task htask' htask (hshutdown t task' htask')
        (hshutdown d task htask))

end Working

/-- Whatever the threads are doing in a run of lookups, opens, closes, reads, non-empty writes and
one shutdown at a time, and however their steps interleave: when no new call is made, every call
returns, but for a shutdown that sleeps while the counter of open files is positive. Otherwise a
step is undefined, a write comes to the root directory's block, the counter becomes negative, or
the shutdown destroys the locks while another thread is in a call. -/
theorem calls_return (hreach : Reach service machine.init ServiceStep cfg) :
    Inevitable (Continues service Sparing)
      (fun cfg => (∃ t, cfg.Fails Sparing t) ∨ DestroysInUse cfg ∨ (∀ t, cfg.task t = none) ∨
        0 < cfg.state.openFilesCount ∧
          ∃ d, cfg.Sleeps d .openFilesCond ∧ ∀ t, t ≠ d → cfg.task t = none) cfg := by
  have hworking : Working cfg :=
    hreach.invariant Working.init fun _ _ _ h hstep hok => h.step hstep hok.1
  have hspares : ∀ cfg : Config T FS Lock Cond Service Ret, Working cfg →
      ∀ c, Sparing c cfg.state cfg.state := by
    intro cfg h c
    refine ⟨?_, h.counted⟩
    cases c with
    | destroyAfterAllClosed => trivial
    | call c =>
        cases c with
        | write fhandle buffer => exact fun _ _ => rfl
        | _ => trivial
  have hend : Inevitable (Continues service Sparing) (fun cfg =>
      Working cfg ∧ ((∃ t, cfg.Fails Sparing t) ∨ ∀ t, cfg.Rests rank 0 t)) cfg :=
    Orderly.inevitable (fun _ h => Working.orderly h) rank_lt_seven hspares
    (fun cfg cfg' h hstep => by
      obtain ⟨t, task, htask, -, hstep, hsparing⟩ := hstep
      have hrunning : cfg.task t ≠ none := by simp [htask]
      refine h.step hstep ⟨fun hidle => absurd hidle hrunning, fun hidle => absurd hidle hrunning,
        fun task' htask' => ?_⟩
      rw [Option.mem_def, htask] at htask'
      cases htask'
      exact hsparing) hworking
  refine hend.mono fun cfg hcfg => ?_
  obtain ⟨hworking, hfails | hrests⟩ := hcfg
  · exact Or.inl hfails
  · exact Or.inr (Or.inr (hworking.rests hrests))

end Runs

/-- Thread 0 has opened a file and closes it, while thread 1 comes to its wait in the shutdown. -/
theorem calls_return_two :
    ∃ cfg : Config (Fin 2) FS Lock Cond Service Ret, (.openFile 0, .read) ∈ cfg.held 0 ∧
      (.openFilesMutex, .write) ∈ cfg.held 1 ∧ cfg.state.openFilesCount = 1 ∧
      Inevitable (Continues service Sparing)
        (fun cfg => (∃ t, cfg.Fails Sparing t) ∨ DestroysInUse cfg ∨ (∀ t, cfg.task t = none) ∨
          0 < cfg.state.openFilesCount ∧
            ∃ d, cfg.Sleeps d .openFilesCond ∧ ∀ t, t ≠ d → cfg.task t = none) cfg := by
  have hplay : ((Config.init initialFS).play service ServiceStep
      ((0, some (.call (.open pathA 1))) :: List.replicate 104 (0, none) ++
        [(1, some .destroyAfterAllClosed), (1, none), (0, some (.call (.close 0))),
          (0, none)])).map
      (fun cfg : Config (Fin 2) FS Lock Cond Service Ret =>
        decide ((.openFile 0, .read) ∈ cfg.held 0 ∧ (.openFilesMutex, .write) ∈ cfg.held 1 ∧
          cfg.state.openFilesCount = 1)) = some true := by
    decide +kernel
  obtain ⟨cfg, hplay, hfacts⟩ := Option.map_eq_some_iff.mp hplay
  obtain ⟨hheld, hmutex, hcount⟩ := of_decide_eq_true hfacts
  refine ⟨cfg, hheld, hmutex, hcount, calls_return ?_⟩
  rw [machine_init]
  exact Reach.init.play hplay

end TecnicoFS.Part1
