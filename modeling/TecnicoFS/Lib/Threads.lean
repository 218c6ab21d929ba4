import Mathlib.Data.List.Basic
import Mathlib.Logic.Function.Basic
import Mathlib.Logic.Relation

/-!
# Threads over a shared state

A program is a tree of atomic steps: it takes and releases locks, acts on the shared state,
and signals or waits on condition variables. Any number of threads make calls, one after
the other; each call runs a program, and the steps of all threads interleave in any order.

A lock is held to read by any number of threads or to write by one; a mutex is a lock that
is only taken to write. A thread that takes a lock it already holds waits for itself. An
effect that is undefined (`none`) is never taken, so the thread stays there for good.

`Prog.eval` runs a program alone, with nobody else about.
-/

namespace TecnicoFS.Threads

/-- How a lock is taken. -/
inductive Mode where
  | read
  | write
deriving DecidableEq

/-- Programs over states `σ`, locks `L` and condition variables `V`. -/
inductive Prog (σ L V α : Type) where
  | ret (value : α)
  | acquire (lock : L) (mode : Mode) (next : Prog σ L V α)
  | release (lock : L) (next : Prog σ L V α)
  /-- One atomic step on the state; `next` sees the state the step found. -/
  | act (effect : σ → Option σ) (next : σ → Prog σ L V α)
  | signal (cond : V) (next : Prog σ L V α)
  /-- `while (!ready) pthread_cond_wait(cond, lock)`, with the lock held. -/
  | await (cond : V) (lock : L) (ready : σ → Bool) (next : Prog σ L V α)
  | crash

namespace Prog

variable {σ L V α β γ : Type}

/-- Sequencing. -/
def bind : Prog σ L V α → (α → Prog σ L V β) → Prog σ L V β
  | ret a, k => k a
  | acquire l m next, k => acquire l m (bind next k)
  | release l next, k => release l (bind next k)
  | act e next, k => act e fun s => bind (next s) k
  | signal v next, k => signal v (bind next k)
  | await v l ready next, k => await v l ready (bind next k)
  | crash, _ => crash

instance : Monad (Prog σ L V) where
  pure := ret
  bind := bind

@[simp] theorem pure_eq (a : α) : (pure a : Prog σ L V α) = ret a := rfl

@[simp] theorem bind_eq (p : Prog σ L V α) (k : α → Prog σ L V β) : p >>= k = p.bind k := rfl

@[simp] theorem ret_bind (a : α) (k : α → Prog σ L V β) : (ret a).bind k = k a := rfl

@[simp] theorem acquire_bind (l : L) (m : Mode) (next : Prog σ L V α) (k : α → Prog σ L V β) :
    (acquire l m next).bind k = acquire l m (next.bind k) := rfl

@[simp] theorem release_bind (l : L) (next : Prog σ L V α) (k : α → Prog σ L V β) :
    (release l next).bind k = release l (next.bind k) := rfl

@[simp] theorem act_bind (e : σ → Option σ) (next : σ → Prog σ L V α) (k : α → Prog σ L V β) :
    (act e next).bind k = act e fun s => (next s).bind k := rfl

@[simp] theorem signal_bind (v : V) (next : Prog σ L V α) (k : α → Prog σ L V β) :
    (signal v next).bind k = signal v (next.bind k) := rfl

@[simp] theorem await_bind (v : V) (l : L) (ready : σ → Bool) (next : Prog σ L V α)
    (k : α → Prog σ L V β) : (await v l ready next).bind k = await v l ready (next.bind k) := rfl

@[simp] theorem crash_bind (k : α → Prog σ L V β) : (crash : Prog σ L V α).bind k = crash := rfl

theorem bind_assoc (p : Prog σ L V α) (k : α → Prog σ L V β) (k' : β → Prog σ L V γ) :
    (p.bind k).bind k' = p.bind fun a => (k a).bind k' := by
  induction p with
  | ret a => rfl
  | acquire l m next ih => exact congrArg (acquire l m) ih
  | release l next ih => exact congrArg (release l) ih
  | act e next ih => exact congrArg (act e) (funext ih)
  | signal v next ih => exact congrArg (signal v) ih
  | await v l ready next ih => exact congrArg (await v l ready) ih
  | crash => rfl

theorem bind_ret (p : Prog σ L V α) : p.bind ret = p := by
  induction p with
  | ret a => rfl
  | acquire l m next ih => exact congrArg (acquire l m) ih
  | release l next ih => exact congrArg (release l) ih
  | act e next ih => exact congrArg (act e) (funext ih)
  | signal v next ih => exact congrArg (signal v) ih
  | await v l ready next ih => exact congrArg (await v l ready) ih
  | crash => rfl

/-! ## Statements -/

/-- `pthread_rwlock_rdlock`. -/
def readLock (l : L) : Prog σ L V Unit := acquire l .read (ret ())

/-- `pthread_rwlock_wrlock` and `pthread_mutex_lock`. -/
def lock (l : L) : Prog σ L V Unit := acquire l .write (ret ())

/-- `pthread_rwlock_unlock` and `pthread_mutex_unlock`. -/
def unlock (l : L) : Prog σ L V Unit := release l (ret ())

/-- Reads the state. -/
def read (f : σ → α) : Prog σ L V α := act some fun s => ret (f s)

/-- Changes the state. -/
def modify (f : σ → σ) : Prog σ L V Unit := act (fun s => some (f s)) fun _ => ret ()

/-- Changes the state, unless that is undefined. -/
def modify? (f : σ → Option σ) : Prog σ L V Unit := act f fun _ => ret ()

/-- `pthread_cond_signal`. -/
def wakeOne (v : V) : Prog σ L V Unit := signal v (ret ())

/-! ## One thread alone -/

/-- The program run alone: its value and the state it leaves. -/
def eval : Prog σ L V α → σ → Option (α × σ)
  | ret a, s => some (a, s)
  | acquire _ _ next, s => eval next s
  | release _ next, s => eval next s
  | act e next, s =>
      match e s with
      | none => none
      | some s' => eval (next s) s'
  | signal _ next, s => eval next s
  | await _ _ ready next, s => if ready s then eval next s else none
  | crash, _ => none

@[simp] theorem eval_ret (a : α) (s : σ) : eval (ret a : Prog σ L V α) s = some (a, s) := rfl

@[simp] theorem eval_acquire (l : L) (m : Mode) (next : Prog σ L V α) (s : σ) :
    eval (acquire l m next) s = eval next s := rfl

@[simp] theorem eval_release (l : L) (next : Prog σ L V α) (s : σ) :
    eval (release l next) s = eval next s := rfl

@[simp] theorem eval_signal (v : V) (next : Prog σ L V α) (s : σ) :
    eval (signal v next) s = eval next s := rfl

@[simp] theorem eval_crash (s : σ) : eval (crash : Prog σ L V α) s = none := rfl

theorem eval_act_of_some {e : σ → Option σ} {next : σ → Prog σ L V α} {s s' : σ}
    (h : e s = some s') : eval (act e next) s = eval (next s) s' := by
  simp only [eval, h]

theorem eval_act_of_none {e : σ → Option σ} {next : σ → Prog σ L V α} {s : σ}
    (h : e s = none) : eval (act e next) s = none := by
  simp only [eval, h]

theorem eval_bind (p : Prog σ L V α) (k : α → Prog σ L V β) (s : σ) :
    eval (p.bind k) s = (eval p s).bind fun r => eval (k r.1) r.2 := by
  induction p generalizing s with
  | ret a => rfl
  | acquire l m next ih => exact ih s
  | release l next ih => exact ih s
  | act e next ih =>
      cases he : e s with
      | none => rw [act_bind, eval_act_of_none he, eval_act_of_none he, Option.bind_none]
      | some s' => rw [act_bind, eval_act_of_some he, eval_act_of_some he, ih]
  | signal v next ih => exact ih s
  | await v l ready next ih =>
      rw [await_bind, eval, eval, ih]
      split
      · rfl
      · rfl
  | crash => rfl

@[simp] theorem eval_readLock (l : L) (k : Unit → Prog σ L V α) (s : σ) :
    eval ((readLock l).bind k) s = eval (k ()) s := rfl

@[simp] theorem eval_lock (l : L) (k : Unit → Prog σ L V α) (s : σ) :
    eval ((lock l).bind k) s = eval (k ()) s := rfl

@[simp] theorem eval_unlock (l : L) (k : Unit → Prog σ L V α) (s : σ) :
    eval ((unlock l).bind k) s = eval (k ()) s := rfl

@[simp] theorem eval_read (f : σ → β) (k : β → Prog σ L V α) (s : σ) :
    eval ((read f).bind k) s = eval (k (f s)) s := rfl

@[simp] theorem eval_modify (f : σ → σ) (k : Unit → Prog σ L V α) (s : σ) :
    eval ((modify f).bind k) s = eval (k ()) (f s) := rfl

@[simp] theorem eval_wakeOne (v : V) (k : Unit → Prog σ L V α) (s : σ) :
    eval ((wakeOne v).bind k) s = eval (k ()) s := rfl

end Prog

/-! ## Many threads -/

section

variable {T σ L V C R : Type}

/-- A call that is running: what is left of its program, and how many calls had returned
when it started. A call is asleep inside `pthread_cond_wait` until it is woken. -/
structure Task (σ L V C R : Type) where
  call : C
  prog : Prog σ L V R
  start : Nat
  asleep : Bool

/-- A call that has returned. -/
structure Done (T C R : Type) where
  thread : T
  call : C
  result : R
  start : Nat
deriving DecidableEq

/-- The shared state, the locks each thread holds, the calls that run and those that have
returned. -/
structure Config (T σ L V C R : Type) where
  state : σ
  held : T → List (L × Mode)
  task : T → Option (Task σ L V C R)
  log : List (Done T C R)

namespace Config

/-- Nobody holds a lock and nobody runs. -/
def init (s : σ) : Config T σ L V C R := ⟨s, fun _ => [], fun _ => none, []⟩

/-- A thread can be given the lock in this mode. -/
def Grants (cfg : Config T σ L V C R) (l : L) (m : Mode) : Prop :=
  ∀ u m', (l, m') ∈ cfg.held u → m = .read ∧ m' = .read

/-- Nobody holds the lock to write. -/
def Unwritten (cfg : Config T σ L V C R) (l : L) : Prop := ∀ u, (l, .write) ∉ cfg.held u

/-- The thread sleeps on the condition variable. -/
def Sleeps (cfg : Config T σ L V C R) (t : T) (v : V) : Prop :=
  ∃ c l ready next k, cfg.task t = some ⟨c, .await v l ready next, k, true⟩

/-- Some thread sleeps on the condition variable. -/
def Asleep (cfg : Config T σ L V C R) (v : V) : Prop := ∃ t, cfg.Sleeps t v

variable [DecidableEq T]

/-- The thread goes on with a task. -/
def put (cfg : Config T σ L V C R) (t : T) (task : Task σ L V C R) : Config T σ L V C R :=
  { cfg with task := Function.update cfg.task t (some task) }

/-- The thread holds these locks. -/
def setHeld (cfg : Config T σ L V C R) (t : T) (held : List (L × Mode)) :
    Config T σ L V C R :=
  { cfg with held := Function.update cfg.held t held }

/-- The state has changed. -/
def setState (cfg : Config T σ L V C R) (s : σ) : Config T σ L V C R := { cfg with state := s }

/-- The call of the thread returns. -/
def finish (cfg : Config T σ L V C R) (t : T) (c : C) (k : Nat) (result : R) :
    Config T σ L V C R :=
  { cfg with
    task := Function.update cfg.task t none
    log := cfg.log ++ [⟨t, c, result, k⟩] }

variable {cfg : Config T σ L V C R} {t u : T} {task : Task σ L V C R}
  {held : List (L × Mode)} {c : C} {k : Nat} {r : R}

@[simp] theorem put_state : (cfg.put t task).state = cfg.state := rfl
@[simp] theorem put_held : (cfg.put t task).held = cfg.held := rfl
@[simp] theorem put_log : (cfg.put t task).log = cfg.log := rfl
@[simp] theorem put_task_self : (cfg.put t task).task t = some task := Function.update_self ..

@[simp] theorem put_task_of_ne (h : u ≠ t) : (cfg.put t task).task u = cfg.task u :=
  Function.update_of_ne h ..

@[simp] theorem setHeld_state : (cfg.setHeld t held).state = cfg.state := rfl
@[simp] theorem setHeld_task : (cfg.setHeld t held).task = cfg.task := rfl
@[simp] theorem setHeld_log : (cfg.setHeld t held).log = cfg.log := rfl
@[simp] theorem setHeld_held_self : (cfg.setHeld t held).held t = held :=
  Function.update_self ..

@[simp] theorem setHeld_held_of_ne (h : u ≠ t) : (cfg.setHeld t held).held u = cfg.held u :=
  Function.update_of_ne h ..

omit [DecidableEq T] in
@[simp] theorem setState_state {s : σ} : (cfg.setState s).state = s := rfl
omit [DecidableEq T] in
@[simp] theorem setState_held {s : σ} : (cfg.setState s).held = cfg.held := rfl
omit [DecidableEq T] in
@[simp] theorem setState_task {s : σ} : (cfg.setState s).task = cfg.task := rfl
omit [DecidableEq T] in
@[simp] theorem setState_log {s : σ} : (cfg.setState s).log = cfg.log := rfl

@[simp] theorem finish_state : (cfg.finish t c k r).state = cfg.state := rfl
@[simp] theorem finish_held : (cfg.finish t c k r).held = cfg.held := rfl
@[simp] theorem finish_log : (cfg.finish t c k r).log = cfg.log ++ [⟨t, c, r, k⟩] := rfl
@[simp] theorem finish_task_self : (cfg.finish t c k r).task t = none :=
  Function.update_self ..

@[simp] theorem finish_task_of_ne (h : u ≠ t) : (cfg.finish t c k r).task u = cfg.task u :=
  Function.update_of_ne h ..

end Config

/-- The locks that are left when one is released. -/
def dropLock [DecidableEq L] (l : L) (held : List (L × Mode)) : List (L × Mode) :=
  held.eraseP fun p => p.1 = l

theorem mem_of_mem_dropLock [DecidableEq L] {l : L} {held : List (L × Mode)} {p : L × Mode}
    (h : p ∈ dropLock l held) : p ∈ held := List.mem_of_mem_eraseP h

theorem mem_dropLock_of_ne [DecidableEq L] {l : L} {held : List (L × Mode)} {p : L × Mode}
    (h : p ∈ held) (hne : p.1 ≠ l) : p ∈ dropLock l held :=
  (List.mem_eraseP_of_neg (by simpa using hne)).mpr h

@[simp] theorem dropLock_cons_self [DecidableEq L] (l : L) (m : Mode) (held : List (L × Mode)) :
    dropLock l ((l, m) :: held) = held := by
  simp [dropLock]

theorem dropLock_cons_of_ne [DecidableEq L] {l l' : L} (h : l' ≠ l) (m : Mode)
    (held : List (L × Mode)) : dropLock l ((l', m) :: held) = (l', m) :: dropLock l held := by
  simp [dropLock, h]

variable [DecidableEq T] [DecidableEq L]

/-- One step of one thread. -/
inductive Step (body : C → Prog σ L V R) :
    Config T σ L V C R → T → Config T σ L V C R → Prop
  | call {cfg : Config T σ L V C R} {t : T} {c : C} (hidle : cfg.task t = none) :
      Step body cfg t (cfg.put t ⟨c, body c, cfg.log.length, false⟩)
  | finish {cfg : Config T σ L V C R} {t : T} {c : C} {k : Nat} {r : R}
      (htask : cfg.task t = some ⟨c, .ret r, k, false⟩) :
      Step body cfg t (cfg.finish t c k r)
  | acquire {cfg : Config T σ L V C R} {t : T} {c : C} {k : Nat} {l : L} {m : Mode}
      {next : Prog σ L V R} (htask : cfg.task t = some ⟨c, .acquire l m next, k, false⟩)
      (hfree : cfg.Grants l m) :
      Step body cfg t ((cfg.put t ⟨c, next, k, false⟩).setHeld t ((l, m) :: cfg.held t))
  | release {cfg : Config T σ L V C R} {t : T} {c : C} {k : Nat} {l : L} {m : Mode}
      {next : Prog σ L V R} (htask : cfg.task t = some ⟨c, .release l next, k, false⟩)
      (hheld : (l, m) ∈ cfg.held t) :
      Step body cfg t ((cfg.put t ⟨c, next, k, false⟩).setHeld t (dropLock l (cfg.held t)))
  | act {cfg : Config T σ L V C R} {t : T} {c : C} {k : Nat} {e : σ → Option σ}
      {next : σ → Prog σ L V R} {s' : σ}
      (htask : cfg.task t = some ⟨c, .act e next, k, false⟩) (heff : e cfg.state = some s') :
      Step body cfg t ((cfg.put t ⟨c, next cfg.state, k, false⟩).setState s')
  /-- A signal that finds nobody asleep is lost. -/
  | signalNone {cfg : Config T σ L V C R} {t : T} {c : C} {k : Nat} {v : V}
      {next : Prog σ L V R} (htask : cfg.task t = some ⟨c, .signal v next, k, false⟩)
      (hnone : ¬ cfg.Asleep v) :
      Step body cfg t (cfg.put t ⟨c, next, k, false⟩)
  /-- A signal wakes a thread, which then has to get the lock again. -/
  | signalOne {cfg : Config T σ L V C R} {t u : T} {c c' : C} {k k' : Nat} {v : V} {l : L}
      {ready : σ → Bool} {next next' : Prog σ L V R}
      (htask : cfg.task t = some ⟨c, .signal v next, k, false⟩)
      (hsleeps : cfg.task u = some ⟨c', .await v l ready next', k', true⟩) :
      Step body cfg t ((cfg.put t ⟨c, next, k, false⟩).put u
        ⟨c', .acquire l .write (.await v l ready next'), k', false⟩)
  | pass {cfg : Config T σ L V C R} {t : T} {c : C} {k : Nat} {v : V} {l : L}
      {ready : σ → Bool} {next : Prog σ L V R}
      (htask : cfg.task t = some ⟨c, .await v l ready next, k, false⟩)
      (hready : ready cfg.state = true) :
      Step body cfg t (cfg.put t ⟨c, next, k, false⟩)
  | sleep {cfg : Config T σ L V C R} {t : T} {c : C} {k : Nat} {v : V} {l : L}
      {ready : σ → Bool} {next : Prog σ L V R}
      (htask : cfg.task t = some ⟨c, .await v l ready next, k, false⟩)
      (hready : ready cfg.state = false) (hheld : (l, .write) ∈ cfg.held t) :
      Step body cfg t ((cfg.put t ⟨c, .await v l ready next, k, true⟩).setHeld t
        (dropLock l (cfg.held t)))
  /-- A thread may wake up without a signal. -/
  | wake {cfg : Config T σ L V C R} {t : T} {c : C} {k : Nat} {v : V} {l : L}
      {ready : σ → Bool} {next : Prog σ L V R}
      (htask : cfg.task t = some ⟨c, .await v l ready next, k, true⟩) :
      Step body cfg t
        (cfg.put t ⟨c, .acquire l .write (.await v l ready next), k, false⟩)

/-- The runs from a state, with every step inside a condition. -/
inductive Reach (body : C → Prog σ L V R) (s : σ)
    (ok : Config T σ L V C R → T → Config T σ L V C R → Prop) : Config T σ L V C R → Prop
  | init : Reach body s ok (Config.init s)
  | step {cfg cfg' : Config T σ L V C R} {t : T} :
      Reach body s ok cfg → Step body cfg t cfg' → ok cfg t cfg' → Reach body s ok cfg'

/-- If the step is the start of a call, it is one of these calls. -/
def Starts (allowed : C → Prop) (cfg : Config T σ L V C R) (t : T) (cfg' : Config T σ L V C R) :
    Prop :=
  cfg.task t = none → ∀ task ∈ cfg'.task t, allowed task.call

instance (allowed : C → Prop) [DecidablePred allowed] :
    ∀ (cfg : Config T σ L V C R) (t : T) (cfg' : Config T σ L V C R),
      Decidable (Starts allowed cfg t cfg') := fun cfg t cfg' =>
  inferInstanceAs (Decidable (cfg.task t = none → ∀ task ∈ cfg'.task t, allowed task.call))

/-- A configuration property that holds at the start and is kept by every step holds in
every run. -/
theorem Reach.invariant {body : C → Prog σ L V R} {s : σ}
    {ok : Config T σ L V C R → T → Config T σ L V C R → Prop}
    {P : Config T σ L V C R → Prop} {cfg : Config T σ L V C R} (h : Reach body s ok cfg)
    (hinit : P (Config.init s))
    (hstep : ∀ cfg t cfg', P cfg → Step body cfg t cfg' → ok cfg t cfg' → P cfg') :
    P cfg := by
  induction h with
  | init => exact hinit
  | step _ hs hok ih => exact hstep _ _ _ ih hs hok

/-- What holds in every run may be used at each of its steps. -/
theorem Reach.strengthen {body : C → Prog σ L V R} {s : σ}
    {ok : Config T σ L V C R → T → Config T σ L V C R → Prop}
    {P : Config T σ L V C R → Prop} {cfg : Config T σ L V C R} (h : Reach body s ok cfg)
    (hinit : P (Config.init s))
    (hstep : ∀ cfg t cfg', P cfg → Step body cfg t cfg' → ok cfg t cfg' → P cfg') :
    Reach body s (fun cfg t cfg' => P cfg ∧ Step body cfg t cfg' ∧ ok cfg t cfg') cfg := by
  induction h with
  | init => exact Reach.init
  | step hreach hs hok ih => exact ih.step hs ⟨hreach.invariant hinit hstep, hs, hok⟩

theorem Reach.mono {body : C → Prog σ L V R} {s : σ}
    {ok ok' : Config T σ L V C R → T → Config T σ L V C R → Prop} {cfg : Config T σ L V C R}
    (h : Reach body s ok cfg) (hmono : ∀ cfg t cfg', ok cfg t cfg' → ok' cfg t cfg') :
    Reach body s ok' cfg := by
  induction h with
  | init => exact Reach.init
  | step _ hs hok ih => exact ih.step hs (hmono _ _ _ hok)

end

end TecnicoFS.Threads
