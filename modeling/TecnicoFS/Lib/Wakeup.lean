import TecnicoFS.Lib.Balance
import TecnicoFS.Lib.Progress

/-!
# No wakeup is lost

Threads wait on a condition variable for a condition on the state. A program that makes the
condition true does so with the lock of the wait, and signals before it lets go of that lock
(`Signals`). So while somebody sleeps and the condition holds, a thread that has the lock is on its
way to the signal (`Owes`), as long as at most one thread waits at a time: a signal wakes one.
-/

namespace TecnicoFS.Threads

variable {T σ L V C R α β : Type}

/-- What is waited for: the condition variable, the lock that goes with it, and the condition. -/
structure Condition (σ L V : Type) where
  var : V
  lock : L
  holds : σ → Bool

/-! ## Programs that signal -/

namespace Prog

variable [DecidableEq L] [DecidableEq V]

/-- On every path of steps that are allowed, the program makes the condition true only with the
lock, and then signals before it lets go of the lock; `owes` says that it has yet to. It waits only
if it may, with no other lock. -/
def Signals (w : Condition σ L V) (may : σ → σ → Prop) (waits : Prop) :
    Prog σ L V α → List (L × Mode) → Bool → Prop
  | .ret _, _, owes => owes = false
  | .acquire l m next, held, owes => Signals w may waits next ((l, m) :: held) owes
  | .release l next, held, owes =>
      (l = w.lock → owes = false) ∧ Signals w may waits next (dropLock l held) owes
  | .act e next, held, owes => ∀ s s', e s = some s' → may s s' →
      (w.holds s' = true → w.holds s = false → (w.lock, .write) ∈ held) ∧
        Signals w may waits (next s) held (w.holds s' && (owes || !w.holds s))
  | .signal v next, held, owes => Signals w may waits next held (owes && decide (v ≠ w.var))
  | .await v l ready next, held, owes =>
      waits ∧ v = w.var ∧ l = w.lock ∧ ready = w.holds ∧ held = [(w.lock, .write)] ∧
        owes = false ∧ Signals w may waits next held false
  | .crash, _, _ => True

variable {w : Condition σ L V} {may : σ → σ → Prop} {waits : Prop} {p : Prog σ L V α}
  {held : List (L × Mode)} {owes : Bool}

/-- One who pays a debt pays also where there is none. -/
theorem Signals.paid (h : Signals w may waits p held true) : Signals w may waits p held false := by
  induction p generalizing held with
  | ret a => rfl
  | acquire l m next ih => exact ih h
  | release l next ih => exact ⟨fun _ => rfl, ih h.2⟩
  | act e next ih =>
      intro s s' heff hmay
      obtain ⟨hlock, hnext⟩ := h s s' heff hmay
      refine ⟨hlock, ?_⟩
      cases hs' : w.holds s' with
      | false => simpa [hs'] using hnext
      | true =>
          cases hs : w.holds s with
          | false => simpa [hs, hs'] using hnext
          | true =>
              rw [hs, hs'] at hnext
              exact ih s hnext
  | signal v next ih =>
      rw [Signals, Bool.false_and]
      rw [Signals, Bool.true_and] at h
      cases hv : decide (v ≠ w.var) with
      | false => rwa [hv] at h
      | true =>
          rw [hv] at h
          exact ih h
  | await v l ready next ih => cases h.2.2.2.2.2.1
  | crash => trivial

/-! ### Programs that leave nothing to signal -/

/-- The program does not wait, and at its end it has signalled what it owes: what follows it begins
without debts. -/
structure Settles (w : Condition σ L V) (may : σ → σ → Prop) (p : Prog σ L V α) : Prop where
  signals : ∀ (waits : Prop) {β : Type} (k : α → Prog σ L V β) (held : List (L × Mode)),
    (∀ a held', Signals w may waits (k a) held' false) → Signals w may waits (p.bind k) held false

theorem Settles.bind {k : α → Prog σ L V β} (hp : Settles w may p)
    (hk : ∀ a, Settles w may (k a)) : Settles w may (p.bind k) := by
  constructor
  intro waits γ k' held hnext
  rw [Prog.bind_assoc]
  exact hp.signals waits _ held fun a held' => (hk a).signals waits k' held' hnext

/-- On its own, too, the program signals what it owes. -/
theorem Settles.alone (hp : Settles w may p) : Signals w may waits p held false := by
  rw [← Prog.bind_ret p]
  exact hp.signals waits ret held fun _ _ => rfl

theorem settles_ret (a : α) : Settles w may (ret a : Prog σ L V α) :=
  ⟨fun _ _ _ held h => h a held⟩

theorem settles_crash : Settles w may (crash : Prog σ L V α) := ⟨fun _ _ _ _ _ => trivial⟩

theorem settles_lock (l : L) : Settles w may (lock l : Prog σ L V Unit) :=
  ⟨fun _ _ _ _ h => h () _⟩

theorem settles_readLock (l : L) : Settles w may (readLock l : Prog σ L V Unit) :=
  ⟨fun _ _ _ _ h => h () _⟩

theorem settles_unlock (l : L) : Settles w may (unlock l : Prog σ L V Unit) :=
  ⟨fun _ _ _ _ h => ⟨fun _ => rfl, h () _⟩⟩

/-- A step that does not make the condition true leaves nothing to signal. -/
theorem signals_act {e : σ → Option σ} {next : σ → Prog σ L V α}
    (hkeeps : ∀ s s', e s = some s' → may s s' → w.holds s' = true → w.holds s = true)
    (hnext : ∀ s, Signals w may waits (next s) held false) :
    Signals w may waits (.act e next) held false := by
  intro s s' heff hmay
  cases hs' : w.holds s' with
  | false => exact ⟨fun h => (by cases h), hnext s⟩
  | true =>
      rw [hkeeps s s' heff hmay hs']
      exact ⟨fun _ h => (by cases h), hnext s⟩

theorem settles_read (f : σ → α) : Settles w may (Prog.read f : Prog σ L V α) := by
  constructor
  intro waits β k held h
  refine signals_act (fun s s' heff _ hs => ?_) fun s => h (f s) held
  cases heff
  exact hs

theorem settles_modify {f : σ → σ}
    (hf : ∀ s, may s (f s) → w.holds (f s) = true → w.holds s = true) :
    Settles w may (Prog.modify f : Prog σ L V Unit) := by
  constructor
  intro waits β k held h
  refine signals_act (fun s s' heff hmay hs => ?_) fun _ => h () held
  cases heff
  exact hf s hmay hs

theorem settles_modify? {f : σ → Option σ}
    (hf : ∀ s s', f s = some s' → w.holds s' = true → w.holds s = true) :
    Settles w may (Prog.modify? f : Prog σ L V Unit) := by
  constructor
  intro waits β k held h
  exact signals_act (fun s s' heff _ hs => hf s s' heff hs) fun _ => h () held

end Prog

/-! ## One call that waits -/

/-- Of the calls that may wait, one runs at a time. -/
def Config.Lone (waits : C → Prop) (cfg : Config T σ L V C R) : Prop :=
  ∀ t u task task', cfg.task t = some task → cfg.task u = some task' →
    waits task.call → waits task'.call → t = u

theorem Config.Lone.init {waits : C → Prop} {s : σ} :
    (Config.init s : Config T σ L V C R).Lone waits := by
  intro t u task task' htask
  cases htask

/-- A call that runs after a step ran before it, unless it has just begun. -/
theorem Step.runs [DecidableEq T] [DecidableEq L] {body : C → Prog σ L V R}
    {cfg cfg' : Config T σ L V C R} {t u : T} (hstep : Step body cfg t cfg')
    {task' : Task σ L V C R} (htask' : cfg'.task u = some task') :
    (u = t ∧ cfg.task t = none) ∨ ∃ task, cfg.task u = some task ∧ task.call = task'.call := by
  have hput : ∀ {c p k task₀}, cfg.task t = some ⟨c, p, k, task₀⟩ → ∀ {q asleep},
      (cfg.put t ⟨c, q, k, asleep⟩).task u = some task' →
      ∃ task, cfg.task u = some task ∧ task.call = task'.call := by
    intro c p k asleep₀ htask q asleep hnow
    by_cases hut : u = t
    · subst hut
      rw [Config.put_task_self] at hnow
      cases hnow
      exact ⟨_, htask, rfl⟩
    · rw [Config.put_task_of_ne hut] at hnow
      exact ⟨task', hnow, rfl⟩
  cases hstep with
  | call hidle =>
      by_cases hut : u = t
      · exact Or.inl ⟨hut, hidle⟩
      · rw [Config.put_task_of_ne hut] at htask'
        exact Or.inr ⟨task', htask', rfl⟩
  | finish htask =>
      by_cases hut : u = t
      · subst hut
        rw [Config.finish_task_self] at htask'
        cases htask'
      · rw [Config.finish_task_of_ne hut] at htask'
        exact Or.inr ⟨task', htask', rfl⟩
  | acquire htask _ => exact Or.inr (hput htask htask')
  | release htask _ => exact Or.inr (hput htask htask')
  | act htask _ => exact Or.inr (hput htask htask')
  | signalNone htask _ => exact Or.inr (hput htask htask')
  | @signalOne x c c' k k' v l ready next next' htask hsleeps =>
      by_cases hux : u = x
      · subst hux
        rw [Config.put_task_self] at htask'
        cases htask'
        exact Or.inr ⟨_, hsleeps, rfl⟩
      · rw [Config.put_task_of_ne hux] at htask'
        exact Or.inr (hput htask htask')
  | pass htask _ => exact Or.inr (hput htask htask')
  | sleep htask _ _ => exact Or.inr (hput htask htask')
  | wake htask => exact Or.inr (hput htask htask')

/-- A thread that runs nothing can only begin a call, and that leaves the state as it is. -/
theorem Step.state_of_idle [DecidableEq T] [DecidableEq L] {body : C → Prog σ L V R}
    {cfg cfg' : Config T σ L V C R} {t : T} (hstep : Step body cfg t cfg')
    (hidle : cfg.task t = none) : cfg'.state = cfg.state := by
  cases hstep with
  | call => rfl
  | finish htask => cases hidle.symm.trans htask
  | acquire htask _ | release htask _ | act htask _ | signalNone htask _ | signalOne htask _
  | pass htask _ => cases hidle.symm.trans htask
  | sleep htask _ _ => cases hidle.symm.trans htask
  | wake htask => cases hidle.symm.trans htask

/-- A call that may wait begins only where no other one runs. -/
def StartsAlone (waits : C → Prop) (cfg : Config T σ L V C R) (t : T)
    (cfg' : Config T σ L V C R) : Prop :=
  Starts (fun c => waits c → ∀ u, ∀ task ∈ cfg.task u, ¬ waits task.call) cfg t cfg'

instance [Fintype T] (waits : C → Prop) [DecidablePred waits] :
    ∀ (cfg : Config T σ L V C R) (t : T) (cfg' : Config T σ L V C R),
      Decidable (StartsAlone waits cfg t cfg') := fun cfg t cfg' =>
  inferInstanceAs (Decidable (Starts
    (fun c => waits c → ∀ u, ∀ task ∈ cfg.task u, ¬ waits task.call) cfg t cfg'))

theorem Config.Lone.step [DecidableEq T] [DecidableEq L] {body : C → Prog σ L V R}
    {waits : C → Prop} {cfg cfg' : Config T σ L V C R} {t : T} (h : cfg.Lone waits)
    (hstep : Step body cfg t cfg') (hstarts : StartsAlone waits cfg t cfg') :
    cfg'.Lone waits := by
  have hnew : ∀ {u} {task task' : Task σ L V C R}, cfg.task t = none → cfg'.task t = some task →
      waits task.call → (∃ task₀, cfg.task u = some task₀ ∧ task₀.call = task'.call) →
      ¬ waits task'.call := by
    rintro u task task' hidle htask hwaits ⟨task₀, htask₀, hsame⟩
    rw [← hsame]
    exact hstarts hidle task htask hwaits u task₀ htask₀
  intro x y task task' hx hy hwaits hwaits'
  obtain ⟨rfl, hidle⟩ | hbefore := hstep.runs hx
  · obtain ⟨rfl, -⟩ | hbefore' := hstep.runs hy
    · rfl
    · exact absurd hwaits' (hnew hidle hx hwaits hbefore')
  · obtain ⟨rfl, hidle⟩ | ⟨task₁, htask₁, hsame₁⟩ := hstep.runs hy
    · exact absurd hwaits (hnew hidle hy hwaits' hbefore)
    · obtain ⟨task₀, htask₀, hsame₀⟩ := hbefore
      exact h x y task₀ task₁ htask₀ htask₁ (hsame₀ ▸ hwaits) (hsame₁ ▸ hwaits')

/-! ## Tasks that signal and give back their locks -/

open Prog

variable [DecidableEq L] [DecidableEq V]

/-- What is left of a task signals what it owes. -/
def TaskSignals (w : Condition σ L V) (may : σ → σ → Prop) (waits : C → Prop)
    (held : List (L × Mode)) : Task σ L V C R → Prop
  | ⟨c, p, _, false⟩ => Signals w may (waits c) p held false
  | ⟨c, .await v l ready next, _, true⟩ =>
      waits c ∧ v = w.var ∧ l = w.lock ∧ ready = w.holds ∧ held = [] ∧
        Signals w may (waits c) next [(l, .write)] false
  | ⟨_, _, _, true⟩ => False

/-- What is left of a task gives back all locks, whatever the other threads do. -/
def GivesBack (held : List (L × Mode)) (s : σ) : Task σ L V C R → Prop
  | ⟨_, p, _, false⟩ => Balanced (fun _ _ => True) (fun _ held => held = []) p held s
  | ⟨_, .await _ l ready next, _, true⟩ => ∀ s', ready s' = true →
      Balanced (fun _ _ => True) (fun _ held => held = []) next [(l, .write)] s'
  | ⟨_, _, _, true⟩ => False

variable {w : Condition σ L V} {may : σ → σ → Prop} {waits : C → Prop}
  {held : List (L × Mode)} {s s' : σ} {task : Task σ L V C R}

omit [DecidableEq V] in
theorem GivesBack.others (h : GivesBack held s task) : GivesBack held s' task := by
  obtain ⟨c, p, k, asleep⟩ := task
  cases asleep with
  | false => exact Balanced.later h (Relation.ReflTransGen.single trivial)
  | true =>
      cases p with
      | await v l ready next => exact h
      | _ => exact h.elim

/-- A task that sleeps may wait, and sleeps where it should, with no lock. -/
theorem TaskSignals.of_asleep (h : TaskSignals w may waits held task)
    (hasleep : task.asleep = true) :
    waits task.call ∧ held = [] ∧ ∃ l ready next, task.prog = .await w.var l ready next := by
  obtain ⟨c, p, k, asleep⟩ := task
  simp only at hasleep
  subst hasleep
  cases p with
  | await v l ready next =>
      obtain ⟨hwaits, rfl, -, -, hheld, -⟩ := h
      exact ⟨hwaits, hheld, l, ready, next, rfl⟩
  | _ => exact h.elim

theorem taskSignals_kept : Kept (fun _ => may) fun held s (task : Task σ L V C R) =>
    TaskSignals w may waits held task ∧ GivesBack held s task where
  others h := ⟨h.1, h.2.others⟩
  finish h := h.2
  acquire h := ⟨h.1, h.2⟩
  release h := ⟨h.1.2, h.2.2⟩
  act := by
    rintro held s s' c e next k ⟨hsignals, hgives⟩ heff hmay
    refine ⟨?_, hgives s Relation.ReflTransGen.refl s' heff⟩
    have hnext := (hsignals s s' heff hmay).2
    unfold TaskSignals
    cases howes : w.holds s' && (false || !w.holds s) with
    | false => rwa [howes] at hnext
    | true =>
        rw [howes] at hnext
        exact hnext.paid
  signal h := by
    obtain ⟨hsignals, hgives⟩ := h
    exact ⟨by simpa [TaskSignals, Signals] using hsignals, hgives⟩
  pass h hready := ⟨h.1.2.2.2.2.2.2, h.2 _ Relation.ReflTransGen.refl hready⟩
  sleep := by
    rintro held s c v l ready next k ⟨⟨hmay, rfl, rfl, rfl, rfl, -, hnext⟩, hgives⟩
    rw [dropLock_cons_self]
    exact ⟨⟨hmay, rfl, rfl, rfl, rfl, hnext⟩,
      fun s' hready => hgives s' (Relation.ReflTransGen.single trivial) hready⟩
  wake := by
    rintro held s c v l ready next k ⟨⟨hmay, rfl, rfl, rfl, rfl, hnext⟩, hgives⟩
    exact ⟨⟨hmay, rfl, rfl, rfl, rfl, rfl, hnext⟩, fun s' _ hready => hgives s' hready⟩

/-! ## Sleepers and debts -/

/-- The thread has the lock and signals before it lets go of it. -/
def Config.Owes (w : Condition σ L V) (may : σ → σ → Prop) (waits : C → Prop)
    (cfg : Config T σ L V C R) (t : T) : Prop :=
  ∃ task, cfg.task t = some task ∧ task.asleep = false ∧ (w.lock, .write) ∈ cfg.held t ∧
    Signals w may (waits task.call) task.prog (cfg.held t) true

/-- While somebody sleeps and the condition holds, a thread is on its way to the signal. -/
structure Waking (w : Condition σ L V) (may : σ → σ → Prop) (waits : C → Prop)
    (cfg : Config T σ L V C R) : Prop where
  tasks : EachTask (fun held s task => TaskSignals w may waits held task ∧ GivesBack held s task)
    cfg
  owed : w.holds cfg.state = true → cfg.Asleep w.var → ∃ t, cfg.Owes w may waits t

namespace Waking

variable {cfg cfg' : Config T σ L V C R} {t u : T}

theorem init {s : σ} : Waking w may waits (Config.init s : Config T σ L V C R) where
  tasks := EachTask.init
  owed := by
    rintro - ⟨t, c, l, ready, next, k, htask⟩
    cases htask

/-- A debt of another thread stays, and so does that of the thread that makes the step. -/
theorem owed_of (h : Waking w may waits cfg) (hholds : w.holds cfg.state = true)
    (hasleep : cfg.Asleep w.var)
    (hothers : ∀ u, u ≠ t → cfg'.task u = cfg.task u ∧ cfg'.held u = cfg.held u)
    (hself : cfg.Owes w may waits t → cfg'.Owes w may waits t) :
    ∃ u, cfg'.Owes w may waits u := by
  obtain ⟨u, howes⟩ := h.owed hholds hasleep
  by_cases hut : u = t
  · subst hut
    exact ⟨u, hself howes⟩
  · obtain ⟨task, htask, hrest⟩ := howes
    obtain ⟨hsame, hheld⟩ := hothers u hut
    exact ⟨u, task, hsame ▸ htask, hheld ▸ hrest⟩

/-- The thread goes on in its program. -/
theorem owed_goOn [DecidableEq T] (h : Waking w may waits cfg) {c : C} {p q : Prog σ L V R}
    {k : Nat} (hholds : w.holds cfg.state = true) (hasleep : cfg'.Asleep w.var)
    (htask : cfg.task t = some ⟨c, p, k, false⟩)
    (htask' : cfg'.task = (cfg.put t ⟨c, q, k, false⟩).task)
    (hheld : ∀ u, u ≠ t → cfg'.held u = cfg.held u)
    (hself : (w.lock, .write) ∈ cfg.held t → Signals w may (waits c) p (cfg.held t) true →
      (w.lock, .write) ∈ cfg'.held t ∧ Signals w may (waits c) q (cfg'.held t) true) :
    ∃ u, cfg'.Owes w may waits u := by
  have hput : (cfg.put t ⟨c, q, k, false⟩).Asleep w.var := by
    unfold Config.Asleep Config.Sleeps at hasleep ⊢
    rwa [htask'] at hasleep
  rw [Config.asleep_put_awake (Config.not_sleeps_of_awake htask) fun _ =>
    Config.not_sleeps_put_awake] at hput
  refine h.owed_of hholds hput (fun u hu => ⟨?_, hheld u hu⟩) ?_
  · rw [htask', Config.put_task_of_ne hu]
  · rintro ⟨task, htask₁, -, hlock, hpays⟩
    rw [htask] at htask₁
    cases htask₁
    obtain ⟨hlock', hpays'⟩ := hself hlock hpays
    exact ⟨_, by rw [htask', Config.put_task_self], rfl, hlock', hpays'⟩

/-- A step that leaves the condition true leaves a debt for the sleepers. -/
theorem owed_step [DecidableEq T] {body : C → Prog σ L V R} (h : Waking w may waits cfg)
    (hlone : cfg.Lone waits) (hstep : Step body cfg t cfg')
    (hmay : ∀ task, cfg.task t = some task → may cfg.state cfg'.state)
    (hholds : w.holds cfg'.state = true) (hasleep : cfg'.Asleep w.var) :
    ∃ u, cfg'.Owes w may waits u := by
  cases hstep with
  | @call c hidle =>
      rw [Config.asleep_put_awake (Config.not_sleeps_of_none hidle) fun _ =>
        Config.not_sleeps_put_awake] at hasleep
      refine h.owed_of hholds hasleep (fun u hu => ⟨Config.put_task_of_ne hu, rfl⟩) ?_
      rintro ⟨task, htask, -⟩
      rw [hidle] at htask
      cases htask
  | finish htask =>
      rw [Config.asleep_finish (Config.not_sleeps_of_awake htask)] at hasleep
      refine h.owed_of hholds hasleep (fun u hu => ⟨Config.finish_task_of_ne hu, rfl⟩) ?_
      rintro ⟨task, htask', -, -, hpays⟩
      rw [htask] at htask'
      cases htask'
      cases hpays
  | acquire htask _ =>
      refine h.owed_goOn hholds hasleep htask rfl (fun u hu => Config.setHeld_held_of_ne hu) ?_
      intro hlock hpays
      rw [Config.setHeld_held_self]
      exact ⟨List.mem_cons_of_mem _ hlock, hpays⟩
  | release htask _ =>
      refine h.owed_goOn hholds hasleep htask rfl (fun u hu => Config.setHeld_held_of_ne hu) ?_
      rintro hlock ⟨hother, hpays⟩
      rw [Config.setHeld_held_self]
      refine ⟨mem_dropLock_of_ne hlock fun hsame => ?_, hpays⟩
      cases hother hsame.symm
  | @act c k e next s' htask heff =>
      have hsignals := (h.tasks.tasks t _ htask).1
      cases hbefore : w.holds cfg.state with
      | false =>
          -- the step makes the condition true, so the thread has the lock and owes
          obtain ⟨hlock, hpays⟩ := hsignals _ _ heff (hmay _ htask)
          refine ⟨t, _, Config.put_task_self, rfl, hlock hholds hbefore, ?_⟩
          rw [Config.setState_state] at hholds
          rw [hbefore, hholds] at hpays
          exact hpays
      | true =>
          refine h.owed_goOn hbefore hasleep htask rfl (fun _ _ => rfl) fun hlock hpays =>
            ⟨hlock, ?_⟩
          have hnext := (hpays _ _ heff (hmay _ htask)).2
          rw [Config.setState_state] at hholds
          rw [hbefore, hholds] at hnext
          exact hnext
  | @signalNone c k v next htask hnone =>
      have hother : v ≠ w.var := by
        rintro rfl
        rw [Config.asleep_put_awake (Config.not_sleeps_of_awake htask) fun _ =>
          Config.not_sleeps_put_awake] at hasleep
        exact hnone hasleep
      refine h.owed_goOn hholds hasleep htask rfl (fun _ _ => rfl) fun hlock hpays => ⟨hlock, ?_⟩
      simpa [Signals, hother] using hpays
  | @signalOne u c c' k k' v l ready next next' htask hsleeps =>
      -- whoever sleeps is the one thread that may wait, and that one is awake now
      have hwaits : waits c' := ((h.tasks.tasks u _ hsleeps).1.of_asleep rfl).1
      obtain ⟨x, cx, lx, readyx, nextx, kx, hx⟩ := hasleep
      have hxu : x ≠ u := by
        rintro rfl
        rw [Config.put_task_self] at hx
        cases hx
      have hxt : x ≠ t := by
        rintro rfl
        rw [Config.put_task_of_ne hxu, Config.put_task_self] at hx
        cases hx
      rw [Config.put_task_of_ne hxu, Config.put_task_of_ne hxt] at hx
      have hwaitsx : waits cx := ((h.tasks.tasks x _ hx).1.of_asleep rfl).1
      exact absurd (hlone x u _ _ hx hsleeps hwaitsx hwaits) hxu
  | pass htask _ =>
      refine h.owed_goOn hholds hasleep htask rfl (fun _ _ => rfl) fun _ hpays => ?_
      cases hpays.2.2.2.2.2.1
  | sleep htask hready _ =>
      obtain ⟨-, -, -, rfl, -⟩ := (h.tasks.tasks t _ htask).1
      rw [Config.setHeld_state, Config.put_state, hready] at hholds
      cases hholds
  | @wake c k v l ready next htask =>
      obtain ⟨-, rfl, -⟩ := (h.tasks.tasks t _ htask).1
      refine h.owed_of hholds ⟨t, c, l, ready, next, k, htask⟩
        (fun u hu => ⟨Config.put_task_of_ne hu, rfl⟩) ?_
      rintro ⟨task, htask', hawake, -⟩
      rw [htask] at htask'
      cases htask'
      cases hawake

/-- The step lemma. -/
theorem step [DecidableEq T] {body : C → Prog σ L V R} (h : Waking w may waits cfg)
    (hlone : cfg.Lone waits) (hstep : Step body cfg t cfg')
    (hcall : ∀ task, cfg.task t = none → cfg'.task t = some task →
      TaskSignals w may waits [] (⟨task.call, body task.call, task.start, false⟩ : Task σ L V C R) ∧
        GivesBack [] cfg.state ⟨task.call, body task.call, task.start, false⟩)
    (hmay : ∀ task, cfg.task t = some task → may cfg.state cfg'.state) :
    Waking w may waits cfg' where
  tasks := h.tasks.step taskSignals_kept hstep hcall hmay
  owed := h.owed_step hlone hstep hmay

/-- Nobody sleeps while the lock is free and the condition holds. -/
theorem awake (h : Waking w may waits cfg) (hfree : cfg.Unwritten w.lock)
    (hholds : w.holds cfg.state = true) : ¬ cfg.Asleep w.var := by
  intro hasleep
  obtain ⟨t, task, -, -, hlock, -⟩ := h.owed hholds hasleep
  exact hfree t hlock

theorem sleeps (h : Waking w may waits cfg) (htask : cfg.task t = some task)
    (hasleep : task.asleep = true) : cfg.Sleeps t w.var := by
  obtain ⟨-, -, l, ready, next, hprog⟩ := (h.tasks.tasks t task htask).1.of_asleep hasleep
  obtain ⟨c, p, k, asleep⟩ := task
  simp only at hasleep hprog
  subst hasleep hprog
  exact ⟨c, l, ready, next, k, htask⟩

/-- The threads that sleep, wait or release keep the order if those that take a lock do. -/
theorem orderly {rank : L → Nat} (h : Waking w may waits cfg)
    (horder : ∀ t l, cfg.WaitsFor t l → ∀ p ∈ cfg.held t, rank p.1 < rank l) :
    Orderly rank 0 cfg where
  idle := h.tasks.idle
  acquire := horder
  release t c l next k htask := (h.tasks.tasks t _ htask).2.1
  await t c v l ready next k htask := by
    obtain ⟨-, -, rfl, -, hheld, -⟩ := (h.tasks.tasks t _ htask).1
    rw [hheld]
    exact List.mem_cons_self
  asleep t task htask hasleep p hp := by
    obtain ⟨-, hheld, -⟩ := (h.tasks.tasks t task htask).1.of_asleep hasleep
    rw [hheld] at hp
    cases hp

end Waking

/-! ## A discipline for threads that wait -/

/-- The same discipline, where every thread may wait. -/
def Discipline.waiting {M : Type} [AddCommMonoid M] (D : Discipline σ L V M) :
    Discipline σ L V M :=
  { D with waiter := fun _ => True }

omit [DecidableEq V] in
theorem wp.waiting {M : Type} [AddCommMonoid M] {D : Discipline σ L V M} {may : σ → σ → Prop}
    {Q : α → List (L × Mode) → M → World σ V M → Prop} {p : Prog σ L V α}
    {held : List (L × Mode)} {b : M} {x : World σ V M} (h : wp D may Q p held b x) :
    wp D.waiting may Q p held b x := by
  induction p generalizing held b x with
  | ret a => exact h
  | acquire l m next ih =>
      intro x' hrely hinv
      obtain ⟨horder, hnext⟩ := h x' hrely hinv
      exact ⟨horder, fun hlock => ih (hnext hlock)⟩
  | release l next ih =>
      intro x' hrely hinv
      obtain ⟨hlock, hnext⟩ := h x' hrely hinv
      exact ⟨hlock, ih hnext⟩
  | act e next ih =>
      intro x' hrely hinv s' heff hmay
      obtain ⟨hinv', hguar, hnext⟩ := h x' hrely hinv s' heff hmay
      exact ⟨hinv', hguar, ih _ hnext⟩
  | signal v next ih =>
      intro x' hrely hinv x'' hquiet hsingle
      exact ih (h x' hrely hinv x'' hquiet hsingle)
  | await v l ready next ih =>
      intro x' hrely hinv
      obtain ⟨-, hlock, rest, hheld, horder, hspec⟩ := h x' hrely hinv
      exact ⟨trivial, hlock, rest, hheld, horder, hspec.mono fun _ => ih⟩
  | crash => trivial

end TecnicoFS.Threads
