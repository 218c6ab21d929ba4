import TecnicoFS.Lib.Serial
import Mathlib.Data.List.Nodup

/-!
# Linearizability of calls with one critical section

`Serial.lean` puts the calls of a finished run in a sequential order. Here the order is followed
through the run: at every moment it lists the calls that have returned and some of those that are
running, and it agrees with real time, so that a call that had returned before another one started
stands before it (`Reach.linearized`).

The calls may signal condition variables that nobody waits on. Such a signal does nothing, and
`muffle` takes it out of a program. To tell the calls of a thread apart, the proof tags each one
with the number of calls that had returned when it started (`Config.tag`).
-/

namespace TecnicoFS.Threads

variable {T σ L V C R α β : Type}

namespace Prog

/-- The program waits on no condition variable. -/
def NoWait : Prog σ L V α → Prop
  | .ret _ => True
  | .acquire _ _ next => NoWait next
  | .release _ next => NoWait next
  | .act _ next => ∀ s, NoWait (next s)
  | .signal _ next => NoWait next
  | .await _ _ _ _ => False
  | .crash => True

/-- The program with its signals replaced by steps that do nothing. -/
def muffle : Prog σ L V α → Prog σ L V α
  | .ret a => .ret a
  | .acquire l m next => .acquire l m (muffle next)
  | .release l next => .release l (muffle next)
  | .act e next => .act e fun s => muffle (next s)
  | .signal _ next => .act some fun _ => muffle next
  | .await v l ready next => .await v l ready (muffle next)
  | .crash => .crash

section Rules

variable {p : Prog σ L V α} {k : α → Prog σ L V β}

theorem NoWait.bind (hp : p.NoWait) (hk : ∀ a, (k a).NoWait) : (p.bind k).NoWait := by
  induction p with
  | ret a => exact hk a
  | acquire l m next ih => exact ih hp
  | release l next ih => exact ih hp
  | act e next ih => exact fun s => ih s (hp s)
  | signal v next ih => exact ih hp
  | await v l ready next ih => exact hp.elim
  | crash => trivial

@[simp] theorem muffle_ret (a : α) : (ret a : Prog σ L V α).muffle = ret a := rfl
@[simp] theorem muffle_crash : (crash : Prog σ L V α).muffle = crash := rfl
@[simp] theorem muffle_lock (l : L) : (lock l : Prog σ L V Unit).muffle = lock l := rfl
@[simp] theorem muffle_unlock (l : L) : (unlock l : Prog σ L V Unit).muffle = unlock l := rfl

@[simp] theorem muffle_read (f : σ → α) :
    (Prog.read f : Prog σ L V α).muffle = Prog.read f := rfl

@[simp] theorem muffle_modify (f : σ → σ) :
    (Prog.modify f : Prog σ L V Unit).muffle = Prog.modify f := rfl

@[simp] theorem muffle_modify? (f : σ → Option σ) :
    (Prog.modify? f : Prog σ L V Unit).muffle = Prog.modify? f := rfl

@[simp] theorem muffle_wakeOne (v : V) :
    (wakeOne v : Prog σ L V Unit).muffle = Prog.modify id := rfl

@[simp] theorem muffle_act (e : σ → Option σ) (next : σ → Prog σ L V α) :
    (act e next).muffle = act e fun s => (next s).muffle := rfl

@[simp] theorem muffle_bind (p : Prog σ L V α) (k : α → Prog σ L V β) :
    (p.bind k).muffle = p.muffle.bind fun a => (k a).muffle := by
  induction p with
  | ret a => rfl
  | acquire l m next ih => exact congrArg (acquire l m) ih
  | release l next ih => exact congrArg (release l) ih
  | act e next ih => exact congrArg (act e) (funext ih)
  | signal v next ih => exact congrArg (act some) (funext fun _ => ih)
  | await v l ready next ih => exact congrArg (await v l ready) ih
  | crash => rfl

/-- A thread alone computes the same with and without its signals. -/
theorem eval_muffle (p : Prog σ L V α) (s : σ) : p.muffle.eval s = p.eval s := by
  induction p generalizing s with
  | ret a => rfl
  | acquire l m next ih => exact ih s
  | release l next ih => exact ih s
  | act e next ih =>
      simp only [muffle, eval]
      split
      · rfl
      · exact ih _ _
  | signal v next ih => exact ih s
  | await v l ready next ih =>
      simp only [muffle, eval, ih]
  | crash => rfl

end Rules

/-! ## Critical sections that signal -/

/-- The program keeps an invariant, does not touch the gate and does not wait. -/
def Guards (g : L) (I : σ → Prop) (p : Prog σ L V α) : Prop := p.NoWait ∧ Keeps g I p.muffle

/-- The program does its work in one critical section and does not wait. -/
def Enters (g : L) (I : σ → Prop) (p : Prog σ L V α) : Prop := p.NoWait ∧ Entering g I p.muffle

section Rules

variable {g : L} {I : σ → Prop} {p : Prog σ L V α} {k : α → Prog σ L V β}

theorem Guards.bind (hp : Guards g I p) (hk : ∀ a, Guards g I (k a)) :
    Guards g I (p.bind k) := by
  constructor
  · exact hp.1.bind fun a => (hk a).1
  · rw [muffle_bind]
    exact hp.2.bind fun a => (hk a).2

theorem guards_ret (a : α) : Guards g I (ret a : Prog σ L V α) := ⟨trivial, trivial⟩

theorem guards_crash : Guards g I (crash : Prog σ L V α) := ⟨trivial, trivial⟩

theorem guards_lock {l : L} (hl : l ≠ g) : Guards g I (lock l : Prog σ L V Unit) :=
  ⟨trivial, keeps_lock hl⟩

theorem guards_unlock {l : L} (hl : l ≠ g) : Guards g I (unlock l : Prog σ L V Unit) :=
  ⟨trivial, keeps_unlock hl⟩

theorem guards_wakeOne {v : V} : Guards g I (wakeOne v : Prog σ L V Unit) :=
  ⟨trivial, keeps_modify (f := id) fun _ hs => hs⟩

theorem guards_read (f : σ → α) : Guards g I (Prog.read f : Prog σ L V α) :=
  ⟨fun _ => trivial, keeps_read f⟩

theorem guards_modify {f : σ → σ} (hf : ∀ s, I s → I (f s)) :
    Guards g I (Prog.modify f : Prog σ L V Unit) := ⟨fun _ => trivial, keeps_modify hf⟩

theorem guards_modify? {f : σ → Option σ} (hf : ∀ s s', I s → f s = some s' → I s') :
    Guards g I (Prog.modify? f : Prog σ L V Unit) := ⟨fun _ => trivial, keeps_modify? hf⟩

/-- A program between taking the gate and giving it back. -/
theorem Guards.enters (hp : Guards g I p) (f : α → β) :
    Enters g I (((lock g).bind fun _ => p.bind fun a => (unlock g).bind fun _ => ret a).bind
      fun a => (ret (f a) : Prog σ L V β)) := by
  simp only [Prog.bind_assoc]
  constructor
  · exact NoWait.bind (p := p) hp.1 fun a => trivial
  · rw [muffle_bind, muffle_lock]
    refine entering_lock ?_
    rw [muffle_bind]
    exact Inside.bind hp.2 fun a => Or.inr ⟨rfl, f a, rfl⟩

end Rules

end Prog

open Prog

/-! ## Calls with their starting times -/

namespace Config

/-- Each call carries the number of calls that had returned when it started, and nobody
signals. -/
def tag (cfg : Config T σ L V C R) : Config T σ L V (C × Nat) R where
  state := cfg.state
  held := cfg.held
  task t := (cfg.task t).map fun task =>
    ⟨(task.call, task.start), task.prog.muffle, task.start, task.asleep⟩
  log := cfg.log.map fun d => ⟨d.thread, (d.call, d.start), d.result, d.start⟩

variable [DecidableEq T] {cfg : Config T σ L V C R} {t : T}

theorem tag_put {c : C} {p : Prog σ L V R} {k : Nat} {asleep : Bool} :
    (cfg.put t ⟨c, p, k, asleep⟩).tag = cfg.tag.put t ⟨(c, k), p.muffle, k, asleep⟩ := by
  have htask : (cfg.put t ⟨c, p, k, asleep⟩).tag.task =
      (cfg.tag.put t ⟨(c, k), p.muffle, k, asleep⟩).task := by
    funext u
    by_cases hu : u = t
    · subst hu
      simp [tag]
    · rw [put_task_of_ne hu]
      simp [tag, hu]
  unfold put tag at *
  simp only at htask
  rw [htask]

theorem tag_finish {c : C} {k : Nat} {r : R} :
    (cfg.finish t c k r).tag = cfg.tag.finish t (c, k) k r := by
  have htask : (cfg.finish t c k r).tag.task = (cfg.tag.finish t (c, k) k r).task := by
    funext u
    by_cases hu : u = t
    · subst hu
      simp [tag]
    · rw [finish_task_of_ne hu]
      simp [tag, hu]
  unfold finish tag at *
  simp only at htask
  rw [htask, List.map_append]
  rfl

end Config

section

variable [DecidableEq T] [DecidableEq L] {body : C → Prog σ L V R} {s₀ : σ}
  {cfg cfg' : Config T σ L V C R} {t : T}

/-- A run of calls that do not wait is, with the tags, a run of calls that do not signal. -/
theorem Step.tag (hstep : Step body cfg t cfg')
    (hquiet : ∀ u task, cfg.task u = some task → task.prog.NoWait) :
    Step (fun c => (body c.1).muffle) cfg.tag t cfg'.tag := by
  have htag : ∀ {u task}, cfg.task u = some task → cfg.tag.task u =
      some ⟨(task.call, task.start), task.prog.muffle, task.start, task.asleep⟩ := by
    intro u task htask
    simp only [Config.tag, htask, Option.map_some]
  cases hstep with
  | @call c hidle =>
      have hnone : cfg.tag.task t = none := by simp only [Config.tag, hidle, Option.map_none]
      have hlength : cfg.tag.log.length = cfg.log.length := by simp [Config.tag]
      rw [Config.tag_put]
      have hcall : Step (fun c : C × Nat => (body c.1).muffle) cfg.tag t
          (cfg.tag.put t ⟨(c, cfg.log.length), (body c).muffle, cfg.tag.log.length, false⟩) :=
        Step.call hnone
      rw [hlength] at hcall
      exact hcall
  | finish htask =>
      rw [Config.tag_finish]
      exact Step.finish (htag htask)
  | acquire htask hfree =>
      have hstep : Step (fun c : C × Nat => (body c.1).muffle) cfg.tag t _ :=
        Step.acquire (htag htask) hfree
      rw [← Config.tag_put] at hstep
      exact hstep
  | release htask hheld =>
      have hstep : Step (fun c : C × Nat => (body c.1).muffle) cfg.tag t _ :=
        Step.release (htag htask) hheld
      rw [← Config.tag_put] at hstep
      exact hstep
  | act htask heff =>
      have hstep : Step (fun c : C × Nat => (body c.1).muffle) cfg.tag t _ :=
        Step.act (htag htask) heff
      simp only at hstep
      rw [← Config.tag_put] at hstep
      exact hstep
  | signalNone htask _ =>
      have hstep : Step (fun c : C × Nat => (body c.1).muffle) cfg.tag t _ :=
        Step.act (htag htask) rfl
      simp only at hstep
      rw [← Config.tag_put] at hstep
      exact hstep
  -- nobody waits, so nobody is woken
  | signalOne _ hsleeps => exact (hquiet _ _ hsleeps).elim
  | pass htask _ => exact (hquiet _ _ htask).elim
  | sleep htask _ _ => exact (hquiet _ _ htask).elim
  | wake htask => exact (hquiet _ _ htask).elim

/-- No call of the run waits. -/
theorem Step.noWait {allowed : C → Prop} (hstep : Step body cfg t cfg')
    (hstarts : Starts allowed cfg t cfg') (hbody : ∀ c, allowed c → (body c).NoWait)
    (hquiet : ∀ u task, cfg.task u = some task → task.prog.NoWait) :
    ∀ u task, cfg'.task u = some task → task.prog.NoWait := by
  have hsame : ∀ {c p k}, p.NoWait → ∀ u task,
      (cfg.put t ⟨c, p, k, false⟩).task u = some task → task.prog.NoWait := by
    intro c p k hp u task htask
    by_cases hu : u = t
    · subst hu
      rw [Config.put_task_self] at htask
      cases htask
      exact hp
    · rw [Config.put_task_of_ne hu] at htask
      exact hquiet u task htask
  have hput : ∀ {c p k held}, p.NoWait → ∀ u task,
      ((cfg.put t ⟨c, p, k, false⟩).setHeld t held).task u = some task → task.prog.NoWait := by
    intro c p k held hp u task htask
    rw [Config.setHeld_task] at htask
    exact hsame hp u task htask
  cases hstep with
  | call hidle => exact hsame (hbody _ (hstarts hidle _ Config.put_task_self))
  | finish _ =>
      intro u task htask
      by_cases hu : u = t
      · subst hu
        rw [Config.finish_task_self] at htask
        cases htask
      · rw [Config.finish_task_of_ne hu] at htask
        exact hquiet u task htask
  | acquire htask _ => exact hput (hquiet _ _ htask)
  | release htask _ => exact hput (hquiet _ _ htask)
  | act htask _ => exact hsame (hquiet _ _ htask _)
  | signalNone htask _ => exact hsame (hquiet _ _ htask)
  | signalOne _ hsleeps => exact (hquiet _ _ hsleeps).elim
  | pass htask _ => exact (hquiet _ _ htask).elim
  | sleep htask _ _ => exact (hquiet _ _ htask).elim
  | wake htask => exact (hquiet _ _ htask).elim

/-! ## The clock -/

/-- The number of calls that have returned only grows, and a thread makes its calls one after the
other. -/
structure Clock (cfg : Config T σ L V C R) : Prop where
  log_start : ∀ d ∈ cfg.log, d.start < cfg.log.length
  task_start : ∀ t task, cfg.task t = some task →
    task.start ≤ cfg.log.length ∧ ∀ d ∈ cfg.log, d.thread = t → d.start < task.start

omit [DecidableEq L] in
theorem task_of_put {c : C} {p : Prog σ L V R} {k : Nat} {asleep : Bool} {u : T}
    {task : Task σ L V C R} (h : (cfg.put t ⟨c, p, k, asleep⟩).task u = some task) :
    u = t ∧ task.call = c ∧ task.start = k ∨ cfg.task u = some task := by
  by_cases hu : u = t
  · subst hu
    rw [Config.put_task_self] at h
    cases h
    exact Or.inl ⟨rfl, rfl, rfl⟩
  · rw [Config.put_task_of_ne hu] at h
    exact Or.inr h

/-- What a step does to the calls: one begins, one returns, or all stay as they are. -/
theorem Step.calls (hstep : Step body cfg t cfg') :
    (∀ u task, cfg'.task u = some task →
      (∃ task', cfg.task u = some task' ∧ task.call = task'.call ∧ task.start = task'.start) ∨
      u = t ∧ task.start = cfg.log.length) ∧ cfg'.log = cfg.log ∨
    (∃ task r, cfg.task t = some task ∧
      cfg' = cfg.finish t task.call task.start r) := by
  -- the thread goes on with its call
  have hgo : ∀ {c p k p' asleep asleep'}, cfg.task t = some ⟨c, p, k, asleep⟩ → ∀ u task,
      (cfg.put t ⟨c, p', k, asleep'⟩).task u = some task →
      ∃ task', cfg.task u = some task' ∧ task.call = task'.call ∧ task.start = task'.start := by
    intro c p k p' asleep asleep' htask u task hu
    obtain ⟨rfl, hcall, hstart⟩ | hsame := task_of_put hu
    · exact ⟨_, htask, hcall, hstart⟩
    · exact ⟨_, hsame, rfl, rfl⟩
  cases hstep with
  | call hidle =>
      refine Or.inl ⟨fun u task hu => ?_, rfl⟩
      obtain ⟨rfl, -, hstart⟩ | hsame := task_of_put hu
      · exact Or.inr ⟨rfl, hstart⟩
      · exact Or.inl ⟨_, hsame, rfl, rfl⟩
  | finish htask => exact Or.inr ⟨_, _, htask, rfl⟩
  | acquire htask _ => exact Or.inl ⟨fun u task hu => Or.inl (hgo htask u task hu), rfl⟩
  | release htask _ => exact Or.inl ⟨fun u task hu => Or.inl (hgo htask u task hu), rfl⟩
  | act htask _ => exact Or.inl ⟨fun u task hu => Or.inl (hgo htask u task hu), rfl⟩
  | signalNone htask _ => exact Or.inl ⟨fun u task hu => Or.inl (hgo htask u task hu), rfl⟩
  | signalOne htask hsleeps =>
      refine Or.inl ⟨fun u task hu => Or.inl ?_, rfl⟩
      obtain ⟨rfl, hcall, hstart⟩ | hsame := task_of_put hu
      · exact ⟨_, hsleeps, hcall, hstart⟩
      · exact hgo htask u task hsame
  | pass htask _ => exact Or.inl ⟨fun u task hu => Or.inl (hgo htask u task hu), rfl⟩
  | sleep htask _ _ => exact Or.inl ⟨fun u task hu => Or.inl (hgo htask u task hu), rfl⟩
  | wake htask => exact Or.inl ⟨fun u task hu => Or.inl (hgo htask u task hu), rfl⟩

theorem Clock.step (h : Clock cfg) (hstep : Step body cfg t cfg') : Clock cfg' := by
  obtain ⟨htasks, hlog⟩ | ⟨task, r, htask, rfl⟩ := hstep.calls
  · constructor
    · rw [hlog]
      exact h.log_start
    · intro u task hu
      rw [hlog]
      obtain ⟨task', htask', -, hstart⟩ | ⟨rfl, hstart⟩ := htasks u task hu
      · rw [hstart]
        exact h.task_start u task' htask'
      · rw [hstart]
        exact ⟨Nat.le_refl _, fun d hd _ => h.log_start d hd⟩
  · have hstarts := h.task_start t task htask
    constructor
    · intro d hd
      rw [Config.finish_log, List.length_append, List.length_singleton]
      obtain hd | hd := List.mem_append.mp hd
      · exact Nat.lt_succ_of_lt (h.log_start d hd)
      · obtain rfl := List.mem_singleton.mp hd
        exact Nat.lt_succ_of_le hstarts.1
    · intro u task' hu
      have hne : u ≠ t := by
        rintro rfl
        rw [Config.finish_task_self] at hu
        cases hu
      rw [Config.finish_task_of_ne hne] at hu
      obtain ⟨hle, hlt⟩ := h.task_start u task' hu
      rw [Config.finish_log, List.length_append, List.length_singleton]
      refine ⟨Nat.le_succ_of_le hle, fun d hd hthread => ?_⟩
      obtain hd | hd := List.mem_append.mp hd
      · exact hlt d hd hthread
      · obtain rfl := List.mem_singleton.mp hd
        exact absurd hthread.symm hne

/-- The log only grows. -/
theorem Step.log_prefix (hstep : Step body cfg t cfg') : cfg.log <+: cfg'.log := by
  obtain ⟨-, hlog⟩ | ⟨task, r, -, rfl⟩ := hstep.calls
  · exact (congrArg _ hlog).mpr (List.prefix_refl _)
  · exact List.prefix_append _ _

/-! ## The order and real time -/

/-- The calls of the configuration in a sequential order. -/
structure Placed (g : L) (I : σ → Prop) (body : C → Prog σ L V R) (s₀ : σ)
    (cfg : Config T σ L V C R) (order : List (Entry T (C × Nat) R)) (owner : Option T)
    (base : σ) : Prop where
  serialised : Serialised g I (fun c => (body c.1).muffle) s₀ cfg.tag order owner base
  clock : Clock cfg
  quiet : ∀ u task, cfg.task u = some task → task.prog.NoWait
  distinct : order.Nodup
  realTime : ∀ before e later, order = before ++ e :: later →
    ∀ e' ∈ (logged cfg.tag.log).take e.2.1.2, e' ∈ before

variable {g : L} {I : σ → Prop} {order order' : List (Entry T (C × Nat) R)}
  {owner owner' : Option T} {base base' : σ}

omit [DecidableEq T] [DecidableEq L] in
theorem logged_tag :
    logged cfg.tag.log = cfg.log.map fun d => (d.thread, (d.call, d.start), d.result) := by
  simp [logged, Config.tag]

namespace Placed

theorem init (hI : I s₀) :
    Placed g I body s₀ (Config.init s₀ : Config T σ L V C R) [] none s₀ where
  serialised := Serialised.init hI
  clock := by
    constructor
    · simp [Config.init]
    · simp [Config.init]
  quiet := by simp [Config.init]
  distinct := List.nodup_nil
  realTime := by simp

/-- A call of the order has returned, or it is the one its thread runs. -/
theorem mem_cases (h : Placed g I body s₀ cfg order owner base) {e : Entry T (C × Nat) R}
    (he : e ∈ order) : e ∈ logged cfg.tag.log ∨
      ∃ task, cfg.task e.1 = some task ∧ e.2.1 = (task.call, task.start) := by
  obtain ⟨rest, hstage, hentries⟩ := h.serialised.stages e.1
  have hmem : e ∈ entriesOf e.1 order := List.mem_filter.mpr ⟨he, by simp⟩
  rw [hentries] at hmem
  obtain hmem | hmem := List.mem_append.mp hmem
  · exact Or.inl (List.mem_filter.mp hmem).1
  · cases htask : cfg.task e.1 with
    | none =>
        simp only [Config.tag, htask, Option.map_none] at hstage
        cases hstage
        cases hmem
    | some task =>
        obtain ⟨c, p, k, asleep⟩ := task
        simp only [Config.tag, htask, Option.map_some] at hstage
        cases hstage with
        | entering _ _ _ => cases hmem
        | inside _ _ _ => cases hmem
        | leaving _ _ =>
            have heq := List.mem_singleton.mp hmem
            exact Or.inr ⟨_, rfl, congrArg (fun e => e.2.1) heq⟩

/-- A call that has returned is in the order. -/
theorem mem_of_logged (h : Placed g I body s₀ cfg order owner base) {e : Entry T (C × Nat) R}
    (he : e ∈ logged cfg.tag.log) : e ∈ order := by
  obtain ⟨rest, -, hentries⟩ := h.serialised.stages e.1
  have hmem : e ∈ entriesOf e.1 (logged cfg.tag.log) ++ rest :=
    List.mem_append_left _ (List.mem_filter.mpr ⟨he, by simp⟩)
  rw [← hentries] at hmem
  exact (List.mem_filter.mp hmem).1

/-- No call of the order has started later than now. -/
theorem start_le (h : Placed g I body s₀ cfg order owner base) {e : Entry T (C × Nat) R}
    (he : e ∈ order) : e.2.1.2 ≤ cfg.log.length := by
  obtain hlogged | ⟨task, htask, hcall⟩ := h.mem_cases he
  · rw [logged_tag] at hlogged
    obtain ⟨d, hd, rfl⟩ := List.mem_map.mp hlogged
    exact Nat.le_of_lt (h.clock.log_start d hd)
  · rw [hcall]
    exact (h.clock.task_start e.1 task htask).1

/-- The call that a thread runs has not returned. -/
theorem running_not_logged (h : Placed g I body s₀ cfg order owner base)
    {task : Task σ L V C R} (htask : cfg.task t = some task) {r : R} :
    (t, (task.call, task.start), r) ∉ logged cfg.tag.log := by
  rw [logged_tag]
  intro hmem
  obtain ⟨d, hd, heq⟩ := List.mem_map.mp hmem
  simp only [Prod.mk.injEq] at heq
  have hlt := (h.clock.task_start t task htask).2 d hd heq.1
  rw [heq.2.1.2] at hlt
  exact Nat.lt_irrefl _ hlt

omit [DecidableEq T] [DecidableEq L] in
/-- What had returned when a call started has not changed. -/
theorem take_logged (hgrows : cfg.log <+: cfg'.log) {e : Entry T (C × Nat) R}
    (hle : e.2.1.2 ≤ cfg.log.length) :
    (logged cfg'.tag.log).take e.2.1.2 = (logged cfg.tag.log).take e.2.1.2 := by
  obtain ⟨more, hmore⟩ := hgrows
  rw [logged_tag, logged_tag, ← hmore, List.map_append]
  exact List.take_append_of_le_length (by rw [List.length_map]; exact hle)

theorem step {allowed : C → Prop} (h : Placed g I body s₀ cfg order owner base)
    (hbody : ∀ c, allowed c → Enters g I (body c))
    (hstep : Step body cfg t cfg') (hstarts : Starts allowed cfg t cfg') :
    ∃ order' owner' base', Placed g I body s₀ cfg' order' owner' base' := by
  have htagged : Starts (fun c : C × Nat => allowed c.1) cfg.tag t cfg'.tag := by
    intro hidle task htask
    have hidle' : cfg.task t = none := Option.map_eq_none_iff.mp hidle
    obtain ⟨task', htask', rfl⟩ := Option.map_eq_some_iff.mp htask
    exact hstarts hidle' task' htask'
  obtain ⟨order', owner', base', hserialised, hgrows⟩ := h.serialised.step
    (fun c hc => (hbody c.1 hc).2) (hstep.tag h.quiet) htagged
  refine ⟨order', owner', base', hserialised, h.clock.step hstep,
    hstep.noWait hstarts (fun c hc => (hbody c hc).1) h.quiet, ?_, ?_⟩
  · obtain rfl | ⟨task, r, htask, rfl, hentries⟩ := hgrows
    · exact h.distinct
    · obtain ⟨task, hrunning, rfl⟩ := Option.map_eq_some_iff.mp htask
      -- a call that is placed now was not there before, since it has not returned
      refine List.nodup_append.mpr ⟨h.distinct, by simp, ?_⟩
      rintro e he e' he' rfl
      obtain rfl := List.mem_singleton.mp he'
      have hmem : (t, (task.call, task.start), r) ∈ entriesOf t order :=
        List.mem_filter.mpr ⟨he, by simp⟩
      rw [hentries] at hmem
      exact h.running_not_logged hrunning (List.mem_filter.mp hmem).1
  · intro before e later horder e' he'
    obtain hsame | ⟨task, r, htask, rfl, -⟩ := hgrows
    · rw [hsame] at horder
      have hmem : e ∈ order := by rw [horder]; simp
      rw [take_logged hstep.log_prefix (h.start_le hmem)] at he'
      exact h.realTime before e later horder e' he'
    · obtain ⟨task, hrunning, rfl⟩ := Option.map_eq_some_iff.mp htask
      obtain rfl | ⟨later, last, rfl⟩ := List.eq_nil_or_concat later
      · -- the call that is placed now follows all calls that have returned
        obtain ⟨rfl, heq⟩ := List.append_inj' horder rfl
        obtain ⟨rfl, -⟩ := List.cons.inj heq
        rw [take_logged hstep.log_prefix (h.clock.task_start t task hrunning).1] at he'
        exact h.mem_of_logged (List.mem_of_mem_take he')
      · rw [List.concat_eq_append, ← List.cons_append, ← List.append_assoc] at horder
        obtain ⟨rfl, -⟩ := List.append_inj' horder rfl
        rw [take_logged hstep.log_prefix (h.start_le (by simp))] at he'
        exact h.realTime before e later rfl e' he'

end Placed

/-! ## Linearizability -/

/-- The calls of one thread. -/
def callsOf (t : T) (log : List (Done T C R)) : List (Done T C R) :=
  log.filter fun d => d.thread = t

/-- A sequential order for the calls of a configuration. It has the calls that have returned, with
their results, and for a thread in a call perhaps that one too; each thread's calls stand in the
order in which it made them, and what had returned when a call started stands before it. -/
structure Linearizes (body : C → Prog σ L V R) (s₀ : σ) (cfg : Config T σ L V C R)
    (order : List (Done T C R)) (base : σ) : Prop where
  serial : Serial body s₀ (order.map fun d => (d.call, d.result)) base
  calls : ∀ t, callsOf t order = callsOf t cfg.log ∨ ∃ task r, cfg.task t = some task ∧
    callsOf t order = callsOf t cfg.log ++ [⟨t, task.call, r, task.start⟩]
  distinct : order.Nodup
  realTime : ∀ before d later, order = before ++ d :: later →
    ∀ d' ∈ cfg.log.take d.start, d' ∈ before
  settled : (∀ t, cfg.task t = none) → cfg.state = base

/-- The call of an entry with a tag. -/
def ofTagged (e : Entry T (C × Nat) R) : Done T C R := ⟨e.1, e.2.1.1, e.2.2, e.2.1.2⟩

omit [DecidableEq T] [DecidableEq L] in
theorem ofTagged_injective : Function.Injective (ofTagged : Entry T (C × Nat) R → _) := by
  rintro ⟨t, ⟨c, k⟩, r⟩ ⟨t', ⟨c', k'⟩, r'⟩ h
  simp only [ofTagged, Done.mk.injEq] at h
  obtain ⟨rfl, rfl, rfl, rfl⟩ := h
  rfl

omit [DecidableEq T] [DecidableEq L] in
theorem map_ofTagged_logged : (logged cfg.tag.log).map ofTagged = cfg.log := by
  rw [logged_tag, List.map_map]
  exact List.map_id _

omit [DecidableEq L] in
theorem callsOf_map_ofTagged (t : T) (order : List (Entry T (C × Nat) R)) :
    callsOf t (order.map ofTagged) = (entriesOf t order).map ofTagged := by
  rw [callsOf, entriesOf, List.filter_map]
  rfl

omit [DecidableEq T] [DecidableEq L] in
/-- Without tags and with the signals, the calls run one after the other as well. -/
theorem Serial.untag {order : List ((C × Nat) × R)} {s s' : σ}
    (h : Serial (fun c => (body c.1).muffle) s order s') :
    Serial body s (order.map fun e => (e.1.1, e.2)) s' := by
  induction h with
  | nil => exact Serial.nil
  | snoc _ heval ih =>
      rw [eval_muffle] at heval
      rw [List.map_append]
      exact ih.snoc heval

/-- Calls that do their work in one critical section are linearizable. -/
theorem Placed.linearizes (h : Placed g I body s₀ cfg order owner base) :
    Linearizes body s₀ cfg (order.map ofTagged) base where
  serial := by
    have hserial := h.serialised.serial.untag
    rw [List.map_map] at hserial ⊢
    exact hserial
  calls := by
    intro t
    obtain ⟨rest, hstage, hentries⟩ := h.serialised.stages t
    rw [callsOf_map_ofTagged, hentries, List.map_append, ← callsOf_map_ofTagged,
      map_ofTagged_logged]
    cases htask : cfg.task t with
    | none =>
        simp only [Config.tag, htask, Option.map_none] at hstage
        cases hstage
        exact Or.inl (List.append_nil _)
    | some task =>
        obtain ⟨c, p, k, asleep⟩ := task
        simp only [Config.tag, htask, Option.map_some] at hstage
        cases hstage with
        | entering _ _ _ => exact Or.inl (List.append_nil _)
        | inside _ _ _ => exact Or.inl (List.append_nil _)
        | leaving _ _ => exact Or.inr ⟨_, _, rfl, rfl⟩
  distinct := List.Nodup.map ofTagged_injective h.distinct
  realTime := by
    intro before d later horder d' hd'
    obtain ⟨before', rest, rfl, rfl, hrest⟩ := List.map_eq_append_iff.mp horder
    obtain ⟨e, later', rfl, rfl, rfl⟩ := List.map_eq_cons_iff.mp hrest
    have hlog : cfg.log = (logged cfg.tag.log).map ofTagged := map_ofTagged_logged.symm
    rw [hlog, ← List.map_take] at hd'
    obtain ⟨e', he', rfl⟩ := List.mem_map.mp hd'
    exact List.mem_map_of_mem (h.realTime before' e later' rfl e' he')
  settled := by
    intro hidle
    have hnone : owner = none := by
      cases owner with
      | none => rfl
      | some t =>
          obtain ⟨rest, hstage, -⟩ := h.serialised.stages t
          simp only [Config.tag, hidle t, Option.map_none] at hstage
          cases hstage with
          | idle howner => exact absurd rfl howner
    exact h.serialised.free hnone

/-- Every run of calls that do their work in one critical section can be put in a sequential order
that agrees with real time. -/
theorem Reach.linearized {allowed : C → Prop} (hreach : Reach body s₀ (Starts allowed) cfg)
    (hI : I s₀) (hbody : ∀ c, allowed c → Enters g I (body c)) :
    ∃ order base, Linearizes body s₀ cfg order base := by
  have hplaced : ∃ order owner base, Placed g I body s₀ cfg order owner base := by
    refine hreach.invariant (P := fun cfg => ∃ order owner base,
      Placed g I body s₀ cfg order owner base) ⟨_, _, _, Placed.init hI⟩ ?_
    rintro cfg t cfg' ⟨order, owner, base, h⟩ hstep hstarts
    exact h.step hbody hstep hstarts
  obtain ⟨order, owner, base, h⟩ := hplaced
  exact ⟨_, _, h.linearizes⟩

end

end TecnicoFS.Threads
