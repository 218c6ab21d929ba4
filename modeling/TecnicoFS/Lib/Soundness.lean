import TecnicoFS.Lib.Discipline
import Mathlib.Algebra.BigOperators.Fin
import Mathlib.Data.Fintype.BigOperators
import Mathlib.Tactic.Abel

/-!
# Soundness of the locking discipline

If every call can be run under a discipline (`Meets`), then in every run each thread can go
on (`Sound`), whatever the schedule: `Sound.step` is the step lemma, with one lemma for each
kind of step, and `Reach.sound` the run lemma. The total of the books is the sum of the
balances of all threads and of what the calls that returned have left.
-/

namespace TecnicoFS.Threads

variable {T σ L V C R M : Type}

open Discipline

/-! ## What sleeping looks like from outside -/

namespace Config

variable {cfg : Config T σ L V C R} {t u : T} {c : C} {p q : Prog σ L V R} {k : Nat} {v : V}

/-- What the threads share, with the total of the books. -/
def world (cfg : Config T σ L V C R) (g : M) : World σ V M := ⟨cfg.state, cfg.Asleep, g⟩

variable [DecidableEq T]

theorem sleeps_put_of_ne {task : Task σ L V C R} (h : u ≠ t) :
    (cfg.put t task).Sleeps u v ↔ cfg.Sleeps u v := by
  simp only [Sleeps, put_task_of_ne h]

theorem not_sleeps_put_awake : ¬ (cfg.put t ⟨c, p, k, false⟩).Sleeps t v := by
  rintro ⟨c', l, ready, next, k', h⟩
  rw [put_task_self] at h
  cases h

omit [DecidableEq T] in
theorem not_sleeps_of_awake (h : cfg.task t = some ⟨c, p, k, false⟩) (v : V) :
    ¬ cfg.Sleeps t v := by
  rintro ⟨c', l, ready, next, k', h'⟩
  rw [h] at h'
  cases h'

omit [DecidableEq T] in
theorem not_sleeps_of_none (h : cfg.task t = none) (v : V) : ¬ cfg.Sleeps t v := by
  rintro ⟨c', l, ready, next, k', h'⟩
  rw [h] at h'
  cases h'

/-- A thread that is awake stays awake: the sleepers are the same. -/
theorem asleep_put_awake {task : Task σ L V C R} (h : ∀ v, ¬ cfg.Sleeps t v)
    (h' : ∀ v, ¬ (cfg.put t task).Sleeps t v) : (cfg.put t task).Asleep = cfg.Asleep := by
  funext v
  apply propext
  constructor
  · rintro ⟨u, hu⟩
    have hne : u ≠ t := fun hut => h' v (hut ▸ hu)
    exact ⟨u, (sleeps_put_of_ne hne).mp hu⟩
  · rintro ⟨u, hu⟩
    have hne : u ≠ t := fun hut => h v (hut ▸ hu)
    exact ⟨u, (sleeps_put_of_ne hne).mpr hu⟩

theorem asleep_put_of_ne {task : Task σ L V C R} (h' : ∀ v, ¬ (cfg.put t task).Sleeps t v)
    (hv : (cfg.put t task).Asleep v) : ∃ u, u ≠ t ∧ cfg.Sleeps u v := by
  rcases hv with ⟨u, hu⟩
  have hne : u ≠ t := fun hut => h' v (hut ▸ hu)
  exact ⟨u, hne, (sleeps_put_of_ne hne).mp hu⟩

theorem asleep_put_asleep {l : L} {ready : σ → Bool} {next : Prog σ L V R}
    (h : ∀ v, ¬ cfg.Sleeps t v) :
    (cfg.put t ⟨c, .await v l ready next, k, true⟩).Asleep =
      fun u => cfg.Asleep u ∨ u = v := by
  funext x
  apply propext
  constructor
  · rintro ⟨u, hu⟩
    by_cases hne : u = t
    · subst hne
      rcases hu with ⟨c', l', ready', next', k', heq⟩
      rw [put_task_self] at heq
      cases heq
      exact Or.inr rfl
    · exact Or.inl ⟨u, (sleeps_put_of_ne hne).mp hu⟩
  · rintro (⟨u, hu⟩ | rfl)
    · have hne : u ≠ t := fun hut => h x (hut ▸ hu)
      exact ⟨u, (sleeps_put_of_ne hne).mpr hu⟩
    · exact ⟨t, c, l, ready, next, k, put_task_self⟩

/-- A step of a thread that is awake before and after changes no sleeper. -/
theorem world_put_awake {g : M} (h : ∀ v, ¬ cfg.Sleeps t v) :
    (cfg.put t ⟨c, p, k, false⟩).world g = cfg.world g := by
  unfold world
  rw [asleep_put_awake h fun _ => not_sleeps_put_awake, put_state]

theorem asleep_finish {r : R} (h : ∀ v, ¬ cfg.Sleeps t v) :
    (cfg.finish t c k r).Asleep = cfg.Asleep := by
  refine funext fun v => propext ?_
  constructor
  · rintro ⟨u, c', l, ready, next, k', hu⟩
    by_cases hne : u = t
    · rw [hne, finish_task_self] at hu
      cases hu
    · rw [finish_task_of_ne hne] at hu
      exact ⟨u, c', l, ready, next, k', hu⟩
  · rintro ⟨u, hu⟩
    have hne : u ≠ t := fun hut => h v (hut ▸ hu)
    rcases hu with ⟨c', l, ready, next, k', hu⟩
    exact ⟨u, c', l, ready, next, k', by rw [finish_task_of_ne hne, hu]⟩

theorem world_finish {r : R} {g : M} (h : ∀ v, ¬ cfg.Sleeps t v) :
    (cfg.finish t c k r).world g = cfg.world g := by
  unfold world
  rw [asleep_finish h, finish_state]

end Config

/-! ## Sound configurations -/

/-- What the calls promise under a discipline. `post` sees the calls that had returned when
the call started, `J` relates all that have returned to the state. -/
structure Contract (T σ L V C R M : Type) where
  allowed : C → Prop
  may : C → σ → σ → Prop
  post : C → List (Done T C R) → R → World σ V M → Prop
  weight : C → R → M
  J : List (Done T C R) → World σ V M → Prop

namespace Contract

variable (K : Contract T σ L V C R M)

/-- A call returns without locks, with its balance accounted for. -/
def Post [AddCommMonoid M] (c : C) (before : List (Done T C R)) (r : R)
    (held : List (L × Mode)) (b : M) (w : World σ V M) : Prop :=
  held = [] ∧ b = K.weight c r ∧ K.post c before r w

/-- What the calls that returned have left in the books. -/
def settled [AddCommMonoid M] (log : List (Done T C R)) : M :=
  (log.map fun d => K.weight d.call d.result).sum

end Contract

/-- The calls meet the contract under the discipline. -/
structure Meets [DecidableEq L] [AddCommMonoid M] (D : Discipline σ L V M)
    (K : Contract T σ L V C R M) (body : C → Prog σ L V R) : Prop where
  start : ∀ c log w rest, K.allowed c → D.inv w → K.J log w →
    w.total = K.settled log + rest →
    wp D (K.may c) (K.Post c log) (body c) [] 0 w
  done : ∀ {t c log before r w}, D.inv w → K.J log w → before <+: log → K.post c before r w →
    K.J (log ++ [⟨t, c, r, before.length⟩]) w
  J_guar : ∀ {held log w w'}, D.inv w → D.inv w' → D.guar held w w' →
    w'.total = w.total + D.entry w.state w'.state → K.J log w → K.J log w'
  J_quieter : ∀ {log w w'}, D.inv w → World.Quieter w w' → K.J log w → K.J log w'
  single : D.single → ∀ w x y z, D.inv w → D.waiter x → D.waiter y →
    w.total ≠ x + (y + z)

section Tasks

variable [DecidableEq L] [AddCommMonoid M] {D : Discipline σ L V M}
  {K : Contract T σ L V C R M}

/-- What is left of a task can be run. -/
def TaskWp (D : Discipline σ L V M) (K : Contract T σ L V C R M) (log : List (Done T C R))
    (held : List (L × Mode)) (b : M) (w : World σ V M) : Task σ L V C R → Prop
  | ⟨c, p, k, false⟩ => wp D (K.may c) (K.Post c (log.take k)) p held b w
  | ⟨c, .await v l ready next, k, true⟩ =>
      D.waiter b ∧ D.order held l ∧
        AwaitSpec D v l ready held
          (wp D (K.may c) (K.Post c (log.take k)) next ((l, .write) :: held) b)
  | ⟨_, _, _, true⟩ => False

theorem TaskWp.rely {log : List (Done T C R)} {held : List (L × Mode)} {b : M}
    {w w' : World σ V M} {task : Task σ L V C R} (h : TaskWp D K log held b w task)
    (hrely : D.Rely held w w') : TaskWp D K log held b w' task := by
  rcases task with ⟨c, p, k, asleep⟩
  cases asleep with
  | false => exact wp.rely h hrely
  | true =>
      cases p with
      | await v l ready next => exact h
      | _ => exact h.elim

theorem TaskWp.grow {log log' : List (Done T C R)} {held : List (L × Mode)} {b : M}
    {w : World σ V M} {task : Task σ L V C R} (h : TaskWp D K log held b w task)
    (hle : task.start ≤ log.length) (hpre : log <+: log') :
    TaskWp D K log' held b w task := by
  rcases hpre with ⟨rest, rfl⟩
  have htake : (log ++ rest).take task.start = log.take task.start :=
    List.take_append_of_le_length hle
  rcases task with ⟨c, p, k, asleep⟩
  simp only at htake
  cases asleep with
  | false => simpa only [TaskWp, htake] using h
  | true =>
      cases p with
      | await v l ready next => simpa only [TaskWp, htake] using h
      | _ => exact h.elim

end Tasks

section Soundness

variable [DecidableEq T] [Fintype T] [DecidableEq L] [AddCommMonoid M]
  {D : Discipline σ L V M} {K : Contract T σ L V C R M} {body : C → Prog σ L V R}

/-- A configuration in which every thread can go on under the discipline. -/
structure Sound (D : Discipline σ L V M) (K : Contract T σ L V C R M)
    (cfg : Config T σ L V C R) (b : T → M) (g : M) : Prop where
  inv : D.inv (cfg.world g)
  compat : ∀ t u, t ≠ u → D.Compat (cfg.held t) (cfg.held u)
  free : ∀ l, cfg.Unwritten l → D.lockInv l (cfg.world g)
  started : ∀ t task, cfg.task t = some task → task.start ≤ cfg.log.length
  tasks : ∀ t task, cfg.task t = some task →
    TaskWp D K cfg.log (cfg.held t) (b t) (cfg.world g) task
  idle : ∀ t, cfg.task t = none → cfg.held t = [] ∧ b t = 0
  log : K.J cfg.log (cfg.world g)
  books : g = K.settled cfg.log + ∑ t, b t

/-- The condition on steps under which the discipline is followed. -/
structure Follows (D : Discipline σ L V M) (K : Contract T σ L V C R M)
    (cfg : Config T σ L V C R) (t : T) (cfg' : Config T σ L V C R) : Prop where
  calls : ∀ task, cfg.task t = none → cfg'.task t = some task → K.allowed task.call
  may : ∀ task, cfg.task t = some task → K.may task.call cfg.state cfg'.state
  alone : ∀ l, cfg'.held t = (l, .read) :: cfg.held t → ¬ D.shared l →
    ∀ u m, (l, m) ∉ cfg.held u

namespace Sound

variable {cfg cfg' : Config T σ L V C R} {b : T → M} {g g' : M} {t u : T}

omit [DecidableEq T] in
theorem init {s : σ} (hinv : D.inv (World.start s)) (hlocks : ∀ l, D.lockInv l (World.start s))
    (hJ : K.J [] (World.start s)) :
    Sound D K (Config.init s : Config T σ L V C R) (fun _ => 0) 0 := by
  have hworld : (Config.init s : Config T σ L V C R).world (0 : M) = World.start s := by
    have hnone : (Config.init s : Config T σ L V C R).Asleep = fun _ => False := by
      funext v
      apply propext
      refine iff_of_false ?_ not_false
      rintro ⟨t, c, l, ready, next, k, h⟩
      cases h
    rw [Config.world, hnone]
    rfl
  refine
    { inv := by rw [hworld]; exact hinv
      compat := fun t u _ l m m' h => absurd h List.not_mem_nil
      free := fun l _ => by rw [hworld]; exact hlocks l
      started := fun t task h => by cases h
      tasks := fun t task h => by cases h
      idle := fun t _ => ⟨rfl, rfl⟩
      log := by rw [hworld]; exact hJ
      books := ?_ }
  simp [Config.init, Contract.settled]

/-- One thread has changed its task, its locks or the state. -/
theorem update (h : Sound D K cfg b g) {x : M}
    (hother : ∀ u, u ≠ t → cfg'.task u = cfg.task u ∧ cfg'.held u = cfg.held u)
    (hinv : D.inv (cfg'.world g'))
    (hedge : (D.guar (cfg.held t) (cfg.world g) (cfg'.world g') ∧
        g' = g + D.entry cfg.state cfg'.state) ∨
      World.Quieter (cfg.world g) (cfg'.world g'))
    (hcompat : ∀ u, u ≠ t → D.Compat (cfg'.held t) (cfg.held u))
    (hfree : ∀ l, cfg'.Unwritten l → D.lockInv l (cfg'.world g'))
    (hlog : cfg.log <+: cfg'.log) (hJ : K.J cfg'.log (cfg'.world g'))
    (htask : ∀ task, cfg'.task t = some task → task.start ≤ cfg'.log.length ∧
      TaskWp D K cfg'.log (cfg'.held t) x (cfg'.world g') task)
    (hidle : cfg'.task t = none → cfg'.held t = [] ∧ x = 0)
    (hbooks : ∀ rest, g = K.settled cfg.log + (b t + rest) →
      g' = K.settled cfg'.log + (x + rest)) :
    Sound D K cfg' (Function.update b t x) g' := by
  have hrely : ∀ u, u ≠ t → D.Rely (cfg.held u) (cfg.world g) (cfg'.world g') := by
    intro u hne
    refine Relation.ReflTransGen.single ⟨h.inv, hinv, ?_⟩
    rcases hedge with ⟨hguar, htotal⟩ | hquiet
    · exact Or.inl ⟨cfg.held t, h.compat t u (Ne.symm hne), hguar, htotal⟩
    · exact Or.inr hquiet
  refine
    { inv := hinv
      compat := ?_
      free := hfree
      started := ?_
      tasks := ?_
      idle := ?_
      log := hJ
      books := ?_ }
  -- for every thread: `t` has the new state, the others see a step of their rely
  · intro u v hne
    by_cases hu : u = t
    · subst hu
      rw [(hother v (Ne.symm hne)).2]
      exact hcompat v (Ne.symm hne)
    · rw [(hother u hu).2]
      by_cases hv : v = t
      · subst hv
        exact (hcompat u hu).symm
      · rw [(hother v hv).2]
        exact h.compat u v hne
  · intro u task hu
    by_cases hut : u = t
    · subst hut
      exact (htask task hu).1
    · rw [(hother u hut).1] at hu
      exact (h.started u task hu).trans hlog.length_le
  · intro u task hu
    by_cases hut : u = t
    · subst hut
      rw [Function.update_self]
      exact (htask task hu).2
    · rw [(hother u hut).1] at hu
      rw [(hother u hut).2, Function.update_of_ne hut]
      exact ((h.tasks u task hu).rely (hrely u hut)).grow (h.started u task hu) hlog
  · intro u hu
    by_cases hut : u = t
    · subst hut
      rw [Function.update_self]
      exact hidle hu
    · rw [(hother u hut).1] at hu
      rw [(hother u hut).2, Function.update_of_ne hut]
      exact h.idle u hu
  -- the books are those of the other threads and of `t`
  · have hsum : ∑ u, b u = b t + ∑ u ∈ Finset.univ.erase t, b u :=
      (Finset.add_sum_erase _ _ (Finset.mem_univ t)).symm
    have hsum' : ∑ u, Function.update b t x u = x + ∑ u ∈ Finset.univ.erase t, b u := by
      rw [← Finset.add_sum_erase _ _ (Finset.mem_univ t), Function.update_self]
      congr 1
      refine Finset.sum_congr rfl fun u hu => ?_
      rw [Function.update_of_ne (Finset.ne_of_mem_erase hu)]
    have hold := h.books
    rw [hsum] at hold
    rw [hsum']
    exact hbooks _ hold

/-! ### The step lemma, one case for each kind of step -/

theorem call (h : Sound D K cfg b g) (hmeets : Meets D K body) {c : C}
    (hidle : cfg.task t = none) (hallowed : K.allowed c) :
    ∃ b' g', Sound D K (cfg.put t ⟨c, body c, cfg.log.length, false⟩) b' g' := by
  have hworld : (cfg.put t ⟨c, body c, cfg.log.length, false⟩).world g = cfg.world g :=
    Config.world_put_awake (Config.not_sleeps_of_none hidle)
  have hzero := (h.idle t hidle).2
  refine ⟨_, g, h.update (x := 0) (fun u hu => ⟨Config.put_task_of_ne hu, rfl⟩) ?_ ?_ ?_ ?_ ?_ ?_
    ?_ ?_ ?_⟩
  · rw [hworld]
    exact h.inv
  · rw [hworld]
    exact Or.inr World.Quieter.refl
  · exact fun u hu => h.compat t u (Ne.symm hu)
  · rw [hworld]
    exact h.free
  · exact List.prefix_rfl
  · rw [hworld]
    exact h.log
  · intro task htask
    rw [Config.put_task_self] at htask
    cases htask
    refine ⟨le_rfl, ?_⟩
    rw [hworld, Config.put_held, (h.idle t hidle).1]
    simp only [TaskWp, Config.put_log, List.take_length]
    exact hmeets.start c cfg.log _ _ hallowed h.inv h.log h.books
  · intro hnone
    rw [Config.put_task_self] at hnone
    cases hnone
  · intro rest hrest
    rw [hzero] at hrest
    exact hrest

theorem finish (h : Sound D K cfg b g) (hmeets : Meets D K body) {c : C} {k : Nat} {r : R}
    (htask : cfg.task t = some ⟨c, .ret r, k, false⟩) :
    ∃ b' g', Sound D K (cfg.finish t c k r) b' g' := by
  have hworld : (cfg.finish t c k r).world g = (cfg.world g) :=
    Config.world_finish (Config.not_sleeps_of_awake htask)
  have hstart : k ≤ cfg.log.length := h.started t _ htask
  have hpost : K.Post c (cfg.log.take k) r (cfg.held t) (b t) (cfg.world g) :=
    Later.now (h.tasks t _ htask) h.inv
  rcases hpost with ⟨hheld, hweight, hpost⟩
  have hlen : (cfg.log.take k).length = k := List.length_take_of_le hstart
  refine ⟨_, g, h.update (x := 0) (fun u hu => ⟨Config.finish_task_of_ne hu, rfl⟩) ?_ ?_ ?_ ?_ ?_
    ?_ ?_ ?_ ?_⟩
  · rw [hworld]
    exact h.inv
  · rw [hworld]
    exact Or.inr World.Quieter.refl
  · exact fun u hu => h.compat t u (Ne.symm hu)
  · rw [hworld]
    exact h.free
  · exact List.prefix_append _ _
  · rw [hworld, Config.finish_log]
    have hJ : K.J (cfg.log ++ [⟨t, c, r, (cfg.log.take k).length⟩]) (cfg.world g) :=
      hmeets.done h.inv h.log (List.take_prefix k cfg.log) hpost
    rwa [hlen] at hJ
  · intro task hnone
    rw [Config.finish_task_self] at hnone
    cases hnone
  · exact fun _ => ⟨hheld, rfl⟩
  · intro rest hrest
    rw [hweight] at hrest
    rw [Config.finish_log, hrest]
    simp only [Contract.settled, List.map_append, List.sum_append, List.map_cons, List.map_nil,
      List.sum_cons, List.sum_nil]
    abel

theorem acquire (h : Sound D K cfg b g) {c : C} {k : Nat} {l : L} {m : Mode}
    {next : Prog σ L V R} (htask : cfg.task t = some ⟨c, .acquire l m next, k, false⟩)
    (hfree : cfg.Grants l m) (halone : m = .read → ¬ D.shared l → ∀ u m, (l, m) ∉ cfg.held u) :
    ∃ b' g', Sound D K
      ((cfg.put t ⟨c, next, k, false⟩).setHeld t ((l, m) :: cfg.held t)) b' g' := by
  have hworld : ((cfg.put t ⟨c, next, k, false⟩).setHeld t ((l, m) :: cfg.held t)).world g =
      (cfg.world g) := Config.world_put_awake (Config.not_sleeps_of_awake htask)
  have hstart : k ≤ cfg.log.length := h.started t _ htask
  have hwp := Later.now (h.tasks t _ htask) h.inv
  -- nobody holds the lock for writing, so what it protects is in order
  have hlock : D.lockInv l (cfg.world g) := by
    refine h.free l fun u hu => ?_
    have hread := (hfree u .write hu).2
    cases hread
  refine ⟨_, g, h.update (x := b t)
    (fun u hu => ⟨Config.put_task_of_ne hu, Config.setHeld_held_of_ne hu⟩) ?_ ?_ ?_ ?_ ?_ ?_ ?_
    ?_ ?_⟩
  · rw [hworld]
    exact h.inv
  · rw [hworld]
    exact Or.inr World.Quieter.refl
  -- a lock that two threads hold is shared, and both read
  · intro u hu l' m' m'' hmem hmem'
    rw [Config.setHeld_held_self] at hmem
    rcases List.mem_cons.mp hmem with heq | hmem
    · rcases Prod.mk.inj heq with ⟨rfl, rfl⟩
      rcases hfree u m'' hmem' with ⟨rfl, rfl⟩
      refine ⟨rfl, rfl, ?_⟩
      by_contra hshared
      exact halone rfl hshared u .read hmem'
    · exact h.compat t u (Ne.symm hu) l' m' m'' hmem hmem'
  · intro l' hl'
    rw [hworld]
    refine h.free l' fun u hu => hl' u ?_
    by_cases hut : u = t
    · subst hut
      rw [Config.setHeld_held_self]
      exact List.mem_cons_of_mem _ hu
    · rw [Config.setHeld_held_of_ne hut]
      exact hu
  · exact List.prefix_rfl
  · rw [hworld]
    exact h.log
  · intro task hsome
    rw [Config.setHeld_task, Config.put_task_self] at hsome
    cases hsome
    refine ⟨hstart, ?_⟩
    rw [hworld, Config.setHeld_held_self]
    exact hwp.2 hlock
  · intro hnone
    rw [Config.setHeld_task, Config.put_task_self] at hnone
    cases hnone
  · exact fun rest hrest => hrest

theorem release (h : Sound D K cfg b g) {c : C} {k : Nat} {l : L} {next : Prog σ L V R}
    (htask : cfg.task t = some ⟨c, .release l next, k, false⟩) :
    ∃ b' g', Sound D K
      ((cfg.put t ⟨c, next, k, false⟩).setHeld t (dropLock l (cfg.held t))) b' g' := by
  have hworld : ((cfg.put t ⟨c, next, k, false⟩).setHeld t (dropLock l (cfg.held t))).world g =
      (cfg.world g) := Config.world_put_awake (Config.not_sleeps_of_awake htask)
  have hstart : k ≤ cfg.log.length := h.started t _ htask
  have hwp := Later.now (h.tasks t _ htask) h.inv
  refine ⟨_, g, h.update (x := b t)
    (fun u hu => ⟨Config.put_task_of_ne hu, Config.setHeld_held_of_ne hu⟩) ?_ ?_ ?_ ?_ ?_ ?_ ?_
    ?_ ?_⟩
  · rw [hworld]
    exact h.inv
  · rw [hworld]
    exact Or.inr World.Quieter.refl
  · intro u hu l' m' m'' hmem hmem'
    rw [Config.setHeld_held_self] at hmem
    exact h.compat t u (Ne.symm hu) l' m' m'' (mem_of_mem_dropLock hmem) hmem'
  · intro l' hl'
    rw [hworld]
    -- either the lock was free before, or it is the one that is released now
    by_cases hheld : (l', .write) ∈ cfg.held t
    · by_cases hll : l' = l
      · subst hll
        exact hwp.1 hheld
      · refine absurd ?_ (hl' t)
        rw [Config.setHeld_held_self]
        exact mem_dropLock_of_ne hheld hll
    · refine h.free l' fun u hu => ?_
      by_cases hut : u = t
      · exact hheld (hut ▸ hu)
      · refine hl' u ?_
        rw [Config.setHeld_held_of_ne hut]
        exact hu
  · exact List.prefix_rfl
  · rw [hworld]
    exact h.log
  · intro task hsome
    rw [Config.setHeld_task, Config.put_task_self] at hsome
    cases hsome
    refine ⟨hstart, ?_⟩
    rw [hworld, Config.setHeld_held_self]
    exact hwp.2
  · intro hnone
    rw [Config.setHeld_task, Config.put_task_self] at hnone
    cases hnone
  · exact fun rest hrest => hrest

theorem act (h : Sound D K cfg b g) (hmeets : Meets D K body) {c : C} {k : Nat}
    {e : σ → Option σ} {next : σ → Prog σ L V R} {s' : σ}
    (htask : cfg.task t = some ⟨c, .act e next, k, false⟩) (heff : e cfg.state = some s')
    (hmay : K.may c cfg.state s') :
    ∃ b' g', Sound D K ((cfg.put t ⟨c, next cfg.state, k, false⟩).setState s') b' g' := by
  have hworld : ((cfg.put t ⟨c, next cfg.state, k, false⟩).setState s').world
      (g + D.entry cfg.state s') = D.after (cfg.world g) s' := by
    have hasleep : (cfg.put t ⟨c, next cfg.state, k, false⟩).Asleep = cfg.Asleep :=
      Config.asleep_put_awake (Config.not_sleeps_of_awake htask)
        fun _ => Config.not_sleeps_put_awake
    exact congrArg (fun z => World.mk s' z (g + D.entry cfg.state s')) hasleep
  have hstart : k ≤ cfg.log.length := h.started t _ htask
  -- the precondition covers every step of the others, so also the state at hand
  rcases Later.now (h.tasks t _ htask) h.inv s' heff hmay with ⟨hinv, hguar, hwp⟩
  refine ⟨_, g + D.entry cfg.state s', h.update (x := b t + D.entry cfg.state s')
    (fun u hu => ⟨Config.put_task_of_ne hu, rfl⟩) ?_ ?_ ?_ ?_ ?_ ?_ ?_ ?_ ?_⟩
  · rw [hworld]
    exact hinv
  · rw [hworld]
    exact Or.inl ⟨hguar, rfl⟩
  · exact fun u hu => h.compat t u (Ne.symm hu)
  · intro l hl
    rw [hworld]
    exact D.keeps h.inv hguar (hl t) (h.free l hl)
  · exact List.prefix_rfl
  · rw [hworld]
    exact hmeets.J_guar h.inv hinv hguar rfl h.log
  · intro task hsome
    rw [Config.setState_task, Config.put_task_self] at hsome
    cases hsome
    refine ⟨hstart, ?_⟩
    rw [hworld]
    exact hwp
  · intro hnone
    rw [Config.setState_task, Config.put_task_self] at hnone
    cases hnone
  · intro rest hrest
    rw [Config.setState_log, Config.put_log, hrest]
    abel

/-- A step of a thread that only goes on with its program. -/
theorem goOn (h : Sound D K cfg b g) {c : C} {k : Nat} {p next : Prog σ L V R}
    (htask : cfg.task t = some ⟨c, p, k, false⟩)
    (hwp : wp D (K.may c) (K.Post c (cfg.log.take k)) next (cfg.held t) (b t) (cfg.world g)) :
    ∃ b' g', Sound D K (cfg.put t ⟨c, next, k, false⟩) b' g' := by
  have hworld : (cfg.put t ⟨c, next, k, false⟩).world g = (cfg.world g) :=
    Config.world_put_awake (Config.not_sleeps_of_awake htask)
  have hstart : k ≤ cfg.log.length := h.started t _ htask
  refine ⟨_, g, h.update (x := b t) (fun u hu => ⟨Config.put_task_of_ne hu, rfl⟩) ?_ ?_ ?_ ?_ ?_
    ?_ ?_ ?_ ?_⟩
  · rw [hworld]
    exact h.inv
  · rw [hworld]
    exact Or.inr World.Quieter.refl
  · exact fun u hu => h.compat t u (Ne.symm hu)
  · rw [hworld]
    exact h.free
  · exact List.prefix_rfl
  · rw [hworld]
    exact h.log
  · intro task hsome
    rw [Config.put_task_self] at hsome
    cases hsome
    refine ⟨hstart, ?_⟩
    rw [hworld]
    exact hwp
  · intro hnone
    rw [Config.put_task_self] at hnone
    cases hnone
  · exact fun rest hrest => hrest

theorem sleep (h : Sound D K cfg b g) (hmeets : Meets D K body) {c : C} {k : Nat} {v : V}
    {l : L} {ready : σ → Bool} {next : Prog σ L V R}
    (htask : cfg.task t = some ⟨c, .await v l ready next, k, false⟩)
    (hready : ready cfg.state = false) :
    ∃ b' g', Sound D K ((cfg.put t ⟨c, .await v l ready next, k, true⟩).setHeld t
      (dropLock l (cfg.held t))) b' g' := by
  have hworld : ((cfg.put t ⟨c, .await v l ready next, k, true⟩).setHeld t
      (dropLock l (cfg.held t))).world g = (cfg.world g).sleep v := by
    have hasleep : (cfg.put t ⟨c, .await v l ready next, k, true⟩).Asleep =
        fun u => cfg.Asleep u ∨ u = v :=
      Config.asleep_put_asleep (Config.not_sleeps_of_awake htask)
    exact congrArg (fun z => World.mk cfg.state z g) hasleep
  have hstart : k ≤ cfg.log.length := h.started t _ htask
  rcases Later.now (h.tasks t _ htask) h.inv with ⟨hwait, hlock, rest, hheld, horder, hspec⟩
  rcases (hspec (cfg.world g) h.inv hlock).2 hready with ⟨hinv, hguar, hlock'⟩
  rw [← hheld] at hguar
  have htotal : g = g + D.entry cfg.state cfg.state := by rw [D.entry_self, add_zero]
  -- waiting gives the lock back, and nothing else
  have hdrop : dropLock l (cfg.held t) = rest := by rw [hheld, dropLock_cons_self]
  refine ⟨_, g, h.update (x := b t)
    (fun u hu => ⟨Config.put_task_of_ne hu, Config.setHeld_held_of_ne hu⟩) ?_ ?_ ?_ ?_ ?_ ?_ ?_
    ?_ ?_⟩
  · rw [hworld]
    exact hinv
  · rw [hworld]
    exact Or.inl ⟨hguar, htotal⟩
  · intro u hu l' m' m'' hmem hmem'
    rw [Config.setHeld_held_self] at hmem
    exact h.compat t u (Ne.symm hu) l' m' m'' (mem_of_mem_dropLock hmem) hmem'
  · intro l' hl'
    rw [hworld]
    -- the lock given back is in order; the others are as before
    by_cases hll : l' = l
    · rw [hll]
      exact hlock'
    · have hnot : (l', .write) ∉ cfg.held t := by
        intro hmem
        refine hl' t ?_
        rw [Config.setHeld_held_self]
        exact mem_dropLock_of_ne hmem hll
      refine D.keeps h.inv hguar hnot (h.free l' fun u hu => ?_)
      by_cases hut : u = t
      · exact hnot (hut ▸ hu)
      · refine hl' u ?_
        rw [Config.setHeld_held_of_ne hut]
        exact hu
  · exact List.prefix_rfl
  · rw [hworld]
    exact hmeets.J_guar h.inv hinv hguar htotal h.log
  · intro task hsome
    rw [Config.setHeld_task, Config.put_task_self] at hsome
    cases hsome
    refine ⟨hstart, ?_⟩
    rw [Config.setHeld_held_self, hdrop]
    rw [hheld] at hspec
    exact ⟨hwait, horder, hspec⟩
  · intro hnone
    rw [Config.setHeld_task, Config.put_task_self] at hnone
    cases hnone
  · exact fun rest' hrest => hrest

theorem wake (h : Sound D K cfg b g) (hmeets : Meets D K body) {c : C} {k : Nat} {v : V}
    {l : L} {ready : σ → Bool} {next : Prog σ L V R}
    (htask : cfg.task t = some ⟨c, .await v l ready next, k, true⟩) :
    ∃ b' g', Sound D K
      (cfg.put t ⟨c, .acquire l .write (.await v l ready next), k, false⟩) b' g' := by
  have hquiet : World.Quieter (cfg.world g)
      ((cfg.put t ⟨c, .acquire l .write (.await v l ready next), k, false⟩).world g) := by
    refine ⟨rfl, rfl, fun u hu => ?_⟩
    rcases Config.asleep_put_of_ne (fun _ => Config.not_sleeps_put_awake) hu with ⟨x, -, hx⟩
    exact ⟨x, hx⟩
  have hstart : k ≤ cfg.log.length := h.started t _ htask
  rcases h.tasks t _ htask with ⟨hwait, horder, hspec⟩
  refine ⟨_, g, h.update (x := b t) (fun u hu => ⟨Config.put_task_of_ne hu, rfl⟩) ?_ ?_ ?_ ?_ ?_
    ?_ ?_ ?_ ?_⟩
  · exact D.inv_quieter hquiet h.inv
  · exact Or.inr hquiet
  · exact fun u hu => h.compat t u (Ne.symm hu)
  · exact fun l' hl' => D.lockInv_quieter hquiet (h.free l' hl')
  · exact List.prefix_rfl
  · exact hmeets.J_quieter h.inv hquiet h.log
  · intro task hsome
    rw [Config.put_task_self] at hsome
    cases hsome
    exact ⟨hstart, wp_of_asleep hwait horder hspec⟩
  · intro hnone
    rw [Config.put_task_self] at hnone
    cases hnone
  · exact fun rest hrest => hrest

/-- Two threads never sleep on one condition variable. -/
theorem one_sleeper (h : Sound D K cfg b g) (hmeets : Meets D K body)
    (hsingle : D.single) {v v' : V} (ht : cfg.Sleeps t v) (hu : cfg.Sleeps u v') : t = u := by
  by_contra hne
  rcases ht with ⟨c, l, ready, next, k, ht⟩
  rcases hu with ⟨c', l', ready', next', k', hu⟩
  have hsum : ∑ x, b x = b t + (b u + ∑ x ∈ (Finset.univ.erase t).erase u, b x) := by
    rw [Finset.add_sum_erase _ _ (Finset.mem_erase.mpr ⟨Ne.symm hne, Finset.mem_univ u⟩),
      Finset.add_sum_erase _ _ (Finset.mem_univ t)]
  refine hmeets.single hsingle (cfg.world g) (b t) (b u)
    (∑ x ∈ (Finset.univ.erase t).erase u, b x + K.settled cfg.log) h.inv (h.tasks t _ ht).1
    (h.tasks u _ hu).1 ?_
  have hbooks : (cfg.world g).total = K.settled cfg.log + ∑ x, b x := h.books
  rw [hbooks, hsum]
  abel

theorem signal (h : Sound D K cfg b g) {c : C} {k : Nat} {v : V} {next : Prog σ L V R}
    (htask : cfg.task t = some ⟨c, .signal v next, k, false⟩)
    (hnone : D.single → ¬ cfg.Asleep v) :
    ∃ b' g', Sound D K (cfg.put t ⟨c, next, k, false⟩) b' g' := by
  have hwp := Later.now (h.tasks t _ htask) h.inv (cfg.world g) World.Quieter.refl hnone
  exact h.goOn htask hwp

/-- Every step keeps a configuration sound. -/
theorem step (h : Sound D K cfg b g) (hmeets : Meets D K body) (hstep : Step body cfg t cfg')
    (hfollows : Follows D K cfg t cfg') : ∃ b' g', Sound D K cfg' b' g' := by
  cases hstep with
  | @call c hidle =>
      exact h.call hmeets hidle (hfollows.calls _ hidle Config.put_task_self)
  | finish htask => exact h.finish hmeets htask
  | @acquire c k l m next htask hfree =>
      refine h.acquire htask hfree ?_
      rintro rfl
      exact hfollows.alone l Config.setHeld_held_self
  | release htask _ => exact h.release htask
  | act htask heff => exact h.act hmeets htask heff (hfollows.may _ htask)
  | signalNone htask hnone => exact h.signal htask fun _ => hnone
  | @signalOne u c c' k k' v l ready next next' htask hsleeps =>
      have hne : t ≠ u := by
        rintro rfl
        rw [htask] at hsleeps
        cases hsleeps
      have hu : cfg.Sleeps u v := ⟨c', l, ready, next', k', hsleeps⟩
      rcases h.wake hmeets hsleeps with ⟨b', g', hwake⟩
      -- the sleeper wakes up first, and the signal then finds nobody else
      have htask' : (cfg.put u ⟨c', .acquire l .write (.await v l ready next'), k',
          false⟩).task t = some ⟨c, .signal v next, k, false⟩ := by
        rw [Config.put_task_of_ne hne, htask]
      have hcomm : (cfg.put t ⟨c, next, k, false⟩).put u
            ⟨c', .acquire l .write (.await v l ready next'), k', false⟩ =
          (cfg.put u ⟨c', .acquire l .write (.await v l ready next'), k', false⟩).put t
            ⟨c, next, k, false⟩ := by
        simp only [Config.put, Function.update_comm hne]
      rw [hcomm]
      refine hwake.signal htask' fun hsingle hasleep => ?_
      rcases Config.asleep_put_of_ne (fun _ => Config.not_sleeps_put_awake) hasleep with
        ⟨x, hxu, hx⟩
      exact hxu (h.one_sleeper hmeets hsingle hx hu)
  | pass htask hready =>
      rcases Later.now (h.tasks t _ htask) h.inv with ⟨-, hlock, rest, hheld, -, hspec⟩
      exact h.goOn htask ((hspec (cfg.world g) h.inv hlock).1 hready)
  | sleep htask hready _ => exact h.sleep hmeets htask hready
  | wake htask => exact h.wake hmeets htask

end Sound

/-- Every configuration of a run that follows the discipline is sound. -/
theorem Reach.sound {ok : Config T σ L V C R → T → Config T σ L V C R → Prop} {s : σ}
    {cfg : Config T σ L V C R} (h : Reach body s ok cfg) (hmeets : Meets D K body)
    (hinv : D.inv (World.start s)) (hlocks : ∀ l, D.lockInv l (World.start s))
    (hJ : K.J [] (World.start s)) (hok : ∀ cfg t cfg', ok cfg t cfg' → Follows D K cfg t cfg') :
    ∃ b g, Sound D K cfg b g := by
  refine h.invariant (P := fun cfg => ∃ b g, Sound D K cfg b g)
    ⟨_, _, Sound.init hinv hlocks hJ⟩ ?_
  rintro cfg t cfg' ⟨b, g, hsound⟩ hstep hstepok
  exact hsound.step hmeets hstep (hok cfg t cfg' hstepok)

/-! ## Lock order -/

namespace Config

/-- The next step of the thread is to take the lock. -/
def WaitsFor (cfg : Config T σ L V C R) (t : T) (l : L) : Prop :=
  ∃ c m next k, cfg.task t = some ⟨c, .acquire l m next, k, false⟩

/-- The thread holds the lock, to read or to write. -/
def Holds (cfg : Config T σ L V C R) (t : T) (l : L) : Prop := ∃ m, (l, m) ∈ cfg.held t

/-- Every thread of the set waits for a lock that a thread of the set holds. -/
def Deadlocked (cfg : Config T σ L V C R) (threads : Set T) : Prop :=
  ∀ t ∈ threads, ∃ l, cfg.WaitsFor t l ∧ ∃ u ∈ threads, cfg.Holds u l

end Config

variable {cfg : Config T σ L V C R} {b : T → M} {g : M}

omit [DecidableEq T] in
/-- A thread only waits for a lock it may take with those it holds. -/
theorem Sound.order {t : T} {l : L} (h : Sound D K cfg b g) (hwaits : cfg.WaitsFor t l) :
    D.order (cfg.held t) l := by
  rcases hwaits with ⟨c, m, next, k, htask⟩
  exact (Later.now (h.tasks t _ htask) h.inv).1

omit [DecidableEq T] in
/-- Locks taken in the order of a bounded rank never lead to a deadlock. -/
theorem Sound.not_deadlocked (h : Sound D K cfg b g) (rank : L → Nat) (bound : Nat)
    (hbound : ∀ l, rank l < bound)
    (horder : ∀ held l, D.order held l → ∀ p ∈ held, rank p.1 < rank l) {threads : Set T}
    (hne : threads.Nonempty) : ¬ cfg.Deadlocked threads := by
  intro hdead
  -- some thread of the set waits for a lock of arbitrarily high rank
  have hclimb : ∀ n, ∃ t ∈ threads, ∃ l, cfg.WaitsFor t l ∧ n ≤ rank l := by
    intro n
    induction n with
    | zero =>
        rcases hne with ⟨t, ht⟩
        rcases hdead t ht with ⟨l, hwaits, -⟩
        exact ⟨t, ht, l, hwaits, Nat.zero_le _⟩
    | succ n ih =>
        rcases ih with ⟨t, ht, l, hwaits, hle⟩
        rcases hdead t ht with ⟨l', hwaits', u, hu, m, hheld⟩
        have hsame : l' = l := by
          rcases hwaits with ⟨c, m, next, k, htask⟩
          rcases hwaits' with ⟨c', m', next', k', htask'⟩
          rw [htask] at htask'
          cases htask'
          rfl
        subst hsame
        rcases hdead u hu with ⟨l₂, hwaits₂, -⟩
        have hlt : rank l' < rank l₂ := horder _ _ (h.order hwaits₂) _ hheld
        exact ⟨u, hu, l₂, hwaits₂, by omega⟩
  rcases hclimb bound with ⟨t, -, l, -, hle⟩
  have hlt := hbound l
  omega

end Soundness

end TecnicoFS.Threads
