import TecnicoFS.Lib.Soundness
import Mathlib.Algebra.Order.BigOperators.Group.Finset
import Mathlib.Data.DFinsupp.WellFounded
import Mathlib.SetTheory.Cardinal.Order

/-!
# Running calls return

Threads that take locks in the order of a rank, and only give back what they hold, never stand
still: some call can go on, or what is left sleeps in a wait or stands behind a sleeper
(`Orderly.goesOn`). They do not run forever either, since every step takes something off what is
left of the programs (`continues_wellFounded`). So when no new call is made, every schedule
leads to such an end (`Orderly.inevitable`).
-/

namespace TecnicoFS.Threads

variable {T σ L V C R α β : Type}

/-! ## What every continuation leads to -/

/-- However the steps are chosen, they lead to the goal. -/
inductive Inevitable (step : α → α → Prop) (goal : α → Prop) : α → Prop
  | done {a : α} (h : goal a) : Inevitable step goal a
  | later {a : α} (hgo : ∃ b, step a b) (hall : ∀ b, step a b → Inevitable step goal b) :
      Inevitable step goal a

/-- Steps that cannot go on forever, and can go on until the goal, lead to the goal. -/
theorem inevitable_of_wellFounded {step : α → α → Prop} {inv goal : α → Prop}
    (hwf : WellFounded fun b a => step a b) (hinv : ∀ a b, inv a → step a b → inv b)
    (hgo : ∀ a, inv a → goal a ∨ ∃ b, step a b) {a : α} (h : inv a) :
    Inevitable step goal a := by
  induction a using hwf.induction with
  | h a ih =>
      obtain hgoal | hstep := hgo a h
      · exact Inevitable.done hgoal
      · exact Inevitable.later hstep fun b hb => ih b hb (hinv a b h hb)

theorem Inevitable.mono {step : α → α → Prop} {goal goal' : α → Prop} {a : α}
    (h : Inevitable step goal a) (hgoal : ∀ a, goal a → goal' a) : Inevitable step goal' a := by
  induction h with
  | done h => exact Inevitable.done (hgoal _ h)
  | later hgo _ ih => exact Inevitable.later hgo ih

/-! ## What is left of a program -/

namespace Prog

/-- What is left of a program after one of its steps. -/
inductive After : Prog σ L V α → Prog σ L V α → Prop
  | acquire {l : L} {m : Mode} {next : Prog σ L V α} : After next (.acquire l m next)
  | release {l : L} {next : Prog σ L V α} : After next (.release l next)
  | act {e : σ → Option σ} {next : σ → Prog σ L V α} (s : σ) : After (next s) (.act e next)
  | signal {v : V} {next : Prog σ L V α} : After next (.signal v next)
  | await {v : V} {l : L} {ready : σ → Bool} {next : Prog σ L V α} :
      After next (.await v l ready next)

/-- Programs are finite along every path. -/
theorem after_wellFounded : WellFounded (After : Prog σ L V α → Prog σ L V α → Prop) := by
  constructor
  intro p
  induction p with
  | ret a =>
      constructor
      rintro q ⟨⟩
  | acquire l m next ih =>
      constructor
      rintro q ⟨⟩
      exact ih
  | release l next ih =>
      constructor
      rintro q ⟨⟩
      exact ih
  | act e next ih =>
      constructor
      intro q hq
      cases hq with
      | act s => exact ih s
  | signal v next ih =>
      constructor
      rintro q ⟨⟩
      exact ih
  | await v l ready next ih =>
      constructor
      rintro q ⟨⟩
      exact ih
  | crash =>
      constructor
      rintro q ⟨⟩

/-- A thread that takes its lock again is still in its wait. -/
def inWait : Prog σ L V α → Prog σ L V α
  | .acquire _ _ (.await v l ready next) => .await v l ready next
  | p => p

theorem inWait_after (p : Prog σ L V α) : p.inWait = p ∨ After p.inWait p := by
  unfold inWait
  split
  · exact Or.inr After.acquire
  · exact Or.inl rfl

/-- A step that does not only take the lock of a wait again goes on from the wait. -/
theorem transGen_inWait {p q : Prog σ L V α} (h : After q p) :
    Relation.TransGen After q.inWait p := by
  obtain hsame | hafter := q.inWait_after
  · rw [hsame]
    exact Relation.TransGen.single h
  · exact Relation.TransGen.head hafter (Relation.TransGen.single h)

end Prog

open Prog

/-- What is left of what a thread runs. -/
inductive Shrinks : Option (Prog σ L V R) → Option (Prog σ L V R) → Prop
  | finish {p : Prog σ L V R} : Shrinks none (some p)
  | goOn {p q : Prog σ L V R} (h : Relation.TransGen After q p) : Shrinks (some q) (some p)

theorem shrinks_wellFounded :
    WellFounded (Shrinks : Option (Prog σ L V R) → Option (Prog σ L V R) → Prop) := by
  have hnone : Acc (Shrinks : Option (Prog σ L V R) → _ → Prop) none := by
    constructor
    rintro q ⟨⟩
  constructor
  rintro (_ | p)
  · exact hnone
  · induction p using after_wellFounded.transGen.induction with
    | h p ih =>
        constructor
        intro q hq
        cases hq with
        | finish => exact hnone
        | goOn h => exact ih _ h

/-! ## Calls that go on -/

/-- How far a thread is from sleeping again. -/
def Task.rounds : Task σ L V C R → Nat
  | ⟨_, .acquire _ _ (.await _ _ _ _), _, false⟩ => 2
  | ⟨_, .await _ _ _ _, _, false⟩ => 1
  | _ => 0

namespace Config

variable (cfg : Config T σ L V C R)

/-- What the call of the thread has left to do, from its wait if it is in one. -/
def left (t : T) : Option (Prog σ L V R) := (cfg.task t).map fun task => task.prog.inWait

/-- How far the thread is from sleeping again. -/
def rounds (t : T) : Nat := (cfg.task t).elim 0 Task.rounds

end Config

section Finite

variable [DecidableEq T] [DecidableEq L] {body : C → Prog σ L V R}
  {allowed : C → σ → σ → Prop} {cfg cfg' : Config T σ L V C R} {t : T}

/-- A call that is running makes a step that it is allowed to make. No call begins, and no thread
wakes up without a signal. -/
def Continues (body : C → Prog σ L V R) (allowed : C → σ → σ → Prop)
    (cfg cfg' : Config T σ L V C R) : Prop :=
  ∃ t task, cfg.task t = some task ∧ task.asleep = false ∧ Step body cfg t cfg' ∧
    allowed task.call cfg.state cfg'.state

/-- What is left gets less: the programs, or the rounds of those that are in a wait. -/
def Lower [Fintype T] (cfg' cfg : Config T σ L V C R) : Prop :=
  Prod.Lex (Pi.Lex WellOrderingRel Shrinks) (· < ·)
    (cfg'.left, ∑ t, cfg'.rounds t) (cfg.left, ∑ t, cfg.rounds t)

variable [Fintype T]

omit [DecidableEq T] [DecidableEq L] in
theorem lower_wellFounded : WellFounded (Lower : Config T σ L V C R → Config T σ L V C R → Prop) :=
  InvImage.wf _ (WellFounded.prod_lex
    (Pi.Lex.wellFounded WellOrderingRel fun _ => shrinks_wellFounded) wellFounded_lt)

omit [DecidableEq T] [DecidableEq L] in
/-- One thread goes on in its program. -/
theorem lower_of_shrinks (hothers : ∀ u, u ≠ t → cfg'.left u = cfg.left u)
    (hshrinks : Shrinks (cfg'.left t) (cfg.left t)) : Lower cfg' cfg := by
  refine Prod.Lex.left _ _ ⟨t, fun u hu => hothers u ?_, hshrinks⟩
  rintro rfl
  exact irrefl u hu

omit [DecidableEq T] [DecidableEq L] in
/-- One thread goes on in its wait. -/
theorem lower_of_rounds (hsame : ∀ u, cfg'.left u = cfg.left u)
    (hothers : ∀ u, u ≠ t → cfg'.rounds u = cfg.rounds u) (hless : cfg'.rounds t < cfg.rounds t) :
    Lower cfg' cfg := by
  unfold Lower
  rw [funext hsame]
  refine Prod.Lex.right _ (Finset.sum_lt_sum (fun u _ => ?_) ⟨t, Finset.mem_univ t, hless⟩)
  by_cases hu : u = t
  · rw [hu]
    exact hless.le
  · exact (hothers u hu).le

omit [DecidableEq L] in
/-- The thread goes on with what comes after its step. -/
theorem lower_of_after {c : C} {k : Nat} {p q : Prog σ L V R}
    (htask : cfg.task t = some ⟨c, p, k, false⟩) (hp : p.inWait = p) (hafter : After q p)
    (hput : cfg'.task = (cfg.put t ⟨c, q, k, false⟩).task) : Lower cfg' cfg := by
  refine lower_of_shrinks (t := t) (fun u hu => ?_) ?_
  · unfold Config.left
    rw [hput, Config.put_task_of_ne hu]
  · unfold Config.left
    rw [hput, Config.put_task_self, htask, Option.map_some, Option.map_some, hp]
    exact Shrinks.goOn (transGen_inWait hafter)

/-- A call that goes on has less left to do. -/
theorem Continues.lower (h : Continues body allowed cfg cfg') : Lower cfg' cfg := by
  obtain ⟨t, task, htask, hawake, hstep, -⟩ := h
  cases hstep with
  | call hidle =>
      rw [hidle] at htask
      cases htask
  | finish htask' =>
      refine lower_of_shrinks (t := t) (fun u hu => ?_) ?_
      · unfold Config.left
        rw [Config.finish_task_of_ne hu]
      · unfold Config.left
        rw [Config.finish_task_self, htask']
        exact Shrinks.finish
  | @acquire c k l m next htask' _ =>
      cases next with
      | await v l' ready next =>
          -- the wait has its lock again
          refine lower_of_rounds (t := t) (fun u => ?_) (fun u hu => ?_) ?_
          · by_cases hu : u = t
            · subst hu
              simp [Config.left, htask', inWait]
            · simp [Config.left, hu]
          · simp [Config.rounds, hu]
          · simp [Config.rounds, htask', Task.rounds]
      | _ => exact lower_of_after htask' rfl After.acquire rfl
  | release htask' _ => exact lower_of_after htask' rfl After.release rfl
  | act htask' _ => exact lower_of_after htask' rfl (After.act _) rfl
  | signalNone htask' _ => exact lower_of_after htask' rfl After.signal rfl
  | @signalOne u c c' k k' v l ready next next' htask' hsleeps =>
      have hne : t ≠ u := by
        rintro rfl
        rw [htask'] at hsleeps
        cases hsleeps
      refine lower_of_shrinks (t := t) (fun u' hu' => ?_) ?_
      · by_cases hu : u' = u
        · subst hu
          simp [Config.left, hsleeps, inWait]
        · simp [Config.left, hu, hu']
      · simp only [Config.left, Config.put_task_of_ne hne, Config.put_task_self, htask',
          Option.map_some]
        exact Shrinks.goOn (transGen_inWait After.signal)
  | pass htask' _ => exact lower_of_after htask' rfl After.await rfl
  | @sleep c k v l ready next htask' _ _ =>
      refine lower_of_rounds (t := t) (fun u => ?_) (fun u hu => ?_) ?_
      · by_cases hu : u = t
        · subst hu
          simp [Config.left, htask']
        · simp [Config.left, hu]
      · simp [Config.rounds, hu]
      · simp [Config.rounds, htask', Task.rounds]
  | wake htask' =>
      rw [htask'] at htask
      cases htask
      cases hawake

/-- Without new calls no run goes on forever. -/
theorem continues_wellFounded : WellFounded fun cfg' cfg : Config T σ L V C R =>
    Continues body allowed cfg cfg' :=
  Subrelation.wf Continues.lower lower_wellFounded

end Finite

/-! ## Calls that cannot go on -/

namespace Config

/-- The thread is at a step that is undefined or not allowed. -/
def Fails (allowed : C → σ → σ → Prop) (cfg : Config T σ L V C R) (t : T) : Prop :=
  ∃ task, cfg.task t = some task ∧ task.asleep = false ∧
    (task.prog = .crash ∨ ∃ e next, task.prog = .act e next ∧
      ∀ s, e cfg.state = some s → ¬ allowed task.call cfg.state s)

/-- The thread is in no call, or sleeps, or waits for a lock of low rank that is held. -/
def Rests (rank : L → Nat) (low : Nat) (cfg : Config T σ L V C R) (t : T) : Prop :=
  ∀ task, cfg.task t = some task → task.asleep = true ∨
    ∃ l, cfg.WaitsFor t l ∧ rank l < low ∧ ∃ u, cfg.Holds u l

end Config

/-- The threads take locks in the order of their rank and give back what they hold; while a
thread sleeps it holds only locks of low rank. -/
structure Orderly (rank : L → Nat) (low : Nat) (cfg : Config T σ L V C R) : Prop where
  idle : ∀ t, cfg.task t = none → cfg.held t = []
  acquire : ∀ t l, cfg.WaitsFor t l → ∀ p ∈ cfg.held t, rank p.1 < rank l
  release : ∀ t c l next k, cfg.task t = some ⟨c, .release l next, k, false⟩ →
    ∃ m, (l, m) ∈ cfg.held t
  await : ∀ t c v l ready next k, cfg.task t = some ⟨c, .await v l ready next, k, false⟩ →
    (l, .write) ∈ cfg.held t
  asleep : ∀ t task, cfg.task t = some task → task.asleep = true →
    ∀ p ∈ cfg.held t, rank p.1 < low

section Order

variable [DecidableEq T] [DecidableEq L] {body : C → Prog σ L V R}
  {allowed : C → σ → σ → Prop} {cfg cfg' : Config T σ L V C R} {t : T} {rank : L → Nat}
  {low bound : Nat}

/-- A call that nobody lets go on waits for a lock that another thread holds. -/
theorem Orderly.blocked (h : Orderly rank low cfg)
    (hallowed : ∀ c, allowed c cfg.state cfg.state)
    (hfails : ¬ cfg.Fails allowed t) (hstuck : ∀ cfg', ¬ Continues body allowed cfg cfg')
    {task : Task σ L V C R} (htask : cfg.task t = some task) (hawake : task.asleep = false) :
    ∃ l, cfg.WaitsFor t l ∧ ∃ u, cfg.Holds u l := by
  obtain ⟨c, p, k, asleep⟩ := task
  simp only at hawake
  subst hawake
  -- a step that leaves the state as it is
  have hstill : ∀ {cfg'}, Step body cfg t cfg' → cfg'.state ≠ cfg.state := by
    intro cfg' hstep hsame
    refine hstuck cfg' ⟨t, _, htask, rfl, hstep, ?_⟩
    rw [hsame]
    exact hallowed _
  cases p with
  | ret a => exact (hstill (Step.finish htask) rfl).elim
  | acquire l m next =>
      have hheld : ¬ cfg.Grants l m := fun hfree => hstill (Step.acquire htask hfree) rfl
      unfold Config.Grants at hheld
      push Not at hheld
      obtain ⟨u, m', hu, -⟩ := hheld
      exact ⟨l, ⟨c, m, next, k, htask⟩, u, m', hu⟩
  | release l next =>
      obtain ⟨m, hm⟩ := h.release t c l next k htask
      exact (hstill (Step.release htask hm) rfl).elim
  | act e next =>
      refine absurd ⟨_, htask, rfl, Or.inr ⟨e, next, rfl, fun s hs hok => ?_⟩⟩ hfails
      exact hstuck _ ⟨t, _, htask, rfl, Step.act htask hs, hok⟩
  | signal v next =>
      by_cases hasleep : cfg.Asleep v
      · obtain ⟨u, c', l, ready, next', k', hu⟩ := hasleep
        exact (hstill (Step.signalOne htask hu) rfl).elim
      · exact (hstill (Step.signalNone htask hasleep) rfl).elim
  | await v l ready next =>
      cases hready : ready cfg.state with
      | true => exact (hstill (Step.pass htask hready) rfl).elim
      | false => exact (hstill (Step.sleep htask hready (h.await _ _ _ _ _ _ _ htask)) rfl).elim
  | crash => exact absurd ⟨_, htask, rfl, Or.inl rfl⟩ hfails

/-- Some call goes on, or no thread can: then all rest. -/
theorem Orderly.goesOn (h : Orderly rank low cfg) (hbound : ∀ l, rank l < bound)
    (hallowed : ∀ c, allowed c cfg.state cfg.state) :
    ((∃ t, cfg.Fails allowed t) ∨ ∀ t, cfg.Rests rank low t) ∨
      ∃ cfg', Continues body allowed cfg cfg' := by
  by_contra hcon
  push Not at hcon
  obtain ⟨⟨hfails, hrests⟩, hstuck⟩ := hcon
  have hblocked : ∀ {t task}, cfg.task t = some task → task.asleep = false →
      ∃ l, cfg.WaitsFor t l ∧ ∃ u, cfg.Holds u l :=
    fun htask hawake => h.blocked hallowed (hfails _) hstuck htask hawake
  -- behind a lock that is not low stands a thread that waits for a higher one
  have hclimb : ∀ n, ∃ t l, cfg.WaitsFor t l ∧ low ≤ rank l ∧ n ≤ rank l := by
    intro n
    induction n with
    | zero =>
        obtain ⟨t, hrests⟩ := hrests
        unfold Config.Rests at hrests
        push Not at hrests
        obtain ⟨task, htask, hawake, hhigh⟩ := hrests
        obtain ⟨l, hwaits, u, hu⟩ := hblocked htask (by simpa using hawake)
        refine ⟨t, l, hwaits, Nat.le_of_not_lt fun hlt => ?_, Nat.zero_le _⟩
        exact hhigh l hwaits hlt u hu
    | succ n ih =>
        obtain ⟨t, l, hwaits, hlow, hle⟩ := ih
        have hwaits' := hwaits
        obtain ⟨c, m, next, k, htask⟩ := hwaits'
        obtain ⟨l', hwaits', u, m', hu⟩ := hblocked htask rfl
        have hsame : l' = l := by
          obtain ⟨c', m', next', k', htask'⟩ := hwaits'
          rw [htask] at htask'
          cases htask'
          rfl
        subst hsame
        cases hrun : cfg.task u with
        | none =>
            rw [h.idle u hrun] at hu
            cases hu
        | some task =>
            have hawake : task.asleep = false := by
              by_contra hasleep
              have hlt : rank l' < low := h.asleep u task hrun (by simpa using hasleep) _ hu
              omega
            obtain ⟨l₂, hwaits₂, -⟩ := hblocked hrun hawake
            have hlt : rank l' < rank l₂ := h.acquire u l₂ hwaits₂ _ hu
            exact ⟨u, l₂, hwaits₂, by omega, by omega⟩
  obtain ⟨t, l, -, -, hle⟩ := hclimb bound
  have hlt := hbound l
  omega

/-- Threads that stay orderly come to rest, unless one of them fails. -/
theorem Orderly.inevitable [Fintype T] {inv : Config T σ L V C R → Prop}
    (horderly : ∀ cfg, inv cfg → Orderly rank low cfg) (hbound : ∀ l, rank l < bound)
    (hallowed : ∀ cfg, inv cfg → ∀ c, allowed c cfg.state cfg.state)
    (hstep : ∀ cfg cfg', inv cfg → Continues body allowed cfg cfg' → inv cfg') (h : inv cfg) :
    Inevitable (Continues body allowed)
      (fun cfg => inv cfg ∧ ((∃ t, cfg.Fails allowed t) ∨ ∀ t, cfg.Rests rank low t)) cfg :=
  inevitable_of_wellFounded continues_wellFounded hstep
    (fun cfg hinv => ((horderly cfg hinv).goesOn hbound (hallowed cfg hinv)).imp_left fun hend =>
      ⟨hinv, hend⟩) h

omit [DecidableEq T] [DecidableEq L] in
/-- Where all rest, a lock that is held is held by a sleeper, if not by a thread that waits for a
low one of higher rank. -/
theorem Orderly.holder (h : Orderly rank low cfg) (hrests : ∀ t, cfg.Rests rank low t) {u : T}
    {l : L} (hu : cfg.Holds u l) :
    (∃ task, cfg.task u = some task ∧ task.asleep = true ∧ rank l < low) ∨
      rank l + 1 < low := by
  obtain ⟨m, hm⟩ := hu
  cases hrun : cfg.task u with
  | none =>
      rw [h.idle u hrun] at hm
      cases hm
  | some task =>
      obtain hasleep | ⟨l', hwaits, hlow, -⟩ := hrests u task hrun
      · exact Or.inl ⟨task, rfl, hasleep, h.asleep u task hrun hasleep _ hm⟩
      · have hlt : rank l < rank l' := h.acquire u l' hwaits _ hm
        exact Or.inr (by omega)

end Order

/-! ## What holds of every task -/

/-- A fact about the locks, the state and the task of every thread; a thread in no call has no
locks. -/
structure EachTask (P : List (L × Mode) → σ → Task σ L V C R → Prop)
    (cfg : Config T σ L V C R) : Prop where
  idle : ∀ t, cfg.task t = none → cfg.held t = []
  tasks : ∀ t task, cfg.task t = some task → P (cfg.held t) cfg.state task

namespace EachTask

variable {P : List (L × Mode) → σ → Task σ L V C R → Prop} {cfg : Config T σ L V C R} {t : T}

theorem init {s : σ} : EachTask P (Config.init s : Config T σ L V C R) where
  idle _ _ := rfl
  tasks t task htask := by cases htask

variable [DecidableEq T]

/-- One thread goes on; what holds of the others does not depend on the state. -/
theorem put (h : EachTask P cfg) (hstable : ∀ held s s' task, P held s task → P held s' task)
    {task : Task σ L V C R} {held : List (L × Mode)} {s : σ} (htask : P held s task) :
    EachTask P (((cfg.put t task).setHeld t held).setState s) := by
  constructor
  · intro u hu
    by_cases hut : u = t
    · subst hut
      simp at hu
    · rw [Config.setState_task, Config.setHeld_task, Config.put_task_of_ne hut] at hu
      rw [Config.setState_held, Config.setHeld_held_of_ne hut]
      exact h.idle u hu
  · intro u task' hu
    rw [Config.setState_task, Config.setHeld_task] at hu
    rw [Config.setState_held, Config.setState_state]
    by_cases hut : u = t
    · subst hut
      rw [Config.put_task_self] at hu
      cases hu
      rw [Config.setHeld_held_self]
      exact htask
    · rw [Config.put_task_of_ne hut] at hu
      rw [Config.setHeld_held_of_ne hut]
      exact hstable _ _ _ _ (h.tasks u task' hu)

/-- The thread goes on with the locks it has. -/
theorem goOn (h : EachTask P cfg) (hstable : ∀ held s s' task, P held s task → P held s' task)
    {task : Task σ L V C R} {s : σ} (htask : P (cfg.held t) s task) :
    EachTask P ((cfg.put t task).setState s) := by
  have hput := h.put (t := t) hstable htask
  have hsame : ((cfg.put t task).setHeld t (cfg.held t)).setState s =
      (cfg.put t task).setState s := by
    unfold Config.setHeld Config.put Config.setState
    simp
  rw [hsame] at hput
  exact hput

theorem finish (h : EachTask P cfg) (hheld : cfg.held t = []) {c : C} {k : Nat} {r : R} :
    EachTask P (cfg.finish t c k r) := by
  constructor
  · intro u hu
    by_cases hut : u = t
    · rw [hut]
      exact hheld
    · rw [Config.finish_task_of_ne hut] at hu
      exact h.idle u hu
  · intro u task hu
    by_cases hut : u = t
    · subst hut
      rw [Config.finish_task_self] at hu
      cases hu
    · rw [Config.finish_task_of_ne hut] at hu
      exact h.tasks u task hu

end EachTask

/-- A thread keeps the fact with each step it is allowed to make, and the others cannot break it. -/
structure Kept [DecidableEq L] (allowed : C → σ → σ → Prop)
    (P : List (L × Mode) → σ → Task σ L V C R → Prop) : Prop where
  others : ∀ {held s s' task}, P held s task → P held s' task
  finish : ∀ {held s c r k}, P held s ⟨c, .ret r, k, false⟩ → held = []
  acquire : ∀ {held s c l m next k}, P held s ⟨c, .acquire l m next, k, false⟩ →
    P ((l, m) :: held) s ⟨c, next, k, false⟩
  release : ∀ {held s c l next k}, P held s ⟨c, .release l next, k, false⟩ →
    P (dropLock l held) s ⟨c, next, k, false⟩
  act : ∀ {held s s' c e next k}, P held s ⟨c, .act e next, k, false⟩ → e s = some s' →
    allowed c s s' → P held s' ⟨c, next s, k, false⟩
  signal : ∀ {held s c v next k}, P held s ⟨c, .signal v next, k, false⟩ →
    P held s ⟨c, next, k, false⟩
  pass : ∀ {held s c v l ready next k}, P held s ⟨c, .await v l ready next, k, false⟩ →
    ready s = true → P held s ⟨c, next, k, false⟩
  sleep : ∀ {held s c v l ready next k}, P held s ⟨c, .await v l ready next, k, false⟩ →
    P (dropLock l held) s ⟨c, .await v l ready next, k, true⟩
  wake : ∀ {held s c v l ready next k}, P held s ⟨c, .await v l ready next, k, true⟩ →
    P held s ⟨c, .acquire l .write (.await v l ready next), k, false⟩

/-- The step lemma: what threads keep holds of every task after a step. -/
theorem EachTask.step [DecidableEq T] [DecidableEq L] {body : C → Prog σ L V R}
    {allowed : C → σ → σ → Prop} {P : List (L × Mode) → σ → Task σ L V C R → Prop}
    {cfg cfg' : Config T σ L V C R} {t : T} (h : EachTask P cfg) (hkept : Kept allowed P)
    (hstep : Step body cfg t cfg')
    (hcall : ∀ task, cfg.task t = none → cfg'.task t = some task →
      P [] cfg.state ⟨task.call, body task.call, task.start, false⟩)
    (hallowed : ∀ task, cfg.task t = some task → allowed task.call cfg.state cfg'.state) :
    EachTask P cfg' := by
  have hothers : ∀ held s s' task, P held s task → P held s' task := fun _ _ _ _ h => hkept.others h
  have hput : ∀ {task held}, P held cfg.state task →
      EachTask P ((cfg.put t task).setHeld t held) :=
    fun htask => h.put (s := cfg.state) hothers htask
  have hgoOn : ∀ {task}, P (cfg.held t) cfg.state task → EachTask P (cfg.put t task) :=
    fun htask => h.goOn (s := cfg.state) hothers htask
  cases hstep with
  | @call c hidle =>
      refine hgoOn ?_
      rw [h.idle t hidle]
      exact hcall _ hidle Config.put_task_self
  | finish htask => exact h.finish (hkept.finish (h.tasks t _ htask))
  | acquire htask _ => exact hput (hkept.acquire (h.tasks t _ htask))
  | release htask _ => exact hput (hkept.release (h.tasks t _ htask))
  | act htask heff =>
      exact h.goOn hothers (hkept.act (h.tasks t _ htask) heff (hallowed _ htask))
  | signalNone htask _ => exact hgoOn (hkept.signal (h.tasks t _ htask))
  | signalOne htask hsleeps =>
      have hgone := hgoOn (hkept.signal (h.tasks t _ htask))
      exact hgone.goOn (s := cfg.state) hothers (hkept.wake (h.tasks _ _ hsleeps))
  | pass htask hready => exact hgoOn (hkept.pass (h.tasks t _ htask) hready)
  | sleep htask _ _ => exact hput (hkept.sleep (h.tasks t _ htask))
  | wake htask => exact hgoOn (hkept.wake (h.tasks t _ htask))

/-! ## Programs whose text keeps the order -/

namespace Prog

/-- On every path the program takes locks in the order of their rank and releases only what it
holds, and it returns with locks in a set. It waits only if it may, with its other locks of low
rank. -/
def Climbs [DecidableEq L] (rank : L → Nat) (low : Nat) (waits : Prop)
    (Q : List (L × Mode) → Prop) : Prog σ L V α → List (L × Mode) → Prop
  | .ret _, held => Q held
  | .acquire l m next, held =>
      (∀ p ∈ held, rank p.1 < rank l) ∧ Climbs rank low waits Q next ((l, m) :: held)
  | .release l next, held =>
      (∃ m, (l, m) ∈ held) ∧ Climbs rank low waits Q next (dropLock l held)
  | .act _ next, held => ∀ s, Climbs rank low waits Q (next s) held
  | .signal _ next, held => Climbs rank low waits Q next held
  | .await _ l _ next, held =>
      waits ∧ (∃ rest, held = (l, .write) :: rest ∧
        ∀ p ∈ rest, rank p.1 < low ∧ rank p.1 < rank l) ∧ Climbs rank low waits Q next held
  | .crash, _ => True

section Rules

variable [DecidableEq L] {rank : L → Nat} {low : Nat} {waits : Prop}
  {Q Q' : List (L × Mode) → Prop} {p : Prog σ L V α} {held : List (L × Mode)}

theorem Climbs.bind {k : α → Prog σ L V β} (hp : Climbs rank low waits Q p held)
    (hk : ∀ a held, Q held → Climbs rank low waits Q' (k a) held) :
    Climbs rank low waits Q' (p.bind k) held := by
  induction p generalizing held with
  | ret a => exact hk a held hp
  | acquire l m next ih => exact ⟨hp.1, ih hp.2⟩
  | release l next ih => exact ⟨hp.1, ih hp.2⟩
  | act e next ih => exact fun s => ih s (hp s)
  | signal v next ih => exact ih hp
  | await v l ready next ih => exact ⟨hp.1, hp.2.1, ih hp.2.2⟩
  | crash => trivial

/-- The program takes only locks above a rank, and gives them all back. -/
structure Above (rank : L → Nat) (r : Nat) (p : Prog σ L V α) : Prop where
  climbs : ∀ low waits held, (∀ q ∈ held, rank q.1 < r) →
    Climbs rank low waits (fun held' => held' = held) p held

variable {r : Nat}

theorem Above.bind {k : α → Prog σ L V β} (hp : Above rank r p) (hk : ∀ a, Above rank r (k a)) :
    Above rank r (p.bind k) := by
  constructor
  intro low waits held hheld
  refine (hp.climbs low waits held hheld).bind ?_
  rintro a held' rfl
  exact (hk a).climbs low waits held' hheld

theorem above_ret (a : α) : Above rank r (ret a : Prog σ L V α) := ⟨fun _ _ _ _ => rfl⟩

theorem above_crash : Above rank r (crash : Prog σ L V α) := ⟨fun _ _ _ _ => trivial⟩

theorem above_read (f : σ → α) : Above rank r (Prog.read f : Prog σ L V α) :=
  ⟨fun _ _ _ _ _ => rfl⟩

theorem above_modify (f : σ → σ) : Above rank r (Prog.modify f : Prog σ L V Unit) :=
  ⟨fun _ _ _ _ _ => rfl⟩

theorem above_modify? (f : σ → Option σ) : Above rank r (Prog.modify? f : Prog σ L V Unit) :=
  ⟨fun _ _ _ _ _ => rfl⟩

theorem climbs_lock {l : L} {k : Unit → Prog σ L V α} (hheld : ∀ q ∈ held, rank q.1 < rank l)
    (hk : Climbs rank low waits Q (k ()) ((l, .write) :: held)) :
    Climbs rank low waits Q ((lock l).bind k) held := ⟨hheld, hk⟩

/-- The lock taken last is released. -/
theorem climbs_unlock {l : L} {m : Mode} {k : Unit → Prog σ L V α}
    (hk : Climbs rank low waits Q (k ()) held) :
    Climbs rank low waits Q ((unlock l).bind k) ((l, m) :: held) := by
  refine ⟨⟨m, List.mem_cons_self⟩, ?_⟩
  rw [dropLock_cons_self]
  exact hk

/-- A critical section: inside, only higher locks are taken. -/
theorem Above.section {l : L} {k : α → Prog σ L V β} (hp : Above rank (rank l + 1) p)
    (hl : r ≤ rank l) (hk : ∀ a, Above rank r (k a)) :
    Above rank r ((lock l).bind fun _ => p.bind fun a => (unlock l).bind fun _ => k a) := by
  constructor
  intro low waits held hheld
  refine climbs_lock (fun q hq => (hheld q hq).trans_le hl)
    ((hp.climbs low waits _ fun q hq => ?_).bind ?_)
  · obtain rfl | hq := List.mem_cons.mp hq
    · exact Nat.lt_succ_self _
    · exact Nat.lt_succ_of_lt ((hheld q hq).trans_le hl)
  · rintro a held' rfl
    exact climbs_unlock ((hk a).climbs low waits held hheld)

end Rules

end Prog

/-- What is left of a task keeps the order. -/
def TaskClimbs [DecidableEq L] (rank : L → Nat) (low : Nat) (waits : C → Prop)
    (held : List (L × Mode)) : Task σ L V C R → Prop
  | ⟨c, p, _, false⟩ => Climbs rank low (waits c) (fun held => held = []) p held
  | ⟨c, .await _ l _ next, _, true⟩ =>
      waits c ∧ (∀ p ∈ held, rank p.1 < low ∧ rank p.1 < rank l) ∧
        Climbs rank low (waits c) (fun held => held = []) next ((l, .write) :: held)
  | ⟨_, _, _, true⟩ => False

theorem taskClimbs_kept [DecidableEq L] {rank : L → Nat} {low : Nat} {waits : C → Prop} :
    Kept (fun _ _ _ => True) fun held (_ : σ) (task : Task σ L V C R) =>
      TaskClimbs rank low waits held task where
  others h := h
  finish h := h
  acquire h := h.2
  release h := h.2
  act h _ _ := h _
  signal h := h
  pass h _ := h.2.2
  sleep := by
    rintro held s c v l ready next k ⟨hmay, ⟨rest, rfl, hbelow⟩, hnext⟩
    rw [dropLock_cons_self]
    exact ⟨hmay, hbelow, hnext⟩
  wake := by
    rintro held s c v l ready next k ⟨hmay, hbelow, hnext⟩
    exact ⟨fun p hp => (hbelow p hp).2, hmay, ⟨held, rfl, hbelow⟩, hnext⟩

section Climbing

variable [DecidableEq T] [DecidableEq L] {body : C → Prog σ L V R} {rank : L → Nat} {low : Nat}
  {waits : C → Prop} {allowed : C → σ → σ → Prop} {cfg cfg' : Config T σ L V C R} {t : T}

/-- What is left of every call keeps the order. -/
abbrev Climbing (rank : L → Nat) (low : Nat) (waits : C → Prop) (cfg : Config T σ L V C R) :
    Prop :=
  EachTask (fun held _ task => TaskClimbs rank low waits held task) cfg

namespace Climbing

theorem step (h : Climbing rank low waits cfg)
    (hbody : ∀ c, Climbs rank low (waits c) (fun held => held = []) (body c) [])
    (hstep : Step body cfg t cfg') : Climbing rank low waits cfg' :=
  EachTask.step h taskClimbs_kept hstep (fun task _ _ => hbody task.call) fun _ _ => trivial

omit [DecidableEq T] in
/-- Only calls that may wait sleep. -/
theorem waits_of_asleep (h : Climbing rank low waits cfg) {task : Task σ L V C R}
    (htask : cfg.task t = some task) (hasleep : task.asleep = true) : waits task.call := by
  have hclimbs := h.tasks t task htask
  obtain ⟨c, p, k, asleep⟩ := task
  simp only at hasleep
  subst hasleep
  cases p with
  | await v l ready next => exact hclimbs.1
  | _ => exact hclimbs.elim

omit [DecidableEq T] in
theorem orderly (h : Climbing rank low waits cfg) : Orderly rank low cfg where
  idle := h.idle
  acquire := by
    rintro t l ⟨c, m, next, k, htask⟩
    exact (h.tasks t _ htask).1
  release t c l next k htask := (h.tasks t _ htask).1
  await := by
    intro t c v l ready next k htask
    obtain ⟨-, ⟨rest, hheld, -⟩, -⟩ := h.tasks t _ htask
    rw [hheld]
    exact List.mem_cons_self
  asleep := by
    intro t task htask hasleep p hp
    have hclimbs := h.tasks t task htask
    obtain ⟨c, q, k, asleep⟩ := task
    simp only at hasleep
    subst hasleep
    cases q with
    | await v l ready next => exact (hclimbs.2.1 p hp).1
    | _ => exact hclimbs.elim

end Climbing

end Climbing

end TecnicoFS.Threads
