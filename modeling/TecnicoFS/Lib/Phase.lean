import TecnicoFS.Lib.Threads

/-!
# What programs do during a phase

A phase is a set of states. `Within` says what a program may still do if it goes on during the
phase: every step on the state is in a relation, and what it returns is in a set. While the
phase lasts, a step of any thread keeps this of all threads (`Settled.step`).
-/

namespace TecnicoFS.Threads

variable {T σ L V C R α β : Type}

namespace Prog

/-- During a phase the steps of the program are in a relation, and it returns in a set. -/
def Within (I : σ → Prop) (E : σ → σ → Prop) (Q : α → Prop) : Prog σ L V α → Prop
  | .ret a => Q a
  | .acquire _ _ next => Within I E Q next
  | .release _ next => Within I E Q next
  | .act e next => ∀ s, I s → (∀ s', e s = some s' → E s s') ∧ Within I E Q (next s)
  | .signal _ next => Within I E Q next
  | .await _ _ _ next => Within I E Q next
  | .crash => True

section Rules

variable {I : σ → Prop} {E : σ → σ → Prop} {Q : α → Prop} {Q' : β → Prop} {p : Prog σ L V α}
  {k : α → Prog σ L V β}

theorem Within.bind (hp : Within I E Q p) (hk : ∀ a, Q a → Within I E Q' (k a)) :
    Within I E Q' (p.bind k) := by
  induction p with
  | ret a => exact hk a hp
  | acquire l m next ih => exact ih hp
  | release l next ih => exact ih hp
  | act e next ih => exact fun s hs => ⟨(hp s hs).1, ih s (hp s hs).2⟩
  | signal v next ih => exact ih hp
  | await v l ready next ih => exact ih hp
  | crash => trivial

theorem within_lock {l : L} {k : Unit → Prog σ L V β} (hk : Within I E Q' (k ())) :
    Within I E Q' ((lock l).bind k) := hk

theorem within_unlock {l : L} {k : Unit → Prog σ L V β} (hk : Within I E Q' (k ())) :
    Within I E Q' ((unlock l).bind k) := hk

theorem within_wakeOne {v : V} {k : Unit → Prog σ L V β} (hk : Within I E Q' (k ())) :
    Within I E Q' ((wakeOne v).bind k) := hk

theorem within_read {f : σ → α} (hrefl : ∀ s, E s s) (hk : ∀ s, I s → Within I E Q' (k (f s))) :
    Within I E Q' ((Prog.read f).bind k) := by
  intro s hs
  refine ⟨fun s' hs' => ?_, hk s hs⟩
  cases hs'
  exact hrefl s

theorem within_modify {f : σ → σ} {k : Unit → Prog σ L V β} (hf : ∀ s, I s → E s (f s))
    (hk : Within I E Q' (k ())) : Within I E Q' ((Prog.modify f).bind k) := by
  intro s hs
  refine ⟨fun s' hs' => ?_, hk⟩
  cases hs'
  exact hf s hs

end Rules

end Prog

open Prog

/-- The calls of some kind go on like this. -/
def Settled (kind : C → Prop) (I : σ → Prop) (E : σ → σ → Prop) (Q : R → Prop)
    (cfg : Config T σ L V C R) : Prop :=
  ∀ t task, cfg.task t = some task → kind task.call → Within I E Q task.prog

section Steps

variable [DecidableEq T] [DecidableEq L] {body : C → Prog σ L V R} {kind : C → Prop}
  {I : σ → Prop} {E : σ → σ → Prop} {Q : R → Prop} {cfg cfg' : Config T σ L V C R} {t : T}

omit [DecidableEq L] in
theorem Settled.put (h : Settled kind I E Q cfg) {task : Task σ L V C R}
    (htask : kind task.call → Within I E Q task.prog) : Settled kind I E Q (cfg.put t task) := by
  intro u task' hu hkind
  by_cases hut : u = t
  · subst hut
    rw [Config.put_task_self] at hu
    cases hu
    exact htask hkind
  · rw [Config.put_task_of_ne hut] at hu
    exact h u task' hu hkind

omit [DecidableEq L] in
/-- The thread goes on with the rest of its call. -/
theorem Settled.goOn (h : Settled kind I E Q cfg) {c : C} {p next : Prog σ L V R} {k : Nat}
    {a a' : Bool} (htask : cfg.task t = some ⟨c, p, k, a⟩)
    (hnext : Within I E Q p → Within I E Q next) :
    Settled kind I E Q (cfg.put t ⟨c, next, k, a'⟩) :=
  h.put fun hkind => hnext (h t _ htask hkind)

/-- During the phase every step keeps what the calls do. -/
theorem Settled.step (h : Settled kind I E Q cfg) (hI : I cfg.state)
    (hbody : ∀ c, kind c → Within I E Q (body c)) (hstep : Step body cfg t cfg') :
    Settled kind I E Q cfg' := by
  cases hstep with
  | call _ => exact h.put (hbody _)
  | finish htask =>
      intro u task hu hkind
      by_cases hut : u = t
      · subst hut
        rw [Config.finish_task_self] at hu
        cases hu
      · rw [Config.finish_task_of_ne hut] at hu
        exact h u task hu hkind
  | acquire htask _ => exact h.goOn htask id
  | release htask _ => exact h.goOn htask id
  | act htask _ => exact h.goOn htask fun hp => (hp _ hI).2
  | signalNone htask _ => exact h.goOn htask id
  | @signalOne u c c' k k' v l ready next next' htask hsleeps =>
      have hself : Settled kind I E Q (cfg.put t ⟨c, next, k, false⟩) := h.goOn htask id
      have hsleeper := h u _ hsleeps
      exact hself.put hsleeper
  | pass htask _ => exact h.goOn htask id
  | sleep htask _ _ => exact h.goOn htask id
  | wake htask => exact h.goOn htask id

/-- A step of such a call is in the relation. -/
theorem Settled.effect (h : Settled kind I E Q cfg) (hI : I cfg.state) (hrefl : ∀ s, E s s)
    (hkind : ∀ task, cfg.task t = some task → kind task.call) (hstep : Step body cfg t cfg') :
    E cfg.state cfg'.state := by
  cases hstep with
  | act htask heff => exact (h t _ htask (hkind _ htask) _ hI).1 _ heff
  | _ => exact hrefl _

/-- What such a call returns is in the set. -/
theorem Settled.returns (h : Settled kind I E Q cfg) (hstep : Step body cfg t cfg')
    {d : Done T C R} (hd : d ∈ cfg'.log) (hnew : d ∉ cfg.log) (hkind : kind d.call) :
    Q d.result := by
  cases hstep with
  | finish htask =>
      rcases List.mem_append.mp hd with hold | hlast
      · exact absurd hold hnew
      · rw [List.mem_singleton] at hlast
        subst hlast
        exact h t _ htask hkind
  | _ => exact absurd hd hnew

end Steps

end TecnicoFS.Threads
