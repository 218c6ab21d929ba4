import TecnicoFS.Lib.Threads
import Mathlib.Data.Fintype.Basic

/-!
# Schedules

A schedule is a list of moves: which thread steps next, and what it calls if it is idle. It
plays a run that can be evaluated; every run it plays is a run of the threads
(`play_reach`). Signals and waits have no choice to make here: a move that would wake a
thread is not played.
-/

namespace TecnicoFS.Threads

variable {T σ L V C R : Type} [DecidableEq T] [Fintype T] [DecidableEq L]

/-- A move: the thread, and the call it makes if it is idle. -/
abbrev Move (T C : Type) := T × Option C

/-- Nobody is inside a wait. -/
def Config.allAwake (cfg : Config T σ L V C R) : Bool :=
  decide (∀ u, ((cfg.task u).map Task.asleep).getD false = false)

/-- The lock can be given in this mode. -/
def Config.grants (cfg : Config T σ L V C R) (l : L) (m : Mode) : Bool :=
  decide (∀ u, ∀ p ∈ cfg.held u, p.1 = l → m = .read ∧ p.2 = .read)

/-- The configuration after a move, if the thread can make it. -/
def Config.move (body : C → Prog σ L V R) (cfg : Config T σ L V C R) (t : T)
    (choice : Option C) : Option (Config T σ L V C R) :=
  match cfg.task t with
  | none => choice.map fun c => cfg.put t ⟨c, body c, cfg.log.length, false⟩
  | some ⟨c, .ret r, k, false⟩ => some (cfg.finish t c k r)
  | some ⟨c, .acquire l m next, k, false⟩ =>
      if cfg.grants l m then
        some ((cfg.put t ⟨c, next, k, false⟩).setHeld t ((l, m) :: cfg.held t))
      else none
  | some ⟨c, .release l next, k, false⟩ =>
      if l ∈ (cfg.held t).map Prod.fst then
        some ((cfg.put t ⟨c, next, k, false⟩).setHeld t (dropLock l (cfg.held t)))
      else none
  | some ⟨c, .act e next, k, false⟩ =>
      (e cfg.state).map fun s' => (cfg.put t ⟨c, next cfg.state, k, false⟩).setState s'
  | some ⟨c, .signal _ next, k, false⟩ =>
      if cfg.allAwake then some (cfg.put t ⟨c, next, k, false⟩) else none
  | some ⟨c, .await _ _ ready next, k, false⟩ =>
      if ready cfg.state then some (cfg.put t ⟨c, next, k, false⟩) else none
  | some ⟨_, .crash, _, false⟩ => none
  | some ⟨_, _, _, true⟩ => none

/-- The moves of a schedule, each within a condition. -/
def Config.play (body : C → Prog σ L V R)
    (ok : Config T σ L V C R → T → Config T σ L V C R → Prop)
    [∀ cfg t cfg', Decidable (ok cfg t cfg')] (cfg : Config T σ L V C R) :
    List (Move T C) → Option (Config T σ L V C R)
  | [] => some cfg
  | (t, choice) :: ms =>
      match cfg.move body t choice with
      | none => none
      | some cfg' => if ok cfg t cfg' then cfg'.play body ok ms else none

variable {body : C → Prog σ L V R} {cfg cfg' : Config T σ L V C R} {v : V}

omit [DecidableEq T] [DecidableEq L] in
theorem Config.not_asleep_of_allAwake (h : cfg.allAwake = true) : ¬ cfg.Asleep v := by
  rintro ⟨u, c, l, ready, next, k, hu⟩
  have hawake := of_decide_eq_true h u
  rw [hu] at hawake
  cases hawake

omit [DecidableEq T] in
theorem Config.grants_of_grants {l : L} {m : Mode} (h : cfg.grants l m = true) :
    cfg.Grants l m := fun u m' hmem => of_decide_eq_true h u (l, m') hmem rfl

/-- A move is a step. -/
theorem Config.move_step {t : T} {choice : Option C} (h : cfg.move body t choice = some cfg') :
    Step body cfg t cfg' := by
  unfold Config.move at h
  split at h
  · rename_i hidle
    rcases Option.map_eq_some_iff.mp h with ⟨c, -, rfl⟩
    exact Step.call hidle
  · rename_i htask
    cases h
    exact Step.finish htask
  · rename_i htask
    split at h
    · rename_i hfree
      cases h
      exact Step.acquire htask (grants_of_grants hfree)
    · cases h
  · rename_i htask
    split at h
    · rename_i hheld
      rcases List.mem_map.mp hheld with ⟨⟨l', m⟩, hmem, rfl⟩
      cases h
      exact Step.release htask hmem
    · cases h
  · rename_i htask
    rcases Option.map_eq_some_iff.mp h with ⟨s', heff, rfl⟩
    exact Step.act htask heff
  · rename_i htask
    split at h
    · rename_i hawake
      cases h
      exact Step.signalNone htask (not_asleep_of_allAwake hawake)
    · cases h
  · rename_i htask
    split at h
    · rename_i hready
      cases h
      exact Step.pass htask hready
    · cases h
  · cases h
  · cases h

/-- What a schedule plays is a run. -/
theorem Reach.play {s : σ} {ok : Config T σ L V C R → T → Config T σ L V C R → Prop}
    [∀ cfg t cfg', Decidable (ok cfg t cfg')] {ms : List (Move T C)}
    (h : Reach body s ok cfg) (hplay : cfg.play body ok ms = some cfg') :
    Reach body s ok cfg' := by
  induction ms generalizing cfg with
  | nil =>
      cases hplay
      exact h
  | cons m ms ih =>
      unfold Config.play at hplay
      split at hplay
      · cases hplay
      · rename_i cfg₁ hmove
        split at hplay
        · rename_i hok
          exact ih (h.step (Config.move_step hmove) hok) hplay
        · cases hplay

end TecnicoFS.Threads
