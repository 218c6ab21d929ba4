import Mathlib.Data.List.Forall2
import Mathlib.Logic.Relation

/-!
# Machines: guarded runs, invariants and simulation

A machine is a deterministic, partial step function: a call either returns a
result and a new state, or it crashes (`none`). Everything below is proved
from this definition alone.

* `Machine.Reach` is reachability under a *guard*, a condition on the calls a
  client may issue. The guard sees the history of calls and results, so that
  "a handle returned by an earlier open" is a guard.
* `Reach.invariant` is the induction over runs, packaged once.
* `run_refines` is forward simulation: two machines coupled step by step
  return the same results on every admissible list of calls.
-/

universe u v w x

/-- A machine: an initial state and a partial step function. -/
structure Machine (σ : Type u) (C : Type v) (R : Type w) where
  init : σ
  exec : σ → C → Option (R × σ)

namespace Machine

variable {σ : Type u} {C : Type v} {R : Type w} {α : Type x}

/-- A history of calls with their results, newest first. -/
abbrev Trace (C : Type v) (R : Type w) := List (C × R)

/-- What a client is allowed to call, given the history and the state. -/
abbrev Guard (σ : Type u) (C : Type v) (R : Type w) := Trace C R → σ → C → Prop

/-- One admissible call that returns. A crashing call is not a step: it ends
the run. -/
inductive Step (M : Machine σ C R) (ok : Guard σ C R) :
    Trace C R × σ → Trace C R × σ → Prop
  | call {tr : Trace C R} {s s' : σ} {c : C} {r : R} :
      ok tr s c → M.exec s c = some (r, s') → Step M ok (tr, s) ((c, r) :: tr, s')

/-- `Later`: the second configuration is reached from the first. -/
def Later (M : Machine σ C R) (ok : Guard σ C R) :
    Trace C R × σ → Trace C R × σ → Prop :=
  Relation.ReflTransGen (M.Step ok)

/-- Reachability from the initial state. -/
def Reach (M : Machine σ C R) (ok : Guard σ C R) (cfg : Trace C R × σ) : Prop :=
  M.Later ok ([], M.init) cfg

/-! ## Invariants -/

/-- A relation between an earlier and a later configuration that is reflexive
and survives one step holds along every run. -/
theorem Later.invariant {M : Machine σ C R} {ok : Guard σ C R}
    {P : Trace C R → σ → Prop} {cfg cfg' : Trace C R × σ}
    (h : M.Later ok cfg cfg') (hinit : P cfg.1 cfg.2)
    (hstep : ∀ tr s c r s', P tr s → ok tr s c → M.exec s c = some (r, s') →
      P ((c, r) :: tr) s') :
    P cfg'.1 cfg'.2 := by
  induction h with
  | refl => exact hinit
  | tail _ hs ih =>
      cases hs with
      | call hok hex => exact hstep _ _ _ _ _ ih hok hex

/-- Invariant induction over the reachable configurations. -/
theorem Reach.invariant {M : Machine σ C R} {ok : Guard σ C R}
    {P : Trace C R → σ → Prop} {tr : Trace C R} {s : σ}
    (h : M.Reach ok (tr, s)) (hinit : P [] M.init)
    (hstep : ∀ tr s c r s', P tr s → ok tr s c → M.exec s c = some (r, s') →
      P ((c, r) :: tr) s') :
    P tr s :=
  Later.invariant h hinit hstep

theorem Reach.start {M : Machine σ C R} {ok : Guard σ C R} : M.Reach ok ([], M.init) :=
  Relation.ReflTransGen.refl

/-- A run continued is a run. -/
theorem Reach.later {M : Machine σ C R} {ok : Guard σ C R}
    {cfg cfg' : Trace C R × σ} (h : M.Reach ok cfg) (hl : M.Later ok cfg cfg') :
    M.Reach ok cfg' :=
  Relation.ReflTransGen.trans h hl

/-- A call that the guard admits and that returns extends the run. -/
theorem Reach.step {M : Machine σ C R} {ok : Guard σ C R} {tr : Trace C R}
    {s s' : σ} {c : C} {r : R} (h : M.Reach ok (tr, s)) (hok : ok tr s c)
    (hex : M.exec s c = some (r, s')) : M.Reach ok ((c, r) :: tr, s') :=
  Relation.ReflTransGen.tail h (.call hok hex)

/-- A run that one guard admits is a run that a weaker one admits. -/
theorem Reach.mono {M : Machine σ C R} {ok ok' : Guard σ C R} {tr : Trace C R} {s : σ}
    (h : M.Reach ok (tr, s)) (hle : ∀ tr s c, ok tr s c → ok' tr s c) : M.Reach ok' (tr, s) :=
  h.invariant (P := fun tr s => M.Reach ok' (tr, s)) Reach.start
    fun tr s c _ _ hr hok hex => hr.step (hle tr s c hok) hex

/-! ## Running a list of calls -/

/-- Run a list of calls and collect the results; `none` if one crashes. -/
def run (M : Machine σ C R) : σ → List C → Option (List R × σ)
  | s, [] => some ([], s)
  | s, c :: cs =>
      match M.exec s c with
      | none => none
      | some (r, s') =>
          match M.run s' cs with
          | none => none
          | some (rs, s'') => some (r :: rs, s'')

/-- One more call at the end of a list. -/
theorem run_snoc {M : Machine σ C R} {cs : List C} {c : C} {r : R} {s' s'' : σ} :
    ∀ {s : σ} {rs : List R}, M.run s cs = some (rs, s') → M.exec s' c = some (r, s'') →
      M.run s (cs ++ [c]) = some (rs ++ [r], s'') := by
  induction cs with
  | nil =>
      intro s rs hrun hexec
      cases hrun
      simp [run, hexec]
  | cons c' cs ih =>
      intro s rs hrun hexec
      unfold Machine.run at hrun
      split at hrun
      · cases hrun
      · rename_i r' s1 hfirst
        split at hrun
        · cases hrun
        · rename_i rs' s2 hrest
          cases hrun
          rw [List.cons_append, Machine.run, hfirst]
          simp only [ih hrest hexec, List.cons_append]

/-- A machine that answers the translation of every call as another one answers the call. -/
theorem run_map {D : Type*} {M : Machine σ C R} {N : Machine σ D R} {f : C → D}
    (h : ∀ s c r s', M.exec s c = some (r, s') → N.exec s (f c) = some (r, s')) {cs : List C} :
    ∀ {s s' : σ} {rs : List R}, M.run s cs = some (rs, s') →
      N.run s (cs.map f) = some (rs, s') := by
  induction cs with
  | nil =>
      intro s s' rs hrun
      cases hrun
      simp only [List.map_nil, run]
  | cons c cs ih =>
      intro s s' rs hrun
      unfold Machine.run at hrun
      split at hrun
      · cases hrun
      · rename_i r s1 hex
        split at hrun
        · cases hrun
        · rename_i rs' s2 hrest
          cases hrun
          simp only [List.map_cons, run, h s c r s1 hex, ih hrest]

/-- A list of calls that the guard admits anywhere continues a run. -/
theorem Reach.run {M : Machine σ C R} {ok : Guard σ C R} {cs : List C} :
    ∀ {tr : Trace C R} {s s' : σ} {rs : List R}, M.Reach ok (tr, s) →
      (∀ tr s c, c ∈ cs → ok tr s c) → M.run s cs = some (rs, s') →
      ∃ tr', M.Reach ok (tr', s') := by
  induction cs with
  | nil =>
      intro tr s s' rs h _ hrun
      rw [← (Prod.mk.inj (Option.some.inj hrun)).2]
      exact ⟨tr, h⟩
  | cons c cs ih =>
      intro tr s s' rs h hok hrun
      unfold Machine.run at hrun
      split at hrun
      · cases hrun
      · rename_i r s1 hex
        split at hrun
        · cases hrun
        · rename_i rs' s2 hrest
          have hnext := h.step (hok tr s c List.mem_cons_self) hex
          rcases Prod.mk.inj (Option.some.inj hrun) with ⟨-, rfl⟩
          exact ih hnext (fun tr s c hc => hok tr s c (List.mem_cons_of_mem _ hc)) hrest

/-- Every call of the list meets the condition at the moment it is issued. -/
def Admits (M : Machine σ C R) (ok : σ → C → Prop) : σ → List C → Prop
  | _, [] => True
  | s, c :: cs => ok s c ∧ ∀ r s', M.exec s c = some (r, s') → M.Admits ok s' cs

theorem admits_cons_of_none {M : Machine σ C R} {ok : σ → C → Prop} {s : σ} {c : C}
    {cs : List C} (h : M.exec s c = none) : M.Admits ok s (c :: cs) ↔ ok s c := by
  simp only [Admits, h, reduceCtorEq, false_implies, implies_true, and_true]

theorem admits_cons_of_some {M : Machine σ C R} {ok : σ → C → Prop} {s s' : σ} {c : C} {r : R}
    {cs : List C} (h : M.exec s c = some (r, s')) :
    M.Admits ok s (c :: cs) ↔ ok s c ∧ M.Admits ok s' cs := by
  simp only [Admits, h, Option.some.injEq, Prod.mk.injEq, and_imp, forall_eq',
    forall_apply_eq_imp_iff]

/-- A list of calls that each meet the condition continues a run under it. -/
theorem Reach.run_admits {M : Machine σ C R} {ok : σ → C → Prop} {cs : List C} :
    ∀ {tr : Trace C R} {s s' : σ} {rs : List R}, M.Reach (fun _ => ok) (tr, s) →
      M.Admits ok s cs → M.run s cs = some (rs, s') →
      ∃ tr', M.Reach (fun _ => ok) (tr', s') := by
  induction cs with
  | nil =>
      intro tr s s' rs h _ hrun
      rw [← (Prod.mk.inj (Option.some.inj hrun)).2]
      exact ⟨tr, h⟩
  | cons c cs ih =>
      intro tr s s' rs h hadm hrun
      unfold Machine.run at hrun
      split at hrun
      · cases hrun
      · rename_i r s1 hex
        split at hrun
        · cases hrun
        · rename_i rs' s2 hrest
          have hnext := h.step hadm.1 hex
          rcases Prod.mk.inj (Option.some.inj hrun) with ⟨-, rfl⟩
          exact ih hnext (hadm.2 r s1 hex) hrest

/-- Under an invariant that every admissible call keeps, what holds of each call and its result
holds of all calls of a run. -/
theorem run_forall {M : Machine σ C R} {ok : σ → C → Prop} {I : σ → Prop} {Q : C → R → Prop}
    (hstep : ∀ s c r s', I s → ok s c → M.exec s c = some (r, s') → I s' ∧ Q c r) {cs : List C} :
    ∀ {s s' : σ} {rs : List R}, I s → M.Admits ok s cs → M.run s cs = some (rs, s') →
      List.Forall₂ Q cs rs := by
  induction cs with
  | nil =>
      intro s s' rs _ _ hrun
      cases hrun
      exact .nil
  | cons c cs ih =>
      intro s s' rs hs hadm hrun
      unfold Machine.run at hrun
      split at hrun
      · cases hrun
      · rename_i r s1 hex
        split at hrun
        · cases hrun
        · rename_i rs' s2 hrest
          cases hrun
          obtain ⟨hnext, hresult⟩ := hstep s c r s1 hs hadm.1 hex
          exact .cons hresult (ih hnext (hadm.2 r s1 hex) hrest)

/-- A condition that can be evaluated can be evaluated along a list of calls. -/
instance decidableAdmits (M : Machine σ C R) (ok : σ → C → Prop)
    [inst : ∀ s c, Decidable (ok s c)] : ∀ s cs, Decidable (M.Admits ok s cs)
  | _, [] => isTrue trivial
  | s, c :: cs =>
      match h : M.exec s c with
      | none => decidable_of_iff (ok s c) (admits_cons_of_none h).symm
      | some (_, s') =>
          have := decidableAdmits M ok s' cs
          decidable_of_iff (ok s c ∧ M.Admits ok s' cs) (admits_cons_of_some h).symm

/-- Play a list of calls under a guard that can be evaluated; `none` if the guard refuses one
or one crashes. -/
def play (M : Machine σ C R) (ok : Guard σ C R) [inst : ∀ tr s c, Decidable (ok tr s c)] :
    Trace C R × σ → List C → Option (Trace C R × σ)
  | cfg, [] => some cfg
  | (tr, s), c :: cs =>
      if ok tr s c then
        match M.exec s c with
        | none => none
        | some (r, s') => M.play ok ((c, r) :: tr, s') cs
      else none

/-- A list of calls that is played to its end continues a run. -/
theorem Reach.play {M : Machine σ C R} {ok : Guard σ C R}
    [inst : ∀ tr s c, Decidable (ok tr s c)] {cs : List C} :
    ∀ {cfg cfg' : Trace C R × σ}, M.Reach ok cfg → M.play ok cfg cs = some cfg' →
      M.Reach ok cfg' := by
  induction cs with
  | nil =>
      intro cfg cfg' h hplay
      cases hplay
      exact h
  | cons c cs ih =>
      rintro ⟨tr, s⟩ cfg' h hplay
      unfold Machine.play at hplay
      split at hplay
      · rename_i hok
        split at hplay
        · cases hplay
        · rename_i r s' hex
          exact ih (h.step hok hex) hplay
      · cases hplay

/-! ## Potentials -/

/-- The sum of what each call of a list amounts to in the state in which it is made. -/
def total (M : Machine σ C R) (f : σ → C → Nat) : σ → List C → Nat
  | _, [] => 0
  | s, c :: cs =>
      f s c + match M.exec s c with
        | none => 0
        | some (_, s') => M.total f s' cs

/-- Amortised cost. If every call costs no more than what it takes from a potential and an
allowance of its own, then so does every list of calls. -/
theorem run_amortised {M : Machine σ C R} (cost allow : σ → C → Nat) (potential : σ → Nat)
    (hstep : ∀ s c r s', M.exec s c = some (r, s') →
      cost s c + potential s' ≤ potential s + allow s c) {cs : List C} :
    ∀ {s s' : σ} {rs : List R}, M.run s cs = some (rs, s') →
      M.total cost s cs + potential s' ≤ potential s + M.total allow s cs := by
  induction cs with
  | nil =>
      intro s s' rs hrun
      cases hrun
      simp [total]
  | cons c cs ih =>
      intro s s' rs hrun
      unfold run at hrun
      split at hrun
      · cases hrun
      · rename_i r s1 hex
        split at hrun
        · cases hrun
        · rename_i rs' s2 hrest
          cases hrun
          have hfirst := hstep s c r s1 hex
          have hmore := ih hrest
          simp only [total, hex]
          omega

/-! ## Forward simulation -/

/-- Forward simulation. If coupled states answer every admissible call alike
and stay coupled, then an admissible list of calls runs through on both
machines with the same results. -/
theorem run_refines (A : Machine α C R) (M : Machine σ C R) (Sim : α → σ → Prop)
    (ok : σ → C → Prop)
    (hstep : ∀ a s c, Sim a s → ok s c → ∃ r a' s',
      A.exec a c = some (r, a') ∧ M.exec s c = some (r, s') ∧ Sim a' s') :
    ∀ (cs : List C) (a : α) (s : σ), Sim a s → M.Admits ok s cs →
      ∃ rs a' s', A.run a cs = some (rs, a') ∧ M.run s cs = some (rs, s') ∧ Sim a' s' := by
  intro cs
  induction cs with
  | nil =>
      intro a s hsim _
      exact ⟨[], a, s, rfl, rfl, hsim⟩
  | cons c cs ih =>
      intro a s hsim hadm
      obtain ⟨r, a', s', hA, hM, hsim'⟩ := hstep a s c hsim hadm.1
      obtain ⟨rs, a'', s'', hA', hM', hsim''⟩ := ih a' s' hsim' (hadm.2 r s' hM)
      refine ⟨r :: rs, a'', s'', ?_, ?_, hsim''⟩
      · simp only [run, hA, hA']
      · simp only [run, hM, hM']

end Machine
