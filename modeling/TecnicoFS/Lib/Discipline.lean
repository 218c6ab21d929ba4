import TecnicoFS.Lib.Threads
import Mathlib.Algebra.Group.Defs

/-!
# Rely and guarantee for locking programs

A discipline says what a thread may do to the state given the locks it holds (`guar`), what
a free lock protects (`lockInv`), and in which order locks are taken (`order`). `wp` is the
weakest precondition of a program under a discipline: between two of its steps the other
threads may do what their own locks allow (`Rely`).

A thread also keeps a balance: the sum of what its own steps enter in the books. The total
of all entries is part of what the threads share, so that an invariant can relate it to the
state.
-/

namespace TecnicoFS.Threads

variable {T σ L V C R α β M : Type}

/-- What the threads share: the state, which condition variables somebody sleeps on, and the
sum of all entries made so far. -/
structure World (σ V M : Type) where
  state : σ
  asleep : V → Prop
  total : M

namespace World

/-- Nothing changed but that sleepers woke up. -/
def Quieter (w w' : World σ V M) : Prop :=
  w'.state = w.state ∧ w'.total = w.total ∧ ∀ v, w'.asleep v → w.asleep v

theorem Quieter.refl {w : World σ V M} : w.Quieter w := ⟨rfl, rfl, fun _ h => h⟩

/-- A state before any thread has done anything. -/
def start [Zero M] (s : σ) : World σ V M := ⟨s, fun _ => False, 0⟩

/-- Somebody falls asleep. -/
def sleep (w : World σ V M) (v : V) : World σ V M :=
  ⟨w.state, fun u => w.asleep u ∨ u = v, w.total⟩

end World

/-- A locking discipline. -/
structure Discipline (σ L V M : Type) [AddCommMonoid M] where
  inv : World σ V M → Prop
  guar : List (L × Mode) → World σ V M → World σ V M → Prop
  lockInv : L → World σ V M → Prop
  /-- The lock may be taken with these locks held. -/
  order : List (L × Mode) → L → Prop
  /-- Several threads may hold the lock to read. -/
  shared : L → Prop
  /-- At most one thread sleeps on each condition variable. -/
  single : Prop
  /-- A thread with this balance may wait. -/
  waiter : M → Prop
  /-- What a step of a thread adds to its balance. -/
  entry : σ → σ → M
  entry_self : ∀ s, entry s s = 0
  guar_refl : ∀ held w, guar held w w
  keeps : ∀ {held w w' l}, inv w → guar held w w' → (l, Mode.write) ∉ held →
    lockInv l w → lockInv l w'
  inv_quieter : ∀ {w w'}, World.Quieter w w' → inv w → inv w'
  lockInv_quieter : ∀ {l w w'}, World.Quieter w w' → lockInv l w → lockInv l w'

namespace Discipline

variable [AddCommMonoid M] (D : Discipline σ L V M)

/-- Two threads may hold these locks at the same time. -/
def Compat (held held' : List (L × Mode)) : Prop :=
  ∀ l m m', (l, m) ∈ held → (l, m') ∈ held' → m = .read ∧ m' = .read ∧ D.shared l

/-- The world after a step that leaves this state. -/
def after (w : World σ V M) (s : σ) : World σ V M :=
  ⟨s, w.asleep, w.total + D.entry w.state s⟩

/-- One step of another thread, seen by a thread that holds some locks. -/
def Edge (held : List (L × Mode)) (w w' : World σ V M) : Prop :=
  D.inv w ∧ D.inv w' ∧
    ((∃ held', D.Compat held' held ∧ D.guar held' w w' ∧
      w'.total = w.total + D.entry w.state w'.state) ∨ World.Quieter w w')

/-- What the other threads may do while this one holds some locks. -/
def Rely (held : List (L × Mode)) : World σ V M → World σ V M → Prop :=
  Relation.ReflTransGen (D.Edge held)

/-- However the other threads go on. -/
def Later (held : List (L × Mode)) (P : World σ V M → Prop) (w : World σ V M) : Prop :=
  ∀ w', D.Rely held w w' → D.inv w' → P w'

variable {D} {held held' : List (L × Mode)} {w w' : World σ V M} {P Q : World σ V M → Prop}

theorem Compat.symm (h : D.Compat held held') : D.Compat held' held := by
  intro l m m' hm hm'
  rcases h l m' m hm' hm with ⟨rfl, rfl, hl⟩
  exact ⟨rfl, rfl, hl⟩

theorem Later.now (h : D.Later held P w) (hinv : D.inv w) : P w :=
  h w Relation.ReflTransGen.refl hinv

theorem Later.rely (h : D.Later held P w) (hrely : D.Rely held w w') : D.Later held P w' :=
  fun _ hrely' hinv => h _ (hrely.trans hrely') hinv

theorem Later.mono (h : D.Later held P w) (hmono : ∀ w, D.inv w → P w → Q w) :
    D.Later held Q w := fun w' hrely hinv => hmono w' hinv (h w' hrely hinv)

/-- A fact that no step of another thread breaks lasts. -/
theorem Rely.stable (h : D.Rely held w w') (hP : P w)
    (hguar : ∀ held' w w', D.Compat held' held → D.inv w → D.inv w' → D.guar held' w w' →
      w'.total = w.total + D.entry w.state w'.state → P w → P w')
    (hquiet : ∀ w w', D.inv w → World.Quieter w w' → P w → P w') : P w' := by
  induction h with
  | refl => exact hP
  | tail _ hedge ih =>
      rcases hedge with ⟨hinv, hinv', ⟨held', hcompat, hguar', htotal⟩ | hq⟩
      · exact hguar held' _ _ hcompat hinv hinv' hguar' htotal ih
      · exact hquiet _ _ hinv hq ih

/-- What a lock protects lasts while the thread holds it. -/
theorem Rely.lockInv {l : L} {m : Mode} (h : D.Rely held w w') (hheld : (l, m) ∈ held)
    (hinv : D.lockInv l w) : D.lockInv l w' := by
  refine h.stable hinv (fun held' w w' hcompat hinv _ hguar _ hl => ?_)
    fun w w' _ hq hl => D.lockInv_quieter hq hl
  refine D.keeps hinv hguar (fun hmem => ?_) hl
  have hread := (hcompat l .write m hmem hheld).1
  cases hread

/-- A thread that holds more locks sees fewer steps of the others. -/
theorem Rely.mono (h : D.Rely held w w') (hsub : held' ⊆ held) : D.Rely held' w w' := by
  induction h with
  | refl => exact Relation.ReflTransGen.refl
  | tail _ hedge ih =>
      refine ih.tail ⟨hedge.1, hedge.2.1, hedge.2.2.imp ?_ id⟩
      rintro ⟨other, hcompat, hguar⟩
      exact ⟨other, fun l m m' hm hm' => hcompat l m m' hm (hsub hm'), hguar⟩

theorem Later.after (h : D.Later held P w) (hrely : D.Rely held' w w') (hsub : held ⊆ held') :
    D.Later held P w' := h.rely (hrely.mono hsub)

/-- A step that a thread without locks may do looks like one of another thread. -/
theorem Rely.own (hrely : D.Rely held w w') (hinv' : D.inv w') {s : σ}
    (hinv : D.inv (D.after w' s)) (hguar : D.guar [] w' (D.after w' s)) :
    D.Rely held w (D.after w' s) :=
  hrely.tail ⟨hinv', hinv, Or.inl ⟨[], fun _ _ _ hmem => absurd hmem List.not_mem_nil, hguar, rfl⟩⟩

end Discipline

open Discipline

/-- The wait loop from its top, after the lock has been taken again. -/
def AwaitSpec [AddCommMonoid M] (D : Discipline σ L V M) (v : V) (l : L) (ready : σ → Bool)
    (held : List (L × Mode)) (P : World σ V M → Prop) : Prop :=
  ∀ w, D.inv w → D.lockInv l w →
    (ready w.state = true → P w) ∧
    (ready w.state = false →
      D.inv (w.sleep v) ∧ D.guar ((l, .write) :: held) w (w.sleep v) ∧ D.lockInv l (w.sleep v))

/-- The weakest precondition of a program, for a thread that holds some locks and has a
balance. `may` is what its steps are allowed to do to the state. -/
def wp [DecidableEq L] [AddCommMonoid M] (D : Discipline σ L V M) (may : σ → σ → Prop)
    (Q : α → List (L × Mode) → M → World σ V M → Prop) :
    Prog σ L V α → List (L × Mode) → M → World σ V M → Prop
  | .ret a, held, b, w => D.Later held (Q a held b) w
  | .acquire l m next, held, b, w =>
      D.Later held (fun w =>
        D.order held l ∧ (D.lockInv l w → wp D may Q next ((l, m) :: held) b w)) w
  | .release l next, held, b, w =>
      D.Later held (fun w =>
        ((l, .write) ∈ held → D.lockInv l w) ∧ wp D may Q next (dropLock l held) b w) w
  | .act e next, held, b, w =>
      D.Later held (fun w => ∀ s', e w.state = some s' → may w.state s' →
        D.inv (D.after w s') ∧ D.guar held w (D.after w s') ∧
          wp D may Q (next w.state) held (b + D.entry w.state s') (D.after w s')) w
  | .signal v next, held, b, w =>
      D.Later held (fun w => ∀ w', World.Quieter w w' → (D.single → ¬ w'.asleep v) →
        wp D may Q next held b w') w
  | .await v l ready next, held, b, w =>
      D.Later held (fun w => D.waiter b ∧ D.lockInv l w ∧
        ∃ rest, held = (l, .write) :: rest ∧ D.order rest l ∧
          AwaitSpec D v l ready rest (wp D may Q next held b)) w
  | .crash, _, _, _ => True

section Rules

variable [DecidableEq L] [AddCommMonoid M] {D : Discipline σ L V M} {may : σ → σ → Prop}
  {Q Q' : α → List (L × Mode) → M → World σ V M → Prop} {p : Prog σ L V α}
  {held : List (L × Mode)} {b : M} {w w' : World σ V M}

/-- The other threads do not break a weakest precondition. -/
theorem wp.rely (h : wp D may Q p held b w) (hrely : D.Rely held w w') :
    wp D may Q p held b w' := by
  cases p with
  | ret a => exact Later.rely h hrely
  | acquire l m next => exact Later.rely h hrely
  | release l next => exact Later.rely h hrely
  | act e next => exact Later.rely h hrely
  | signal v next => exact Later.rely h hrely
  | await v l ready next => exact Later.rely h hrely
  | crash => trivial

/-- It is enough to have the weakest precondition whatever the other threads do. -/
theorem wp_of_later (h : D.Later held (wp D may Q p held b) w) : wp D may Q p held b w := by
  cases p with
  | ret a => exact fun w' hrely hinv => Later.now (h w' hrely hinv) hinv
  | acquire l m next => exact fun w' hrely hinv => Later.now (h w' hrely hinv) hinv
  | release l next => exact fun w' hrely hinv => Later.now (h w' hrely hinv) hinv
  | act e next => exact fun w' hrely hinv => Later.now (h w' hrely hinv) hinv
  | signal v next => exact fun w' hrely hinv => Later.now (h w' hrely hinv) hinv
  | await v l ready next => exact fun w' hrely hinv => Later.now (h w' hrely hinv) hinv
  | crash => trivial

omit [DecidableEq L] in
theorem AwaitSpec.mono {v : V} {l : L} {ready : σ → Bool} {P P' : World σ V M → Prop}
    (h : AwaitSpec D v l ready held P) (hmono : ∀ w, P w → P' w) :
    AwaitSpec D v l ready held P' :=
  fun w hinv hl => ⟨fun hr => hmono w ((h w hinv hl).1 hr), (h w hinv hl).2⟩

theorem wp.mono (h : wp D may Q p held b w)
    (hmono : ∀ a held b w, D.inv w → Q a held b w → Q' a held b w) :
    wp D may Q' p held b w := by
  induction p generalizing held b w with
  | ret a => exact Later.mono h fun w hinv hq => hmono a held b w hinv hq
  | acquire l m next ih =>
      exact Later.mono h fun w _ hw => ⟨hw.1, fun hl => ih (hw.2 hl)⟩
  | release l next ih => exact Later.mono h fun w _ hw => ⟨hw.1, ih hw.2⟩
  | act e next ih =>
      refine Later.mono h fun w _ hw s' he hmay => ?_
      rcases hw s' he hmay with ⟨hinv, hguar, hnext⟩
      exact ⟨hinv, hguar, ih _ hnext⟩
  | signal v next ih => exact Later.mono h fun w _ hw w' hq hs => ih (hw w' hq hs)
  | await v l ready next ih =>
      refine Later.mono h fun w _ hw => ?_
      rcases hw with ⟨hwait, hl, rest, hheld, horder, hspec⟩
      exact ⟨hwait, hl, rest, hheld, horder, hspec.mono fun _ => ih⟩
  | crash => trivial

/-- The rule of sequencing. -/
theorem wp_bind {k : α → Prog σ L V β} {Q : β → List (L × Mode) → M → World σ V M → Prop}
    (h : wp D may (fun a held b w => wp D may Q (k a) held b w) p held b w) :
    wp D may Q (p.bind k) held b w := by
  induction p generalizing held b w with
  | ret a => exact wp_of_later h
  | acquire l m next ih =>
      exact Later.mono h fun w _ hw => ⟨hw.1, fun hl => ih (hw.2 hl)⟩
  | release l next ih => exact Later.mono h fun w _ hw => ⟨hw.1, ih hw.2⟩
  | act e next ih =>
      refine Later.mono h fun w _ hw s' he hmay => ?_
      rcases hw s' he hmay with ⟨hinv, hguar, hnext⟩
      exact ⟨hinv, hguar, ih _ hnext⟩
  | signal v next ih => exact Later.mono h fun w _ hw w' hq hs => ih (hw w' hq hs)
  | await v l ready next ih =>
      refine Later.mono h fun w _ hw => ?_
      rcases hw with ⟨hwait, hl, rest, hheld, horder, hspec⟩
      exact ⟨hwait, hl, rest, hheld, horder, hspec.mono fun _ => ih⟩
  | crash => trivial

/-- A thread that is woken takes the lock again and goes on with its wait loop. -/
theorem wp_of_asleep {v : V} {l : L} {ready : σ → Bool} (hwait : D.waiter b)
    (horder : D.order held l)
    (hspec : AwaitSpec D v l ready held (wp D may Q p ((l, .write) :: held) b)) :
    wp D may Q (.acquire l .write (.await v l ready p)) held b w := by
  refine fun w₁ _ _ => ⟨horder, fun hlock => fun w₂ hrely _ => ?_⟩
  have hlock₂ := hrely.lockInv List.mem_cons_self hlock
  exact ⟨hwait, hlock₂, held, rfl, horder, hspec⟩

/-! ### The rules of the statements -/

variable {k : Unit → Prog σ L V α}

theorem wp_ret {a : α} (h : ∀ w', D.Rely held w w' → D.inv w' → Q a held b w') :
    wp D may Q (.ret a) held b w := h

theorem wp_lock {l : L} (h : ∀ w', D.Rely held w w' → D.inv w' →
      D.order held l ∧ (D.lockInv l w' → wp D may Q (k ()) ((l, .write) :: held) b w')) :
    wp D may Q ((Prog.lock l).bind k) held b w := h

theorem wp_readLock {l : L} (h : ∀ w', D.Rely held w w' → D.inv w' →
      D.order held l ∧ (D.lockInv l w' → wp D may Q (k ()) ((l, .read) :: held) b w')) :
    wp D may Q ((Prog.readLock l).bind k) held b w := h

theorem wp_unlock {l : L} (h : ∀ w', D.Rely held w w' → D.inv w' →
      ((l, .write) ∈ held → D.lockInv l w') ∧ wp D may Q (k ()) (dropLock l held) b w') :
    wp D may Q ((Prog.unlock l).bind k) held b w := h

omit [DecidableEq L] in
theorem after_self (w : World σ V M) : D.after w w.state = w := by
  unfold after
  rw [D.entry_self, add_zero]

/-- A read changes nothing. -/
theorem wp_read {f : σ → β} {k : β → Prog σ L V α}
    (h : ∀ w', D.Rely held w w' → D.inv w' → wp D may Q (k (f w'.state)) held b w') :
    wp D may Q ((Prog.read f).bind k) held b w := by
  intro w' hrely hinv s' hs' _
  cases hs'
  rw [after_self, D.entry_self, add_zero]
  exact ⟨hinv, D.guar_refl _ _, h w' hrely hinv⟩

theorem wp_modify {f : σ → σ} (h : ∀ w', D.Rely held w w' → D.inv w' →
      may w'.state (f w'.state) → D.inv (D.after w' (f w'.state)) ∧
      D.guar held w' (D.after w' (f w'.state)) ∧
      wp D may Q (k ()) held (b + D.entry w'.state (f w'.state)) (D.after w' (f w'.state))) :
    wp D may Q ((Prog.modify f).bind k) held b w := by
  intro w' hrely hinv s' hs' hmay
  cases hs'
  exact h w' hrely hinv hmay

theorem wp_modify? {f : σ → Option σ} (h : ∀ w' s', D.Rely held w w' → D.inv w' →
      f w'.state = some s' → may w'.state s' → D.inv (D.after w' s') ∧
      D.guar held w' (D.after w' s') ∧
      wp D may Q (k ()) held (b + D.entry w'.state s') (D.after w' s')) :
    wp D may Q ((Prog.modify? f).bind k) held b w :=
  fun w' hrely hinv s' hs' hmay => h w' s' hrely hinv hs' hmay

/-- An assignment that a thread without locks may make, with nothing to enter in the books. -/
theorem wp_modify_own {f : σ → σ} (hentry : ∀ s, D.entry s (f s) = 0)
    (hstep : ∀ w', D.Rely held w w' → D.inv w' → may w'.state (f w'.state) →
      D.inv (D.after w' (f w'.state)) ∧ D.guar [] w' (D.after w' (f w'.state)))
    (hguar : ∀ w w', D.guar [] w w' → D.guar held w w')
    (hnext : D.Later held (wp D may Q (k ()) held b) w) :
    wp D may Q ((Prog.modify f).bind k) held b w := by
  refine wp_modify fun w' hrely hinv hmay => ?_
  rcases hstep w' hrely hinv hmay with ⟨hinv', hown⟩
  rw [hentry, add_zero]
  exact ⟨hinv', hguar _ _ hown, hnext _ (hrely.own hinv hinv' hown) hinv'⟩

theorem wp_modify?_own {f : σ → Option σ} (hentry : ∀ s s', f s = some s' → D.entry s s' = 0)
    (hstep : ∀ w' s', D.Rely held w w' → D.inv w' → f w'.state = some s' → may w'.state s' →
      D.inv (D.after w' s') ∧ D.guar [] w' (D.after w' s'))
    (hguar : ∀ w w', D.guar [] w w' → D.guar held w w')
    (hnext : D.Later held (wp D may Q (k ()) held b) w) :
    wp D may Q ((Prog.modify? f).bind k) held b w := by
  refine wp_modify? fun w' s' hrely hinv hs' hmay => ?_
  rcases hstep w' s' hrely hinv hs' hmay with ⟨hinv', hown⟩
  rw [hentry _ _ hs', add_zero]
  exact ⟨hinv', hguar _ _ hown, hnext _ (hrely.own hinv hinv' hown) hinv'⟩

/-- A signal only wakes sleepers. -/
theorem wp_wakeOne {v : V} (h : ∀ w', D.Rely held w w' → D.inv w' →
      (D.single → ¬ w'.asleep v) → wp D may Q (k ()) held b w') :
    wp D may Q ((Prog.wakeOne v).bind k) held b w := by
  intro w₁ hrely hinv w₂ hquiet hsingle
  refine h w₂ (hrely.tail ⟨hinv, ?_, Or.inr hquiet⟩) ?_ hsingle
  · exact D.inv_quieter hquiet hinv
  · exact D.inv_quieter hquiet hinv

/-- The wait loop. -/
theorem wp_await {v : V} {l : L} {ready : σ → Bool} (h : ∀ w', D.Rely ((l, .write) :: held) w w' →
      D.inv w' → D.waiter b ∧ D.lockInv l w' ∧ D.order held l ∧
        AwaitSpec D v l ready held (wp D may Q (k ()) ((l, .write) :: held) b)) :
    wp D may Q ((Prog.await v l ready (.ret ())).bind k) ((l, .write) :: held) b w := by
  intro w' hrely hinv
  rcases h w' hrely hinv with ⟨hwait, hlock, horder, hspec⟩
  exact ⟨hwait, hlock, held, rfl, horder, hspec⟩

end Rules

end TecnicoFS.Threads
