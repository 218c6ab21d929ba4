import TecnicoFS.Lib.Threads

/-!
# Programs that give back the locks they take

A walk follows one thread through its program. Between two of its steps the other threads may
change the state, as a relation allows; with the empty relation the thread is alone. A program
restores its locks if every walk that returns holds what it held at the start, and no walk
comes to release a lock it does not hold.

`Balanced` says the same by recursion on the program, and its rules follow the statements.
-/

namespace TecnicoFS.Threads

variable {σ L V α β : Type} [DecidableEq L]

/-! ## Walks -/

/-- A thread on its way: what is left of its program, the locks it holds, the state. -/
structure Walk (σ L V α : Type) where
  prog : Prog σ L V α
  held : List (L × Mode)
  state : σ

/-- One step of the thread, or of another one. -/
inductive Walk.Step (other : σ → σ → Prop) : Walk σ L V α → Walk σ L V α → Prop
  | other {p : Prog σ L V α} {held : List (L × Mode)} {s s' : σ} (hother : other s s') :
      Step other ⟨p, held, s⟩ ⟨p, held, s'⟩
  | acquire {l : L} {m : Mode} {next : Prog σ L V α} {held : List (L × Mode)} {s : σ} :
      Step other ⟨.acquire l m next, held, s⟩ ⟨next, (l, m) :: held, s⟩
  | release {l : L} {m : Mode} {next : Prog σ L V α} {held : List (L × Mode)} {s : σ}
      (hheld : (l, m) ∈ held) :
      Step other ⟨.release l next, held, s⟩ ⟨next, dropLock l held, s⟩
  | act {e : σ → Option σ} {next : σ → Prog σ L V α} {held : List (L × Mode)} {s s' : σ}
      (heff : e s = some s') : Step other ⟨.act e next, held, s⟩ ⟨next s, held, s'⟩
  | signal {v : V} {next : Prog σ L V α} {held : List (L × Mode)} {s : σ} :
      Step other ⟨.signal v next, held, s⟩ ⟨next, held, s⟩
  | await {v : V} {l : L} {ready : σ → Bool} {next : Prog σ L V α} {held : List (L × Mode)}
      {s : σ} (hready : ready s = true) :
      Step other ⟨.await v l ready next, held, s⟩ ⟨next, held, s⟩

/-- The second walk is a continuation of the first. -/
def Walk.To (other : σ → σ → Prop) : Walk σ L V α → Walk σ L V α → Prop :=
  Relation.ReflTransGen (Walk.Step other)

/-- The other threads go on. -/
theorem Walk.To.others {other : σ → σ → Prop} {p : Prog σ L V α} {held : List (L × Mode)} {s s' : σ}
    (h : Relation.ReflTransGen other s s') : Walk.To other ⟨p, held, s⟩ ⟨p, held, s'⟩ := by
  induction h with
  | refl => exact Relation.ReflTransGen.refl
  | tail _ hother ih => exact Relation.ReflTransGen.tail ih (.other hother)

/-- Every walk that returns holds what it held at the start, and none releases a lock it does
not hold. -/
def Restores (other : σ → σ → Prop) (p : Prog σ L V α) (held : List (L × Mode)) (s : σ) : Prop :=
  ∀ w, Walk.To other ⟨p, held, s⟩ w →
    (∀ a, w.prog = .ret a → w.held = held) ∧
      ∀ l next, w.prog = .release l next → ∃ m, (l, m) ∈ w.held

/-! ## Balance -/

/-- However the other threads go on, the program only releases what it holds, and returns with
locks in a set. -/
def Balanced (other : σ → σ → Prop) (Q : α → List (L × Mode) → Prop) :
    Prog σ L V α → List (L × Mode) → σ → Prop
  | .ret a, held, _ => Q a held
  | .acquire l m next, held, s => Balanced other Q next ((l, m) :: held) s
  | .release l next, held, s =>
      (∃ m, (l, m) ∈ held) ∧ Balanced other Q next (dropLock l held) s
  | .act e next, held, s => ∀ s', Relation.ReflTransGen other s s' →
      ∀ s'', e s' = some s'' → Balanced other Q (next s') held s''
  | .signal _ next, held, s => Balanced other Q next held s
  | .await _ _ ready next, held, s => ∀ s', Relation.ReflTransGen other s s' →
      ready s' = true → Balanced other Q next held s'
  | .crash, _, _ => True

variable {other : σ → σ → Prop} {Q : α → List (L × Mode) → Prop}
  {Q' : β → List (L × Mode) → Prop} {p : Prog σ L V α} {held : List (L × Mode)} {s s' : σ}

theorem Balanced.later (h : Balanced other Q p held s) (hother : Relation.ReflTransGen other s s') :
    Balanced other Q p held s' := by
  induction p generalizing held with
  | ret a => exact h
  | acquire l m next ih => exact ih h
  | release l next ih => exact ⟨h.1, ih h.2⟩
  | act e next ih => exact fun s₁ hs₁ => h s₁ (hother.trans hs₁)
  | signal v next ih => exact ih h
  | await v l ready next ih => exact fun s₁ hs₁ => h s₁ (hother.trans hs₁)
  | crash => trivial

/-- A step of a walk keeps the balance of what is left. -/
theorem Balanced.step {w w' : Walk σ L V α} (h : Balanced other Q w.prog w.held w.state)
    (hstep : Walk.Step other w w') : Balanced other Q w'.prog w'.held w'.state := by
  cases hstep with
  | other hother => exact h.later (Relation.ReflTransGen.single hother)
  | acquire => exact h
  | release _ => exact h.2
  | act heff => exact h _ Relation.ReflTransGen.refl _ heff
  | signal => exact h
  | await hready => exact h _ Relation.ReflTransGen.refl hready

theorem Balanced.walk {w : Walk σ L V α} (h : Balanced other Q p held s)
    (hwalk : Walk.To other ⟨p, held, s⟩ w) : Balanced other Q w.prog w.held w.state := by
  induction hwalk with
  | refl => exact h
  | tail _ hstep ih => exact ih.step hstep

/-- Balance is a matter of walks: where they return, and what they release. -/
theorem balanced_iff : Balanced other Q p held s ↔ ∀ w, Walk.To other ⟨p, held, s⟩ w →
    (∀ a, w.prog = .ret a → Q a w.held) ∧
      ∀ l next, w.prog = .release l next → ∃ m, (l, m) ∈ w.held := by
  constructor
  · intro h w hwalk
    have hw := h.walk hwalk
    constructor
    · intro a ha
      rw [ha] at hw
      exact hw
    · intro l next hl
      rw [hl] at hw
      exact hw.1
  · intro h
    induction p generalizing held s with
    | ret a => exact (h _ Relation.ReflTransGen.refl).1 a rfl
    | acquire l m next ih =>
        exact ih fun w hwalk => h w (Relation.ReflTransGen.head .acquire hwalk)
    | release l next ih =>
        have hheld := (h _ Relation.ReflTransGen.refl).2 l next rfl
        refine ⟨hheld, ih fun w hwalk => h w ?_⟩
        rcases hheld with ⟨m, hm⟩
        exact Relation.ReflTransGen.head (.release hm) hwalk
    | act e next ih =>
        intro s' hother s'' heff
        refine ih s' fun w hwalk => h w ?_
        exact (Walk.To.others hother).trans (Relation.ReflTransGen.head (.act heff) hwalk)
    | signal v next ih =>
        exact ih fun w hwalk => h w (Relation.ReflTransGen.head .signal hwalk)
    | await v l ready next ih =>
        intro s' hother hready
        refine ih fun w hwalk => h w ?_
        exact (Walk.To.others hother).trans (Relation.ReflTransGen.head (.await hready) hwalk)
    | crash => trivial

theorem restores_iff : Restores other p held s ↔
    Balanced other (fun _ held' => held' = held) p held s :=
  (balanced_iff (Q := fun _ held' => held' = held)).symm

/-! ## Rules -/

theorem Balanced.bind {k : α → Prog σ L V β} (hp : Balanced other Q p held s)
    (hk : ∀ a held s, Q a held → Balanced other Q' (k a) held s) :
    Balanced other Q' (p.bind k) held s := by
  induction p generalizing held s with
  | ret a => exact hk a held s hp
  | acquire l m next ih => exact ih hp
  | release l next ih => exact ⟨hp.1, ih hp.2⟩
  | act e next ih => exact fun s₁ hs₁ s₂ heff => ih s₁ (hp s₁ hs₁ s₂ heff)
  | signal v next ih => exact ih hp
  | await v l ready next ih => exact fun s₁ hs₁ hready => ih (hp s₁ hs₁ hready)
  | crash => trivial

/-- A program that ends with the locks it began with, whatever they are. -/
def Neutral (other : σ → σ → Prop) (p : Prog σ L V α) : Prop :=
  ∀ held s, Balanced other (fun _ held' => held' = held) p held s

theorem Neutral.bind {k : α → Prog σ L V β} (hp : Neutral other p)
    (hk : ∀ a s, Balanced other Q' (k a) held s) : Balanced other Q' (p.bind k) held s := by
  apply (hp held s).bind
  rintro a held' s' rfl
  exact hk a s'

theorem neutral_ret (a : α) : Neutral other (.ret a : Prog σ L V α) := fun _ _ => rfl

theorem neutral_crash : Neutral other (.crash : Prog σ L V α) := fun _ _ => trivial

theorem neutral_read {f : σ → α} : Neutral other (Prog.read f : Prog σ L V α) :=
  fun _ _ _ _ _ _ => rfl

theorem neutral_modify {f : σ → σ} : Neutral other (Prog.modify f : Prog σ L V Unit) :=
  fun _ _ _ _ _ _ => rfl

theorem neutral_modify? {f : σ → Option σ} : Neutral other (Prog.modify? f : Prog σ L V Unit) :=
  fun _ _ _ _ _ _ => rfl

theorem neutral_wakeOne {v : V} : Neutral other (Prog.wakeOne v : Prog σ L V Unit) :=
  fun _ _ => rfl

/-- A read that the other threads do not influence. -/
theorem balanced_read_iff {f : σ → α} {k : α → Prog σ L V β}
    (hf : ∀ s', Relation.ReflTransGen other s s' → f s' = f s) :
    Balanced other Q' ((Prog.read f).bind k) held s ↔ Balanced other Q' (k (f s)) held s := by
  constructor
  · exact fun h => h s Relation.ReflTransGen.refl s rfl
  · intro h s' hother s'' heff
    cases heff
    change Balanced other Q' (k (f s')) held s'
    rw [hf s' hother]
    exact h.later hother

/-- An assignment that commutes with what the other threads do. -/
theorem balanced_modify_iff {f : σ → σ} {k : Unit → Prog σ L V β}
    (hf : ∀ s', Relation.ReflTransGen other s s' → Relation.ReflTransGen other (f s) (f s')) :
    Balanced other Q' ((Prog.modify f).bind k) held s ↔ Balanced other Q' (k ()) held (f s) := by
  constructor
  · exact fun h => h s Relation.ReflTransGen.refl (f s) rfl
  · intro h s' hother s'' heff
    cases heff
    exact h.later (hf s' hother)

section Locks

variable {l l' : L} {m m' : Mode} {k : Unit → Prog σ L V β}

theorem balanced_lock (hk : Balanced other Q' (k ()) ((l, .write) :: held) s) :
    Balanced other Q' ((Prog.lock l).bind k) held s := hk

theorem balanced_lock_iff : Balanced other Q' ((Prog.lock l).bind k) held s ↔
    Balanced other Q' (k ()) ((l, .write) :: held) s := Iff.rfl

theorem balanced_readLock (hk : Balanced other Q' (k ()) ((l, .read) :: held) s) :
    Balanced other Q' ((Prog.readLock l).bind k) held s := hk

/-- The lock taken last is released. -/
theorem balanced_unlock (hk : Balanced other Q' (k ()) held s) :
    Balanced other Q' ((Prog.unlock l).bind k) ((l, m) :: held) s := by
  refine ⟨⟨m, List.mem_cons_self⟩, ?_⟩
  rw [dropLock_cons_self]
  exact hk

/-- The lock taken before the last one is released. -/
theorem balanced_unlock_below (hne : l' ≠ l)
    (hk : Balanced other Q' (k ()) ((l', m') :: held) s) :
    Balanced other Q' ((Prog.unlock l).bind k) ((l', m') :: (l, m) :: held) s := by
  refine ⟨⟨m, List.mem_cons_of_mem _ List.mem_cons_self⟩, ?_⟩
  rw [dropLock_cons_of_ne hne, dropLock_cons_self]
  exact hk

end Locks

end TecnicoFS.Threads
