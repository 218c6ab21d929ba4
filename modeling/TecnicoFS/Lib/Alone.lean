import TecnicoFS.Lib.Balance

/-!
# A thread alone among locks that were left behind

Nobody else runs, but some locks are held: earlier calls have returned with them. The thread takes
its own locks on top. At a lock that is held in its way it does not come back: it waits for a
thread that is done, or it is told that the lock is its own.

`Needs` lists the locks that a program comes to. It returns exactly where all of them are free,
and then as `Prog.eval` says.
-/

namespace TecnicoFS.Threads

variable {σ L V α β : Type}

/-- With these locks held, the lock can be taken in this mode. -/
def Grantable (held : List (L × Mode)) (d : L × Mode) : Prop :=
  ∀ e ∈ held, e.1 = d.1 → d.2 = .read ∧ e.2 = .read

instance [DecidableEq L] (held : List (L × Mode)) (d : L × Mode) : Decidable (Grantable held d) :=
  inferInstanceAs (Decidable (∀ e ∈ held, _))

theorem grantable_append {own left : List (L × Mode)} {d : L × Mode} :
    Grantable (own ++ left) d ↔ Grantable own d ∧ Grantable left d := by
  simp only [Grantable, List.mem_append]
  constructor
  · exact fun h => ⟨fun e he => h e (Or.inl he), fun e he => h e (Or.inr he)⟩
  · rintro ⟨hown, hleft⟩ e (he | he)
    · exact hown e he
    · exact hleft e he

/-- What can be written can be read. -/
theorem Grantable.read {held : List (L × Mode)} {l : L} (h : Grantable held (l, .write)) :
    Grantable held (l, .read) := fun e he heq => by cases (h e he heq).1

/-- A lock that the thread does not have. -/
theorem grantable_of_not_mem {own : List (L × Mode)} {d : L × Mode}
    (h : d.1 ∉ own.map Prod.fst) : Grantable own d :=
  fun e he heq => absurd (List.mem_map.mpr ⟨e, he, heq⟩) h

variable [DecidableEq L]

namespace Prog

/-- The program run alone, with some locks held: its value, the state it leaves and the locks that
are held then. -/
def alone : Prog σ L V α → σ → List (L × Mode) → Option (α × σ × List (L × Mode))
  | ret a, s, held => some (a, s, held)
  | acquire l m next, s, held =>
      if Grantable held (l, m) then alone next s ((l, m) :: held) else none
  | release l next, s, held =>
      if l ∈ held.map Prod.fst then alone next s (dropLock l held) else none
  | act e next, s, held =>
      match e s with
      | none => none
      | some s' => alone (next s) s' held
  | signal _ next, s, held => alone next s held
  | await _ _ ready next, s, held => if ready s then alone next s held else none
  | crash, _, _ => none

variable {p : Prog σ L V α} {s s' : σ} {held held' : List (L × Mode)} {a : α}

theorem alone_act_of_some {e : σ → Option σ} {next : σ → Prog σ L V α} (h : e s = some s') :
    (act e next).alone s held = (next s).alone s' held := by
  simp only [alone, h]

theorem alone_act_of_none {e : σ → Option σ} {next : σ → Prog σ L V α} (h : e s = none) :
    (act e next).alone s held = none := by
  simp only [alone, h]

theorem alone_bind (p : Prog σ L V α) (k : α → Prog σ L V β) (s : σ) (held : List (L × Mode)) :
    (p.bind k).alone s held = (p.alone s held).bind fun r => (k r.1).alone r.2.1 r.2.2 := by
  induction p generalizing s held with
  | ret a => rfl
  | acquire l m next ih =>
      rw [acquire_bind, alone, alone, ih]
      split <;> rfl
  | release l next ih =>
      rw [release_bind, alone, alone, ih]
      split <;> rfl
  | act e next ih =>
      cases he : e s with
      | none => rw [act_bind, alone_act_of_none he, alone_act_of_none he, Option.bind_none]
      | some s' => rw [act_bind, alone_act_of_some he, alone_act_of_some he, ih]
  | signal v next ih => exact ih s held
  | await v l ready next ih =>
      rw [await_bind, alone, alone, ih]
      split <;> rfl
  | crash => rfl

/-- The locks decide whether the program returns, not what it does. -/
theorem eval_of_alone (h : p.alone s held = some (a, s', held')) : p.eval s = some (a, s') := by
  induction p generalizing s held with
  | ret b =>
      cases h
      rfl
  | acquire l m next ih =>
      rw [alone] at h
      split at h
      · exact ih h
      · cases h
  | release l next ih =>
      rw [alone] at h
      split at h
      · exact ih h
      · cases h
  | act e next ih =>
      cases he : e s with
      | none =>
          rw [alone_act_of_none he] at h
          cases h
      | some s₁ =>
          rw [alone_act_of_some he] at h
          rw [eval_act_of_some he]
          exact ih s h
  | signal v next ih => exact ih h
  | await v l ready next ih =>
      rw [alone] at h
      rw [eval]
      split at h
      · exact (if_pos ‹_›).trans (ih h)
      · cases h
  | crash => cases h

end Prog

open Prog

/-- A program returns with the locks that its balance says. -/
theorem Balanced.alone {other : σ → σ → Prop} {Q : α → List (L × Mode) → Prop}
    {p : Prog σ L V α} {s s' : σ} {held held' : List (L × Mode)} {a : α}
    (hb : Balanced other Q p held s) (h : p.alone s held = some (a, s', held')) : Q a held' := by
  induction p generalizing held s with
  | ret b =>
      cases h
      exact hb
  | acquire l m next ih =>
      rw [Prog.alone] at h
      split at h
      · exact ih hb h
      · cases h
  | release l next ih =>
      rw [Prog.alone] at h
      split at h
      · exact ih hb.2 h
      · cases h
  | act e next ih =>
      cases he : e s with
      | none =>
          rw [alone_act_of_none he] at h
          cases h
      | some s₁ =>
          rw [alone_act_of_some he] at h
          exact ih s (hb s Relation.ReflTransGen.refl s₁ he) h
  | signal v next ih => exact ih hb h
  | await v l ready next ih =>
      rw [Prog.alone] at h
      split at h
      · exact ih (hb s Relation.ReflTransGen.refl ‹_›) h
      · cases h
  | crash => cases h

/-! ## The locks that a program comes to -/

/-- With `own` locks of its own the program comes to the locks in `need`, and returns as `Prog.eval`
says, with `own'`, exactly where all of them can be taken. -/
def Needs (need own own' : List (L × Mode)) (p : Prog σ L V α) (s : σ) : Prop :=
  ∀ left, p.alone s (own ++ left) =
    if ∀ d ∈ need, Grantable left d then
      (p.eval s).map fun r => (r.1, r.2, own' ++ left)
    else none

section Needs

variable {need need' own own' own'' : List (L × Mode)} {p : Prog σ L V α} {s s' : σ} {a : α}
  {l l' : L} {m m' : Mode}

theorem needs_ret (a : α) : Needs [] own own (.ret a : Prog σ L V α) s := by
  intro left
  rw [if_pos fun d hd => absurd hd List.not_mem_nil]
  rfl

theorem needs_crash : Needs [] own own' (.crash : Prog σ L V α) s := by
  intro left
  rw [if_pos fun d hd => absurd hd List.not_mem_nil]
  rfl

/-- The order of the list does not matter, nor what follows from the rest of it. -/
theorem Needs.congr (h : Needs need own own' p s) (hiff : ∀ left,
    (∀ d ∈ need, Grantable left d) ↔ ∀ d ∈ need', Grantable left d) :
    Needs need' own own' p s := by
  intro left
  rw [h left]
  exact if_congr (hiff left) rfl rfl

theorem Needs.bind {k : α → Prog σ L V β} (hp : Needs need own own' p s)
    (hk : ∀ a s', p.eval s = some (a, s') → Needs need' own' own'' (k a) s') :
    Needs (need ++ need') own own'' (p.bind k) s := by
  intro left
  have hall : (∀ d ∈ need ++ need', Grantable left d) ↔
      (∀ d ∈ need, Grantable left d) ∧ ∀ d ∈ need', Grantable left d := List.forall_mem_append
  rw [alone_bind, hp left, eval_bind]
  cases heval : p.eval s with
  | none => simp
  | some r =>
      rcases r with ⟨a, s'⟩
      by_cases hneed : ∀ d ∈ need, Grantable left d
      · rw [if_pos hneed, Option.map_some, Option.bind_some, Option.bind_some, hk a s' heval left]
        exact if_congr (by rw [hall, and_iff_right hneed]) rfl rfl
      · rw [if_neg hneed, if_neg fun h => hneed (hall.mp h).1, Option.bind_none]

/-- What comes after may come to locks that depend on the outcome. -/
theorem Needs.bind_exists {P : List (L × Mode) → Prop} {k : α → Prog σ L V β}
    (hp : Needs need own own' p s) (hnil : P [])
    (hk : ∀ a s', p.eval s = some (a, s') → ∃ need', Needs need' own' own'' (k a) s' ∧ P need') :
    ∃ need', Needs (need ++ need') own own'' (p.bind k) s ∧ P need' := by
  cases heval : p.eval s with
  | none =>
      refine ⟨[], hp.bind fun a s' h => ?_, hnil⟩
      rw [heval] at h
      cases h
  | some r =>
      rcases hk r.1 r.2 heval with ⟨need', hnext, hneed⟩
      refine ⟨need', hp.bind fun a s' h => ?_, hneed⟩
      rw [heval] at h
      cases h
      exact hnext

/-- What comes after may come to the same locks again. -/
theorem Needs.bind_again {k : α → Prog σ L V β} (hp : Needs need own own' p s)
    (hk : ∀ a s', p.eval s = some (a, s') → ∃ need', Needs need' own' own'' (k a) s' ∧
      ∀ left, (∀ d ∈ need, Grantable left d) → ∀ d ∈ need', Grantable left d) :
    Needs need own own'' (p.bind k) s := by
  rcases hp.bind_exists (fun _ _ _ hd => absurd hd List.not_mem_nil) hk with
    ⟨need', hneeds, hagain⟩
  refine hneeds.congr fun left => ?_
  rw [List.forall_mem_append]
  exact and_iff_left_of_imp (hagain left)

theorem needs_acquire {next : Prog σ L V α} (hfree : l ∉ own.map Prod.fst)
    (h : Needs need ((l, m) :: own) own' next s) :
    Needs ((l, m) :: need) own own' (.acquire l m next) s := by
  intro left
  have hall : (∀ d ∈ (l, m) :: need, Grantable left d) ↔
      Grantable left (l, m) ∧ ∀ d ∈ need, Grantable left d := List.forall_mem_cons
  rw [Prog.alone, eval_acquire]
  by_cases hgrant : Grantable left (l, m)
  · rw [if_pos (grantable_append.mpr ⟨grantable_of_not_mem hfree, hgrant⟩),
      ← List.cons_append, h left]
    simp only [hall, hgrant, true_and]
  · rw [if_neg fun hg => hgrant (grantable_append.mp hg).2, if_neg fun hg => hgrant (hall.mp hg).1]

variable {k : Unit → Prog σ L V β}

theorem needs_lock (hfree : l ∉ own.map Prod.fst)
    (h : Needs need ((l, .write) :: own) own' (k ()) s) :
    Needs ((l, .write) :: need) own own' ((lock l).bind k) s := needs_acquire hfree h

theorem needs_readLock (hfree : l ∉ own.map Prod.fst)
    (h : Needs need ((l, .read) :: own) own' (k ()) s) :
    Needs ((l, .read) :: need) own own' ((readLock l).bind k) s := needs_acquire hfree h

theorem needs_unlock (h : Needs need own own' (k ()) s) :
    Needs need ((l, m) :: own) own' ((unlock l).bind k) s := by
  intro left
  change (Prog.release l (k ())).alone s ((l, m) :: (own ++ left)) = _
  rw [Prog.alone, if_pos (by simp), dropLock_cons_self]
  exact h left

/-- The lock taken before the last one is released. -/
theorem needs_unlock_below (hne : l' ≠ l) (h : Needs need ((l', m') :: own) own' (k ()) s) :
    Needs need ((l', m') :: (l, m) :: own) own' ((unlock l).bind k) s := by
  intro left
  change (Prog.release l (k ())).alone s ((l', m') :: (l, m) :: (own ++ left)) = _
  rw [Prog.alone, if_pos (by simp), dropLock_cons_of_ne hne, dropLock_cons_self]
  exact h left

theorem needs_load {f : σ → α} : Needs [] own own (Prog.read f : Prog σ L V α) s :=
  needs_ret (V := V) (f s)

theorem needs_read {f : σ → α} {k : α → Prog σ L V β} (h : Needs need own own' (k (f s)) s) :
    Needs need own own' ((Prog.read f).bind k) s := h

theorem needs_modify {f : σ → σ} (h : Needs need own own' (k ()) (f s)) :
    Needs need own own' ((Prog.modify f).bind k) s := h

theorem needs_wakeOne {v : V} (h : Needs need own own' (k ()) s) :
    Needs need own own' ((wakeOne v).bind k) s := h

end Needs

end TecnicoFS.Threads
