import TecnicoFS.Lib.Threads

/-!
# Calls with one critical section

A call that does all its work between taking a lock, the gate, and giving it back can be
placed in a sequential order at the moment it gives the gate back. Before it takes the gate
it may only read what never changes (`Entering`), inside it may do anything but touch the gate
again (`Inside`), and afterwards it only gives locks back and returns (`Leaving`). Then every
run ends as some sequential order of its calls does (`Reach.serial`): the same results, the
same state, and the calls of each thread in their own order.
-/

namespace TecnicoFS.Threads

variable {T σ L V C R α β : Type}

namespace Prog

/-- The program keeps an invariant and does not touch the gate. -/
def Keeps (g : L) (I : σ → Prop) : Prog σ L V α → Prop
  | .ret _ => True
  | .acquire l _ next => l ≠ g ∧ Keeps g I next
  | .release l next => l ≠ g ∧ Keeps g I next
  | .act e next => ∀ s s', I s → e s = some s' → I s' ∧ Keeps g I (next s)
  | .signal _ _ => False
  | .await _ _ _ _ => False
  | .crash => True

/-- After the critical section: locks are given back and the value is returned. -/
def Leaving (g : L) (r : α) : Prog σ L V α → Prop
  | .ret a => a = r
  | .release l next => l ≠ g ∧ Leaving g r next
  | _ => False

/-- Inside the critical section, until the gate is given back. -/
def Inside (g : L) (I : σ → Prop) : Prog σ L V α → Prop
  | .acquire l _ next => l ≠ g ∧ Inside g I next
  | .release l next => l ≠ g ∧ Inside g I next ∨ l = g ∧ ∃ r, Leaving g r next
  | .act e next => ∀ s s', I s → e s = some s' → I s' ∧ Inside g I (next s)
  | .crash => True
  | _ => False

/-- Before the critical section: the program reads what is the same in all states of the
invariant. It may also return without entering. -/
def Entering (g : L) (I : σ → Prop) : Prog σ L V α → Prop
  | .ret _ => True
  | .acquire l m next => l ≠ g ∧ Entering g I next ∨ l = g ∧ m = .write ∧ Inside g I next
  | .release l next => l ≠ g ∧ Entering g I next
  | .act e next => (∀ s, I s → e s = some s) ∧ (∀ s s', I s → I s' → next s = next s') ∧
      ∀ s, I s → Entering g I (next s)
  | .crash => True
  | _ => False

section Rules

variable {g : L} {I : σ → Prop} {p : Prog σ L V α} {k : α → Prog σ L V β}

theorem Keeps.bind (hp : Keeps g I p) (hk : ∀ a, Keeps g I (k a)) : Keeps g I (p.bind k) := by
  induction p with
  | ret a => exact hk a
  | acquire l m next ih => exact ⟨hp.1, ih hp.2⟩
  | release l next ih => exact ⟨hp.1, ih hp.2⟩
  | act e next ih =>
      intro s s' hs he
      exact ⟨(hp s s' hs he).1, ih s (hp s s' hs he).2⟩
  | signal v next ih => exact hp.elim
  | await v l ready next ih => exact hp.elim
  | crash => trivial

theorem Inside.bind (hp : Keeps g I p) (hk : ∀ a, Inside g I (k a)) : Inside g I (p.bind k) := by
  induction p with
  | ret a => exact hk a
  | acquire l m next ih => exact ⟨hp.1, ih hp.2⟩
  | release l next ih => exact Or.inl ⟨hp.1, ih hp.2⟩
  | act e next ih =>
      intro s s' hs he
      exact ⟨(hp s s' hs he).1, ih s (hp s s' hs he).2⟩
  | signal v next ih => exact hp.elim
  | await v l ready next ih => exact hp.elim
  | crash => trivial

/-- A program that keeps a condition, run alone, ends in a state that meets it. -/
theorem Keeps.eval {a : α} {s' : σ} (hp : Keeps g I p) :
    ∀ {s : σ}, I s → p.eval s = some (a, s') → I s' := by
  induction p with
  | ret b =>
      intro s hs heval
      cases heval
      exact hs
  | acquire l m next ih => exact fun hs heval => ih hp.2 hs heval
  | release l next ih => exact fun hs heval => ih hp.2 hs heval
  | act e next ih =>
      intro s hs heval
      cases he : e s with
      | none =>
          rw [eval_act_of_none he] at heval
          cases heval
      | some s₁ =>
          rw [eval_act_of_some he] at heval
          have hstep := hp s s₁ hs he
          exact ih s hstep.2 hstep.1 heval
  | signal v next ih => exact hp.elim
  | await v l ready next ih => exact hp.elim
  | crash =>
      intro s hs heval
      cases heval

theorem keeps_lock {l : L} (hl : l ≠ g) : Keeps g I (lock l : Prog σ L V Unit) := ⟨hl, trivial⟩

theorem keeps_unlock {l : L} (hl : l ≠ g) : Keeps g I (unlock l : Prog σ L V Unit) := ⟨hl, trivial⟩

theorem keeps_read (f : σ → α) : Keeps g I (Prog.read f : Prog σ L V α) := by
  intro s s' hs he
  cases he
  exact ⟨hs, trivial⟩

theorem keeps_modify {f : σ → σ} (hf : ∀ s, I s → I (f s)) :
    Keeps g I (Prog.modify f : Prog σ L V Unit) := by
  intro s s' hs he
  cases he
  exact ⟨hf s hs, trivial⟩

theorem keeps_modify? {f : σ → Option σ} (hf : ∀ s s', I s → f s = some s' → I s') :
    Keeps g I (Prog.modify? f : Prog σ L V Unit) := fun s s' hs he => ⟨hf s s' hs he, trivial⟩

theorem entering_lock {k : Unit → Prog σ L V β} (hk : Inside g I (k ())) :
    Entering g I ((lock g).bind k) := Or.inr ⟨rfl, rfl, hk⟩

theorem entering_lock_of_ne {l : L} {k : Unit → Prog σ L V β} (hl : l ≠ g)
    (hk : Entering g I (k ())) : Entering g I ((lock l).bind k) := Or.inl ⟨hl, hk⟩

theorem entering_read {f : σ → α} (hconst : ∀ s s', I s → I s' → f s = f s')
    (hk : ∀ s, I s → Entering g I (k (f s))) : Entering g I ((Prog.read f).bind k) :=
  ⟨fun _ _ => rfl, fun s s' hs hs' => congrArg k (hconst s s' hs hs'), hk⟩

/-- A program that is leaving changes nothing any more. -/
theorem Leaving.eval {r : α} (hp : Leaving g r p) (s : σ) : eval p s = some (r, s) := by
  induction p with
  | ret a =>
      cases hp
      rfl
  | release l next ih => exact ih hp.2
  | _ => exact hp.elim

end Rules

end Prog

open Prog

/-! ## Sequential orders -/

/-- The calls run one after the other, with these results. -/
inductive Serial (body : C → Prog σ L V R) (s : σ) : List (C × R) → σ → Prop
  | nil : Serial body s [] s
  | snoc {order : List (C × R)} {s' s'' : σ} {c : C} {r : R} :
      Serial body s order s' → (body c).eval s' = some (r, s'') →
      Serial body s (order ++ [(c, r)]) s''

/-- A call with its thread and its result. -/
abbrev Entry (T C R : Type) : Type := T × C × R

/-- The calls of one thread. -/
def entriesOf [DecidableEq T] (t : T) (order : List (Entry T C R)) : List (Entry T C R) :=
  order.filter fun e => e.1 = t

/-- The calls that have returned. -/
def logged (log : List (Done T C R)) : List (Entry T C R) :=
  log.map fun d => (d.thread, d.call, d.result)

section

variable [DecidableEq T] {t u : T} {order : List (Entry T C R)} {c : C} {r : R}

theorem entriesOf_append_self :
    entriesOf t (order ++ [(t, c, r)]) = entriesOf t order ++ [(t, c, r)] := by
  simp [entriesOf]

theorem entriesOf_append_of_ne (h : u ≠ t) :
    entriesOf u (order ++ [(t, c, r)]) = entriesOf u order := by
  simp [entriesOf, Ne.symm h]

/-- Two lists with the same entries for every thread are permutations of each other. -/
theorem perm_of_entriesOf [DecidableEq C] [DecidableEq R] {order' : List (Entry T C R)}
    (h : ∀ t, entriesOf t order = entriesOf t order') : order.Perm order' := by
  rw [List.perm_iff_count]
  intro e
  have hcount : ∀ l : List (Entry T C R), (entriesOf e.1 l).count e = l.count e := fun l =>
    List.count_filter (by simp)
  rw [← hcount order, h, hcount]

end

/-! ## Where a call is -/

/-- What is known of a thread: `owner` is the thread inside its critical section, `base` the
state before that section, `rest` the call that is placed but has not returned. -/
inductive Stage (g : L) (I : σ → Prop) (body : C → Prog σ L V R) (owner : Option T) (t : T)
    (state base : σ) : Option (Task σ L V C R) → List (Entry T C R) → Prop
  | idle (howner : owner ≠ some t) : Stage g I body owner t state base none []
  | entering {c : C} {p : Prog σ L V R} {k : Nat} (howner : owner ≠ some t)
      (hp : Entering g I p) (heval : ∀ s, I s → p.eval s = (body c).eval s) :
      Stage g I body owner t state base (some ⟨c, p, k, false⟩) []
  | inside {c : C} {p : Prog σ L V R} {k : Nat} (howner : owner = some t)
      (hp : Inside g I p) (heval : p.eval state = (body c).eval base) :
      Stage g I body owner t state base (some ⟨c, p, k, false⟩) []
  | leaving {c : C} {p : Prog σ L V R} {k : Nat} {r : R} (howner : owner ≠ some t)
      (hp : Leaving g r p) :
      Stage g I body owner t state base (some ⟨c, p, k, false⟩) [(t, c, r)]

section

variable [DecidableEq T] [DecidableEq L] {g : L} {I : σ → Prop} {body : C → Prog σ L V R}
  {s₀ : σ}

/-- A configuration in which the calls placed so far ran one after the other. -/
structure Serialised (g : L) (I : σ → Prop) (body : C → Prog σ L V R) (s₀ : σ)
    (cfg : Config T σ L V C R) (order : List (Entry T C R)) (owner : Option T) (base : σ) :
    Prop where
  serial : Serial body s₀ (order.map Prod.snd) base
  state_inv : I cfg.state
  base_inv : I base
  free : owner = none → cfg.state = base
  held : ∀ t, ((cfg.held t).map Prod.fst).count g = if owner = some t then 1 else 0
  stages : ∀ t, ∃ rest, Stage g I body owner t cfg.state base (cfg.task t) rest ∧
    entriesOf t order = entriesOf t (logged cfg.log) ++ rest

variable {cfg cfg' : Config T σ L V C R} {order order' : List (Entry T C R)}
  {owner owner' : Option T} {base base' : σ} {t u : T}

omit [DecidableEq T] in
theorem map_fst_dropLock (l : L) (held : List (L × Mode)) :
    (dropLock l held).map Prod.fst = (held.map Prod.fst).erase l := by
  induction held with
  | nil => rfl
  | cons p held ih =>
      rcases p with ⟨l', m⟩
      by_cases h : l' = l
      · subst h
        simp
      · rw [dropLock_cons_of_ne h, List.map_cons, ih, List.map_cons,
          List.erase_cons_tail (by simpa using h)]

omit [DecidableEq T] [DecidableEq L] in
/-- What is known of a thread outside its critical section does not depend on the state. -/
theorem Stage.transfer {state state' : σ} {task : Option (Task σ L V C R)}
    {rest : List (Entry T C R)} (h : Stage g I body owner u state base task rest)
    (hown : owner' = some u ↔ owner = some u)
    (hquiet : state' = state ∧ base' = base ∨ owner ≠ some u) :
    Stage g I body owner' u state' base' task rest := by
  cases h with
  | idle howner => exact Stage.idle (mt hown.mp howner)
  | entering howner hp heval => exact Stage.entering (mt hown.mp howner) hp heval
  | inside howner hp heval =>
      rcases hquiet with ⟨rfl, rfl⟩ | hne
      · exact Stage.inside (hown.mpr howner) hp heval
      · exact absurd howner hne
  | leaving howner hp => exact Stage.leaving (mt hown.mp howner) hp

/-- A step of a thread places at most one call, the one that the thread runs, after all calls of
the thread that have returned. -/
def Grows (cfg : Config T σ L V C R) (t : T) (order order' : List (Entry T C R)) : Prop :=
  order' = order ∨ ∃ task r, cfg.task t = some task ∧ order' = order ++ [(t, task.call, r)] ∧
    entriesOf t order = entriesOf t (logged cfg.log)

namespace Serialised

theorem init (hI : I s₀) :
    Serialised g I body s₀ (Config.init s₀ : Config T σ L V C R) [] none s₀ where
  serial := Serial.nil
  state_inv := hI
  base_inv := hI
  free _ := rfl
  held _ := rfl
  stages _ := ⟨[], Stage.idle (by simp), rfl⟩

/-- One thread has moved. -/
theorem update (h : Serialised g I body s₀ cfg order owner base)
    (hserial : Serial body s₀ (order'.map Prod.snd) base') (hstate : I cfg'.state)
    (hbase : I base') (hfree : owner' = none → cfg'.state = base')
    (hown : ∀ u, u ≠ t → (owner' = some u ↔ owner = some u))
    (hheld : ((cfg'.held t).map Prod.fst).count g = if owner' = some t then 1 else 0)
    (hother : ∀ u, u ≠ t → cfg'.task u = cfg.task u ∧ cfg'.held u = cfg.held u ∧
      entriesOf u order' = entriesOf u order ∧
      entriesOf u (logged cfg'.log) = entriesOf u (logged cfg.log))
    (hquiet : (cfg'.state = cfg.state ∧ base' = base) ∨ ∀ u, u ≠ t → owner ≠ some u)
    (hstage : ∃ rest, Stage g I body owner' t cfg'.state base' (cfg'.task t) rest ∧
      entriesOf t order' = entriesOf t (logged cfg'.log) ++ rest) :
    Serialised g I body s₀ cfg' order' owner' base' where
  serial := hserial
  state_inv := hstate
  base_inv := hbase
  free := hfree
  held := by
    intro u
    by_cases hu : u = t
    · subst hu
      exact hheld
    · rw [(hother u hu).2.1, h.held u]
      simp only [hown u hu]
  stages := by
    intro u
    by_cases hu : u = t
    · subst hu
      exact hstage
    · rcases hother u hu with ⟨htask, -, horder, hlog⟩
      rcases h.stages u with ⟨rest, hrest, hentries⟩
      refine ⟨rest, ?_, by rw [horder, hlog, hentries]⟩
      rw [htask]
      exact hrest.transfer (hown u hu) (hquiet.imp id fun hne => hne u hu)

omit [DecidableEq T] [DecidableEq L] in
/-- Nobody else is inside while a thread is. -/
theorem alone (howner : owner = some t) : ∀ u, u ≠ t → owner ≠ some u := by
  intro u hu heq
  rw [howner] at heq
  exact hu (Option.some.inj heq).symm

/-- A thread that can take the gate finds nobody inside. -/
theorem owner_of_grants (h : Serialised g I body s₀ cfg order owner base)
    (hgrants : cfg.Grants g .write) : owner = none := by
  cases owner with
  | none => rfl
  | some u =>
      have hcount := h.held u
      rw [if_pos rfl] at hcount
      have hmem : g ∈ (cfg.held u).map Prod.fst := List.count_pos_iff.mp (by omega)
      rcases List.mem_map.mp hmem with ⟨⟨l, m⟩, hpair, rfl⟩
      exact nomatch (hgrants u m hpair).1

/-- The thread goes on without the gate, and the state stays. -/
theorem goOn (h : Serialised g I body s₀ cfg order owner base) {task : Task σ L V C R}
    {held : List (L × Mode)}
    (hheld : (held.map Prod.fst).count g = ((cfg.held t).map Prod.fst).count g)
    (hstage : ∃ rest, Stage g I body owner t cfg.state base (some task) rest ∧
      entriesOf t order = entriesOf t (logged cfg.log) ++ rest) :
    Serialised g I body s₀ ((cfg.put t task).setHeld t held) order owner base := by
  refine h.update (t := t) h.serial h.state_inv h.base_inv h.free (fun _ _ => Iff.rfl) ?_ ?_
    (Or.inl ⟨rfl, rfl⟩) ?_
  · rw [Config.setHeld_held_self, hheld]
    exact h.held t
  · intro u hu
    refine ⟨?_, ?_, rfl, rfl⟩
    · rw [Config.setHeld_task, Config.put_task_of_ne hu]
    · rw [Config.setHeld_held_of_ne hu, Config.put_held]
  · rw [Config.setHeld_task, Config.put_task_self]
    exact hstage

/-- The thread goes on, and so does the state, which only a thread inside changes. -/
theorem act (h : Serialised g I body s₀ cfg order owner base) {task : Task σ L V C R} {s' : σ}
    (hstate : I s') (hquiet : s' = cfg.state ∨ owner = some t)
    (hstage : ∃ rest, Stage g I body owner t s' base (some task) rest ∧
      entriesOf t order = entriesOf t (logged cfg.log) ++ rest) :
    Serialised g I body s₀ ((cfg.put t task).setState s') order owner base := by
  refine h.update (t := t) h.serial hstate h.base_inv ?_ (fun _ _ => Iff.rfl) (h.held t) ?_ ?_ ?_
  · intro hnone
    rcases hquiet with hsame | howner
    · exact hsame.trans (h.free hnone)
    · rw [hnone] at howner
      cases howner
  · intro u hu
    exact ⟨Config.put_task_of_ne hu, rfl, rfl, rfl⟩
  · exact hquiet.imp (fun hsame => ⟨hsame, rfl⟩) alone
  · rw [Config.setState_task, Config.put_task_self]
    exact hstage

/-- A call begins. -/
theorem call (h : Serialised g I body s₀ cfg order owner base) {c : C}
    (hidle : cfg.task t = none) (hbody : Entering g I (body c)) :
    Serialised g I body s₀ (cfg.put t ⟨c, body c, cfg.log.length, false⟩) order owner base := by
  have hheld : (cfg.put t ⟨c, body c, cfg.log.length, false⟩).setHeld t (cfg.held t) =
      cfg.put t ⟨c, body c, cfg.log.length, false⟩ := by
    unfold Config.setHeld
    rw [Config.put_held, Function.update_eq_self]
    rfl
  rw [← hheld]
  rcases h.stages t with ⟨rest, hstage, hentries⟩
  rw [hidle] at hstage
  cases hstage with
  | idle howner => exact h.goOn rfl ⟨[], Stage.entering howner hbody fun _ _ => rfl, hentries⟩

/-- A call returns: if it did nothing at all, it is placed now. -/
theorem finish (h : Serialised g I body s₀ cfg order owner base) {c : C} {k : Nat} {r : R}
    (htask : cfg.task t = some ⟨c, .ret r, k, false⟩) :
    ∃ order' owner' base', Serialised g I body s₀ (cfg.finish t c k r) order' owner' base' ∧
      Grows cfg t order order' := by
  have hlog : logged (cfg.finish t c k r).log = logged cfg.log ++ [(t, c, r)] := by
    simp [logged]
  rcases h.stages t with ⟨rest, hstage, hentries⟩
  rw [htask] at hstage
  have hheld := h.held t
  cases hstage with
  | entering howner _ heval =>
      refine ⟨order ++ [(t, c, r)], owner, base, h.update (t := t) ?_ h.state_inv h.base_inv h.free
        (fun _ _ => Iff.rfl) hheld ?_ (Or.inl ⟨rfl, rfl⟩) ⟨[], ?_, ?_⟩,
        Or.inr ⟨_, r, htask, rfl, hentries.trans (List.append_nil _)⟩⟩
      · rw [List.map_append]
        exact h.serial.snoc (heval base h.base_inv).symm
      · intro u hu
        rw [hlog]
        exact ⟨Config.finish_task_of_ne hu, rfl, entriesOf_append_of_ne hu,
          entriesOf_append_of_ne hu⟩
      · rw [Config.finish_task_self]
        exact Stage.idle howner
      · rw [hlog, entriesOf_append_self, entriesOf_append_self, hentries, List.append_nil,
          List.append_nil]
  | inside _ hp _ => exact hp.elim
  | leaving howner hp =>
      cases hp
      refine ⟨order, owner, base, h.update (t := t) h.serial h.state_inv h.base_inv h.free
        (fun _ _ => Iff.rfl) hheld ?_ (Or.inl ⟨rfl, rfl⟩) ⟨[], ?_, ?_⟩, Or.inl rfl⟩
      · intro u hu
        rw [hlog]
        exact ⟨Config.finish_task_of_ne hu, rfl, rfl, entriesOf_append_of_ne hu⟩
      · rw [Config.finish_task_self]
        exact Stage.idle howner
      · rw [hlog, entriesOf_append_self, hentries, List.append_nil]

/-- A lock is taken: the gate by a thread that enters, then nobody is inside. -/
theorem acquire (h : Serialised g I body s₀ cfg order owner base) {c : C} {k : Nat} {l : L}
    {m : Mode} {next : Prog σ L V R} (htask : cfg.task t = some ⟨c, .acquire l m next, k, false⟩)
    (hgrants : cfg.Grants l m) :
    ∃ owner', Serialised g I body s₀
      ((cfg.put t ⟨c, next, k, false⟩).setHeld t ((l, m) :: cfg.held t)) order owner' base := by
  rcases h.stages t with ⟨rest, hstage, hentries⟩
  rw [htask] at hstage
  -- a lock other than the gate changes nothing
  have hother : l ≠ g → (∃ rest, Stage g I body owner t cfg.state base
        (some ⟨c, next, k, false⟩) rest ∧
      entriesOf t order = entriesOf t (logged cfg.log) ++ rest) →
      ∃ owner', Serialised g I body s₀
        ((cfg.put t ⟨c, next, k, false⟩).setHeld t ((l, m) :: cfg.held t)) order owner' base := by
    intro hl hnext
    refine ⟨owner, h.goOn ?_ hnext⟩
    rw [List.map_cons, List.count_cons_of_ne hl]
  cases hstage with
  | entering howner hp heval =>
      rcases hp with ⟨hl, hnext⟩ | ⟨rfl, rfl, hnext⟩
      · exact hother hl ⟨[], Stage.entering howner hnext heval, hentries⟩
      · have hnone := h.owner_of_grants hgrants
        subst hnone
        have hsame : cfg.state = base := h.free rfl
        refine ⟨some t, h.update (t := t) h.serial h.state_inv h.base_inv (fun hno => nomatch hno)
          (fun u hu => ?_) ?_ ?_ (Or.inl ⟨rfl, rfl⟩) ⟨[], ?_, hentries⟩⟩
        · exact iff_of_false (fun heq => hu (Option.some.inj heq).symm) (by simp)
        · rw [Config.setHeld_held_self, List.map_cons, List.count_cons_self, h.held t]
          simp
        · intro u hu
          refine ⟨?_, ?_, rfl, rfl⟩
          · rw [Config.setHeld_task, Config.put_task_of_ne hu]
          · rw [Config.setHeld_held_of_ne hu, Config.put_held]
        · rw [Config.setHeld_task, Config.put_task_self, Config.setHeld_state, Config.put_state]
          refine Stage.inside rfl hnext ?_
          rw [hsame]
          exact heval base h.base_inv
  | inside howner hp heval => exact hother hp.1 ⟨[], Stage.inside howner hp.2 heval, hentries⟩
  | leaving _ hp => exact hp.elim

/-- A lock is given back: with the gate, the call is placed at the end of the order. -/
theorem release (h : Serialised g I body s₀ cfg order owner base) {c : C} {k : Nat} {l : L}
    {next : Prog σ L V R} (htask : cfg.task t = some ⟨c, .release l next, k, false⟩) :
    ∃ order' owner' base', Serialised g I body s₀
      ((cfg.put t ⟨c, next, k, false⟩).setHeld t (dropLock l (cfg.held t))) order' owner' base' ∧
        Grows cfg t order order' := by
  rcases h.stages t with ⟨rest, hstage, hentries⟩
  rw [htask] at hstage
  -- a lock other than `g` changes the stage of no thread
  have hother : l ≠ g → (∃ rest, Stage g I body owner t cfg.state base
        (some ⟨c, next, k, false⟩) rest ∧
      entriesOf t order = entriesOf t (logged cfg.log) ++ rest) →
      ∃ order' owner' base', Serialised g I body s₀
        ((cfg.put t ⟨c, next, k, false⟩).setHeld t (dropLock l (cfg.held t)))
        order' owner' base' ∧ Grows cfg t order order' := by
    intro hl hnext
    refine ⟨order, owner, base, h.goOn ?_ hnext, Or.inl rfl⟩
    rw [map_fst_dropLock, List.count_erase_of_ne (Ne.symm hl)]
  cases hstage with
  | entering howner hp heval =>
      exact hother hp.1 ⟨[], Stage.entering howner hp.2 heval, hentries⟩
  | inside howner hp heval =>
      rcases hp with ⟨hl, hnext⟩ | ⟨rfl, r, hnext⟩
      · exact hother hl ⟨[], Stage.inside howner hnext heval, hentries⟩
      · -- the state at this moment is the next base
        have hresult : (body c).eval base = some (r, cfg.state) := by
          rw [← heval]
          exact hnext.eval cfg.state
        refine ⟨order ++ [(t, c, r)], none, cfg.state, h.update (t := t) ?_ h.state_inv h.state_inv
          (fun _ => rfl) (fun u hu => ?_) ?_ ?_ (Or.inr (alone howner))
          ⟨[(t, c, r)], ?_, ?_⟩, Or.inr ⟨_, r, htask, rfl, hentries.trans (List.append_nil _)⟩⟩
        · rw [List.map_append]
          exact h.serial.snoc hresult
        · exact iff_of_false (by simp) (alone howner u hu)
        · rw [Config.setHeld_held_self, map_fst_dropLock, List.count_erase_self, h.held t,
            if_pos howner]
          simp
        · intro u hu
          refine ⟨?_, ?_, entriesOf_append_of_ne hu, rfl⟩
          · rw [Config.setHeld_task, Config.put_task_of_ne hu]
          · rw [Config.setHeld_held_of_ne hu, Config.put_held]
        · rw [Config.setHeld_task, Config.put_task_self]
          exact Stage.leaving (by simp) hnext
        · rw [entriesOf_append_self, hentries, List.append_nil]
          rfl
  | leaving howner hp => exact hother hp.1 ⟨_, Stage.leaving howner hp.2, hentries⟩

/-- A step on the state: before its critical section a call changes nothing. -/
theorem effect (h : Serialised g I body s₀ cfg order owner base) {c : C} {k : Nat}
    {e : σ → Option σ} {next : σ → Prog σ L V R} {s' : σ}
    (htask : cfg.task t = some ⟨c, .act e next, k, false⟩) (heff : e cfg.state = some s') :
    Serialised g I body s₀ ((cfg.put t ⟨c, next cfg.state, k, false⟩).setState s')
      order owner base := by
  rcases h.stages t with ⟨rest, hstage, hentries⟩
  rw [htask] at hstage
  cases hstage with
  | entering howner hp heval =>
      rcases hp with ⟨hkeep, hconst, hnext⟩
      have hs' : s' = cfg.state := by
        rw [hkeep _ h.state_inv] at heff
        exact (Option.some.inj heff).symm
      refine h.act (hs' ▸ h.state_inv) (Or.inl hs')
        ⟨[], Stage.entering howner (hnext _ h.state_inv) fun s hs => ?_, hentries⟩
      rw [hconst _ _ h.state_inv hs, ← heval s hs]
      exact (eval_act_of_some (hkeep s hs)).symm
  | inside howner hp heval =>
      rcases hp _ _ h.state_inv heff with ⟨hI, hnext⟩
      refine h.act hI (Or.inr howner) ⟨[], Stage.inside howner hnext ?_, hentries⟩
      rw [← heval]
      exact (eval_act_of_some heff).symm
  | leaving _ hp => exact hp.elim

/-- One step keeps the calls placed so far in order. -/
theorem step {allowed : C → Prop} (h : Serialised g I body s₀ cfg order owner base)
    (hbody : ∀ c, allowed c → Entering g I (body c)) (hstep : Step body cfg t cfg')
    (hstarts : Starts allowed cfg t cfg') :
    ∃ order' owner' base', Serialised g I body s₀ cfg' order' owner' base' ∧
      Grows cfg t order order' := by
  -- calls with one critical section neither signal nor wait
  have hno : ∀ {c p k asleep}, cfg.task t = some ⟨c, p, k, asleep⟩ → asleep = false ∧
      ((∃ v next, p = .signal v next) ∨ (∃ v l ready next, p = .await v l ready next) → False) := by
    intro c p k asleep htask
    rcases h.stages t with ⟨rest, hstage, -⟩
    rw [htask] at hstage
    cases hstage with
    | entering _ hp _ =>
        refine ⟨rfl, ?_⟩
        rintro (⟨v, next, rfl⟩ | ⟨v, l, ready, next, rfl⟩)
        · exact hp
        · exact hp
    | inside _ hp _ =>
        refine ⟨rfl, ?_⟩
        rintro (⟨v, next, rfl⟩ | ⟨v, l, ready, next, rfl⟩)
        · exact hp
        · exact hp
    | leaving _ hp =>
        refine ⟨rfl, ?_⟩
        rintro (⟨v, next, rfl⟩ | ⟨v, l, ready, next, rfl⟩)
        · exact hp
        · exact hp
  cases hstep with
  | call hidle =>
      have hallowed := hstarts hidle _ Config.put_task_self
      exact ⟨_, _, _, h.call hidle (hbody _ hallowed), Or.inl rfl⟩
  | finish htask => exact h.finish htask
  | acquire htask hfree =>
      rcases h.acquire htask hfree with ⟨owner', h'⟩
      exact ⟨_, owner', _, h', Or.inl rfl⟩
  | release htask _ => exact h.release htask
  | act htask heff => exact ⟨_, _, _, h.effect htask heff, Or.inl rfl⟩
  | signalNone htask _ => exact ((hno htask).2 (Or.inl ⟨_, _, rfl⟩)).elim
  | signalOne htask _ => exact ((hno htask).2 (Or.inl ⟨_, _, rfl⟩)).elim
  | pass htask _ => exact ((hno htask).2 (Or.inr ⟨_, _, _, _, rfl⟩)).elim
  | sleep htask _ _ => exact ((hno htask).2 (Or.inr ⟨_, _, _, _, rfl⟩)).elim
  | wake htask => exact nomatch (hno htask).1

end Serialised

/-- Every run of calls with one critical section can be put in a sequential order. -/
theorem Reach.serialised {allowed : C → Prop} (hreach : Reach body s₀ (Starts allowed) cfg)
    (hI : I s₀) (hbody : ∀ c, allowed c → Entering g I (body c)) :
    ∃ order owner base, Serialised g I body s₀ cfg order owner base := by
  refine hreach.invariant (P := fun cfg => ∃ order owner base,
    Serialised g I body s₀ cfg order owner base) ⟨_, _, _, Serialised.init hI⟩ ?_
  rintro cfg t cfg' ⟨order, owner, base, h⟩ hstep hstarts
  obtain ⟨order', owner', base', h', -⟩ := h.step hbody hstep hstarts
  exact ⟨order', owner', base', h'⟩

/-- Once all calls have returned, the run is that of some sequential order: the same results,
the same state, and the calls of every thread in the order in which it made them. -/
theorem Reach.serial {allowed : C → Prop} (hreach : Reach body s₀ (Starts allowed) cfg)
    (hI : I s₀) (hbody : ∀ c, allowed c → Entering g I (body c))
    (hidle : ∀ t, cfg.task t = none) :
    ∃ order : List (Entry T C R), (∀ t, entriesOf t order = entriesOf t (logged cfg.log)) ∧
      Serial body s₀ (order.map Prod.snd) cfg.state := by
  rcases hreach.serialised hI hbody with ⟨order, owner, base, h⟩
  have hstages : ∀ t, owner ≠ some t ∧ entriesOf t order = entriesOf t (logged cfg.log) := by
    intro t
    rcases h.stages t with ⟨rest, hstage, hentries⟩
    rw [hidle t] at hstage
    cases hstage with
    | idle howner => exact ⟨howner, by rw [hentries, List.append_nil]⟩
  have hnone : owner = none := by
    cases owner with
    | none => rfl
    | some t => exact absurd rfl (hstages t).1
  refine ⟨order, fun t => (hstages t).2, ?_⟩
  rw [h.free hnone]
  exact h.serial

end

end TecnicoFS.Threads
