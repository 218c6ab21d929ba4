import Mathlib.Data.List.Basic
import Mathlib.Tactic.Common

/-!
# Reading a stream

`readBytes n` takes the next `n` items of a stream, once they are there. A loop
that reads one message per iteration is a step function; `consume` iterates it
until it waits for more input or stops. An iteration that makes progress
shortens the stream, so a fuel of one more than its length is enough
(`consume_fuel`), and `Loop.run` unfolds one iteration at a time. `Takes` and
`Stops` say what a loop does on a front of the stream, whatever follows it; they
compose along the stream. An iteration that only reads from the front (`Local`) ends
the same way however long the stream is, so a loop that was waiting goes on from
where it was (`run_waiting`).
-/

universe u v w x

/-- The next `n` items of a stream and what follows them. -/
def readBytes {α : Type u} (n : Nat) (input : List α) : Option (List α × List α) :=
  if n ≤ input.length then some (input.take n, input.drop n) else none

/-- Items at the front of the stream are read back. -/
theorem readBytes_append {α : Type u} {n : Nat} {items rest : List α} (h : items.length = n) :
    readBytes n (items ++ rest) = some (items, rest) := by
  have hle : n ≤ (items ++ rest).length := by
    rw [List.length_append]
    omega
  rw [readBytes, if_pos hle, List.take_left' h, List.drop_left' h]

theorem readBytes_length {α : Type u} {n : Nat} {input items rest : List α}
    (h : readBytes n input = some (items, rest)) :
    items.length = n ∧ rest.length ≤ input.length := by
  unfold readBytes at h
  split at h
  · rcases Prod.mk.inj (Option.some.inj h) with ⟨rfl, rfl⟩
    simp only [List.length_take, List.length_drop]
    omega
  · cases h

/-- Items are there however long the stream is. -/
theorem readBytes_more {α : Type u} {n : Nat} {input items rest : List α}
    (h : readBytes n input = some (items, rest)) (more : List α) :
    readBytes n (input ++ more) = some (items, rest ++ more) := by
  unfold readBytes at h
  split at h
  · rename_i hle
    rcases Prod.mk.inj (Option.some.inj h) with ⟨rfl, rfl⟩
    have hle' : n ≤ (input ++ more).length := by
      rw [List.length_append]
      omega
    rw [readBytes, if_pos hle', List.take_append_of_le_length hle,
      List.drop_append_of_le_length hle]
  · cases h

/-! ## Loops -/

/-- How an iteration ends: blocked on the stream, out of the loop, or ready for
the next one. -/
inductive Outcome (σ : Type u) (α : Type v) (ω : Type w) where
  | wait
  | stop (why : ω)
  | next (state : σ) (rest : List α)

/-- The same end with more on the stream. -/
def Outcome.more {σ : Type u} {α : Type v} {ω : Type w} :
    Outcome σ α ω → List α → Outcome σ α ω
  | .wait, _ => .wait
  | .stop why, _ => .stop why
  | .next state rest, more => .next state (rest ++ more)

/-- How a loop is left behind: waiting for input, or stopped. -/
inductive LoopEnd (σ : Type u) (α : Type v) (ω : Type w) where
  | waiting (state : σ) (rest : List α)
  | stopped (why : ω)
deriving DecidableEq

/-- One iteration: what it does (a list of events) and how it ends. -/
abbrev Loop (σ : Type u) (α : Type v) (ε : Type x) (ω : Type w) :=
  σ → List α → List ε × Outcome σ α ω

namespace Loop

variable {σ : Type u} {α : Type v} {ε : Type x} {ω : Type w} {body : Loop σ α ε ω}

/-- Every iteration that completes takes something from the stream. -/
def Progress (body : Loop σ α ε ω) : Prop :=
  ∀ s input es s' rest, body s input = (es, .next s' rest) → rest.length < input.length

/-- Iterate, at most `fuel` times. -/
def consume (body : Loop σ α ε ω) : Nat → σ → List α → List ε × LoopEnd σ α ω
  | 0, s, input => ([], .waiting s input)
  | fuel + 1, s, input =>
      match body s input with
      | (es, .wait) => (es, .waiting s input)
      | (es, .stop why) => (es, .stopped why)
      | (es, .next s' rest) =>
          (es ++ (consume body fuel s' rest).1, (consume body fuel s' rest).2)

/-- Iterate until the loop waits or stops. -/
def run (body : Loop σ α ε ω) (s : σ) (input : List α) : List ε × LoopEnd σ α ω :=
  consume body (input.length + 1) s input

/-- Any two fuels above the length of the stream give the same run. -/
theorem consume_fuel (hp : Progress body) (fuel : Nat) :
    ∀ fuel' s input, input.length < fuel → input.length < fuel' →
      consume body fuel s input = consume body fuel' s input := by
  induction fuel with
  | zero =>
      intro fuel' s input h
      exact absurd h (Nat.not_lt_zero _)
  | succ fuel ih =>
      intro fuel' s input h h'
      cases fuel' with
      | zero => exact absurd h' (Nat.not_lt_zero _)
      | succ fuel' =>
          unfold consume
          split
          · rfl
          · rfl
          · -- the iteration made progress, so both fuels are enough for the rest
            rename_i es s' rest hbody
            have hlt := hp _ _ _ _ _ hbody
            rw [ih fuel' s' rest (by omega) (by omega)]

/-! One iteration at a time. -/

theorem run_wait {s : σ} {input : List α} {es : List ε} (h : body s input = (es, .wait)) :
    run body s input = (es, .waiting s input) := by
  simp only [run, consume, h]

theorem run_stop {s : σ} {input : List α} {es : List ε} {why : ω}
    (h : body s input = (es, .stop why)) : run body s input = (es, .stopped why) := by
  simp only [run, consume, h]

theorem run_next (hp : Progress body) {s s' : σ} {input rest : List α} {es : List ε}
    (h : body s input = (es, .next s' rest)) :
    run body s input = (es ++ (run body s' rest).1, (run body s' rest).2) := by
  have hlt := hp _ _ _ _ _ h
  have hfuel : consume body input.length s' rest = run body s' rest :=
    consume_fuel hp _ _ s' rest hlt (Nat.lt_succ_self _)
  unfold run
  rw [consume]
  simp only [h, hfuel]
  rfl

/-! ## A longer stream -/

/-- An iteration that does not wait takes no notice of what follows on the stream. -/
def Local (body : Loop σ α ε ω) : Prop :=
  ∀ s input more, (body s input).2 = .wait ∨
    body s (input ++ more) = ((body s input).1, (body s input).2.more more)

/-- An iteration that waits with more on the stream waits with less. -/
theorem Local.wait_of_more (hl : Local body) {s : σ} {input more : List α}
    (h : (body s (input ++ more)).2 = .wait) : (body s input).2 = .wait := by
  rcases hl s input more with hwait | hmore
  · exact hwait
  · rw [hmore] at h
    cases hout : (body s input).2 with
    | wait => rfl
    | stop why =>
        rw [hout] at h
        cases h
    | next s' rest =>
        rw [hout] at h
        cases h

/-- A loop that was waiting goes on from where it was. -/
theorem run_waiting (hp : Progress body) (hl : Local body) {fuel : Nat} {s s' : σ}
    {input rest : List α} (hfuel : input.length < fuel)
    (h : (consume body fuel s input).2 = .waiting s' rest) :
    ∃ es, (body s' rest).2 = .wait ∧ ∀ more, run body s (input ++ more) =
      (es ++ (run body s' (rest ++ more)).1, (run body s' (rest ++ more)).2) := by
  induction fuel generalizing s input with
  | zero => exact absurd hfuel (Nat.not_lt_zero _)
  | succ fuel ih =>
      rw [consume] at h
      split at h
      · rename_i es hbody
        cases h
        exact ⟨[], by rw [hbody], fun more => rfl⟩
      · cases h
      · rename_i es s₁ rest₁ hbody
        have hlt := hp _ _ _ _ _ hbody
        rcases ih (by omega) h with ⟨es', hwait, hrun⟩
        refine ⟨es ++ es', hwait, fun more => ?_⟩
        have hmore : body s (input ++ more) = (es, .next s₁ (rest₁ ++ more)) := by
          rcases hl s input more with hnot | hmore
          · rw [hbody] at hnot
            cases hnot
          · rw [hmore, hbody]
            rfl
        rw [run_next hp hmore, hrun more, List.append_assoc]

/-- A loop that has stopped does not read what follows. -/
theorem run_stopped (hp : Progress body) (hl : Local body) {fuel : Nat} {s : σ} {input : List α}
    {es : List ε} {why : ω} (h : consume body fuel s input = (es, .stopped why))
    (more : List α) : run body s (input ++ more) = (es, .stopped why) := by
  induction fuel generalizing s input es with
  | zero => cases h
  | succ fuel ih =>
      rw [consume] at h
      split at h
      · cases h
      · rename_i es₁ why₁ hbody
        cases h
        rcases hl s input more with hnot | hmore
        · rw [hbody] at hnot
          cases hnot
        · rw [hbody] at hmore
          exact run_stop hmore
      · rename_i es₁ s₁ rest₁ hbody
        rcases hl s input more with hnot | hmore
        · rw [hbody] at hnot
          cases hnot
        · rw [hbody] at hmore
          rcases Prod.mk.inj h with ⟨rfl, hend⟩
          rw [run_next hp hmore, ih (Prod.ext rfl hend)]

/-! ## The front of a stream -/

/-- The loop takes `front` off the stream, with these events, and goes on. -/
def Takes (body : Loop σ α ε ω) (s : σ) (front : List α) (es : List ε) (s' : σ) : Prop :=
  ∀ rest, run body s (front ++ rest) = (es ++ (run body s' rest).1, (run body s' rest).2)

/-- The loop stops in `front`, whatever follows it. -/
def Stops (body : Loop σ α ε ω) (s : σ) (front : List α) (es : List ε) (why : ω) : Prop :=
  ∀ rest, run body s (front ++ rest) = (es, .stopped why)

variable {s s' s'' : σ} {front back : List α} {es es' : List ε} {why : ω}

theorem Takes.refl : Takes body s [] [] s := fun _ => rfl

theorem Takes.single (hp : Progress body)
    (h : ∀ rest, body s (front ++ rest) = (es, .next s' rest)) : Takes body s front es s' :=
  fun rest => run_next hp (h rest)

theorem Takes.append (h : Takes body s front es s') (h' : Takes body s' back es' s'') :
    Takes body s (front ++ back) (es ++ es') s'' := by
  intro rest
  rw [List.append_assoc, h (back ++ rest), h' rest, List.append_assoc]

theorem Takes.run_eq (h : Takes body s front es s') (hwait : body s' [] = ([], .wait)) :
    run body s front = (es, .waiting s' []) := by
  have hrun := h []
  rw [run_wait hwait, List.append_nil, List.append_nil] at hrun
  exact hrun

theorem Stops.append (h : Stops body s front es why) (back : List α) :
    Stops body s (front ++ back) es why := by
  intro rest
  rw [List.append_assoc]
  exact h (back ++ rest)

theorem Stops.run_eq (h : Stops body s front es why) : run body s front = (es, .stopped why) := by
  have hrun := h []
  rwa [List.append_nil] at hrun

end Loop
