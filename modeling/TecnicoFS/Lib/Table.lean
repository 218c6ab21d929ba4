import Mathlib.Data.Fin.Tuple.Basic
import Mathlib.Data.Fin.Basic
import Mathlib.Data.Fintype.Basic
import Mathlib.Data.Finset.Card
import Mathlib.Logic.Function.Basic

/-!
# Tables

Fixed-size tables are functions on `Fin n`. `index?` is the bounds check that
turns a signed number into an index; `firstFit` is the scan for the first entry
that passes a test.
-/

/-- The index a number stands for, if it is within bounds. -/
def index? (n : Nat) (i : Int) : Option (Fin n) :=
  if h : 0 ≤ i ∧ i < n then some ⟨i.toNat, by omega⟩ else none

theorem index?_eq_some {n : Nat} {i : Int} {k : Fin n} : index? n i = some k ↔ i = k := by
  unfold index?
  split
  · simp only [Option.some.injEq, Fin.ext_iff]
    omega
  · simp only [reduceCtorEq, false_iff]
    omega

theorem index?_eq_none {n : Nat} {i : Int} : index? n i = none ↔ i < 0 ∨ (n : Int) ≤ i := by
  unfold index?
  split
  · simp only [reduceCtorEq, false_iff]
    omega
  · simp only [true_iff]
    omega

@[simp] theorem index?_natCast {n : Nat} (k : Fin n) : index? n (k : Nat) = some k :=
  index?_eq_some.mpr rfl

/-- The first entry that passes the test. -/
def firstFit {n : Nat} (p : Fin n → Prop) [DecidablePred p] : Option (Fin n) :=
  Fin.find? fun i => decide (p i)

theorem firstFit_eq_some {n : Nat} {p : Fin n → Prop} [DecidablePred p] {i : Fin n} :
    firstFit p = some i ↔ p i ∧ ∀ j < i, ¬ p j := by
  simp [firstFit]

theorem firstFit_eq_none {n : Nat} {p : Fin n → Prop} [DecidablePred p] :
    firstFit p = none ↔ ∀ i, ¬ p i := by
  simp [firstFit]

/-- The scan as a search in a list of all entries. -/
theorem firstFit_eq_find? {n : Nat} {p : Fin n → Prop} [DecidablePred p] :
    firstFit p = (List.finRange n).find? fun i => decide (p i) :=
  Fin.find?_eq_find?_finRange

/-- The scan depends only on the tests it makes. -/
theorem firstFit_congr {n : Nat} {p q : Fin n → Prop} [DecidablePred p] [DecidablePred q]
    (h : ∀ i, p i ↔ q i) : firstFit p = firstFit q := by
  unfold firstFit
  congr
  funext i
  simp [h i]

/-! ## How many entries have a value -/

section Count

variable {n : Nat} {α : Type} [DecidableEq α] {f : Fin n → α} {i : Fin n} {a b : α}

/-- An entry that gets the value is one more. -/
theorem card_update_of_ne (h : f i ≠ a) :
    (Finset.univ.filter fun j => Function.update f i a j = a).card =
      (Finset.univ.filter fun j => f j = a).card + 1 := by
  have hset : (Finset.univ.filter fun j => Function.update f i a j = a) =
      insert i (Finset.univ.filter fun j => f j = a) := by
    ext j
    by_cases hj : j = i
    · simp [hj]
    · simp [hj]
  rw [hset, Finset.card_insert_of_notMem]
  simpa using h

/-- An entry that loses the value is one less. -/
theorem card_update_of_eq (h : f i = a) (hb : b ≠ a) :
    (Finset.univ.filter fun j => Function.update f i b j = a).card + 1 =
      (Finset.univ.filter fun j => f j = a).card := by
  have hset : (Finset.univ.filter fun j => Function.update f i b j = a) =
      (Finset.univ.filter fun j => f j = a).erase i := by
    ext j
    by_cases hj : j = i
    · simp [hj, hb]
    · simp [hj]
  rw [hset, Finset.card_erase_add_one]
  simpa using h

end Count
