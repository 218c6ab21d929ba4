import Mathlib.Data.List.Basic
import Mathlib.Tactic.Common

/-!
# Addressed memory

A memory is a total function from addresses to cells. `load` and `store` move
runs of cells; `overwrite` is the effect of a store on the contents seen
through a window. The rules say how a load sees an earlier store: exactly
(`load_store_same`), not at all (`load_store_disjoint`), or through a window
that the store overwrites or extends (`load_store_window`).
-/

universe u

/-- A memory: every address holds a cell. -/
abbrev Memory (α : Type u) := Nat → α

namespace Memory

variable {α : Type u} {m m' : Memory α} {a b n k : Nat} {bs : List α}

/-- The `n` cells starting at `a`. -/
def load (m : Memory α) (a n : Nat) : List α :=
  (List.range n).map fun i => m (a + i)

/-- Copy the cells `bs` into memory starting at `a`. -/
def store (m : Memory α) (a : Nat) (bs : List α) : Memory α :=
  fun x => if a ≤ x then (bs[x - a]?).getD (m x) else m x

/-- Replace the cells of a list from position `off` on, extending the list
where the new cells run past its end. -/
def overwrite (l : List α) (off : Nat) (bs : List α) : List α :=
  l.take off ++ bs ++ l.drop (off + bs.length)

/-! ## Loads -/

@[simp] theorem length_load : (load m a n).length = n := by
  simp [load]

@[simp] theorem load_zero : load m a 0 = [] := rfl

theorem getElem?_load : (load m a n)[k]? = if k < n then some (m (a + k)) else none := by
  by_cases hk : k < n <;> simp [load, hk]

/-- A load depends only on the cells it reads. -/
theorem load_congr (h : ∀ x, a ≤ x → x < a + n → m x = m' x) :
    load m a n = load m' a n := by
  apply List.map_congr_left
  intro i hi
  have hi' : i < n := List.mem_range.mp hi
  exact h (a + i) (by omega) (by omega)

/-- A load splits at any point. -/
theorem load_add : load m a (n + k) = load m a n ++ load m (a + n) k := by
  simp only [load, List.range_add, List.map_append, List.map_map]
  congr 1
  apply List.map_congr_left
  intro i _
  simp [Nat.add_assoc]

theorem take_load (h : k ≤ n) : (load m a n).take k = load m a k := by
  obtain ⟨j, rfl⟩ := Nat.exists_eq_add_of_le h
  rw [load_add, List.take_left' length_load]

theorem drop_load : (load m a n).drop k = load m (a + k) (n - k) := by
  rcases Nat.le_total k n with h | h
  · obtain ⟨j, rfl⟩ := Nat.exists_eq_add_of_le h
    rw [load_add, List.drop_left' length_load, Nat.add_sub_cancel_left]
  · rw [List.drop_eq_nil_of_le (by simpa using h), Nat.sub_eq_zero_of_le h, load_zero]

/-- A part of what is seen through a window, at its own address. -/
theorem load_part {xs ys zs : List α}
    (h : load m a (xs ++ (ys ++ zs)).length = xs ++ (ys ++ zs)) :
    load m (a + xs.length) ys.length = ys := by
  rw [List.length_append, load_add] at h
  have hrest := List.append_inj_right h length_load
  rw [List.length_append, load_add] at hrest
  exact List.append_inj_left hrest length_load

/-! ## Loads after a store -/

theorem store_of_lt (h : k < a) : store m a bs k = m k := by
  simp [store, show ¬ a ≤ k by omega]

theorem store_of_ge (h : a + bs.length ≤ k) : store m a bs k = m k := by
  simp [store, List.getElem?_eq_none (show bs.length ≤ k - a by omega)]

@[simp] theorem store_nil : store m a [] = m := by
  funext x
  simp [store]

theorem store_add (h : k < bs.length) : store m a bs (a + k) = bs[k] := by
  simp [store, h]

/-- Storing what is there changes nothing. -/
theorem store_load : store m a (load m a n) = m := by
  funext x
  rcases Nat.lt_or_ge x a with hlo | hlo
  · exact store_of_lt hlo
  · rcases Nat.lt_or_ge x (a + n) with hhi | hhi
    · rw [store, if_pos hlo, getElem?_load, if_pos (by omega), Option.getD_some,
        Nat.add_sub_cancel' hlo]
    · exact store_of_ge (by rw [length_load]; exact hhi)

/-- Storing piece by piece is storing at once. -/
theorem store_append (m : Memory α) (a : Nat) (xs ys : List α) :
    store (store m a xs) (a + xs.length) ys = store m a (xs ++ ys) := by
  funext x
  rcases Nat.lt_or_ge x (a + xs.length) with hx | hx
  · rw [store_of_lt hx]
    rcases Nat.lt_or_ge x a with hlo | hlo
    · rw [store_of_lt hlo, store_of_lt hlo]
    · have hcell : x = a + (x - a) := by omega
      have hxs : x - a < xs.length := by omega
      have happ : x - a < (xs ++ ys).length := by rw [List.length_append]; omega
      rw [hcell, store_add hxs, store_add happ, List.getElem_append_left hxs]
  · rcases Nat.lt_or_ge x (a + (xs ++ ys).length) with hhi | hhi
    · rw [List.length_append] at hhi
      have hys : x - (a + xs.length) < ys.length := by omega
      have happ : x - a < (xs ++ ys).length := by rw [List.length_append]; omega
      have hcell : x = a + xs.length + (x - (a + xs.length)) := by omega
      have hcell' : x = a + (x - a) := by omega
      conv_lhs => rw [hcell, store_add hys]
      conv_rhs => rw [hcell', store_add happ, List.getElem_append_right (by omega)]
      simp only [Nat.sub_sub]
    · rw [store_of_ge hhi]
      rw [List.length_append] at hhi
      rw [store_of_ge (by omega), store_of_ge (by omega)]

@[simp] theorem load_store_same (m : Memory α) (a : Nat) (bs : List α) :
    load (store m a bs) a bs.length = bs := by
  apply List.ext_getElem?
  intro i
  rw [getElem?_load]
  by_cases hi : i < bs.length
  · simp [hi, store_add hi]
  · simp [hi]

/-- A load from within a run of equal cells. -/
theorem load_store_replicate (m : Memory α) (a : Nat) {off len : Nat} (x : α) (h : off + n ≤ len) :
    load (store m a (List.replicate len x)) (a + off) n = List.replicate n x := by
  rw [List.eq_replicate_iff]
  refine ⟨length_load, fun y hy => ?_⟩
  rcases List.mem_map.mp hy with ⟨i, hi, rfl⟩
  have hlt : off + i < (List.replicate len x).length := by
    have hin := List.mem_range.mp hi
    rw [List.length_replicate]
    omega
  rw [Nat.add_assoc, store_add hlt, List.getElem_replicate]

/-- A store outside the loaded window is invisible. -/
theorem load_store_disjoint (h : a + n ≤ b ∨ b + bs.length ≤ a) :
    load (store m b bs) a n = load m a n := by
  apply load_congr
  intro x hx hx'
  rcases h with h | h
  · exact store_of_lt (by omega)
  · exact store_of_ge (by omega)

@[simp] theorem length_overwrite {l : List α} {off : Nat} (h : off ≤ l.length) :
    (overwrite l off bs).length = max l.length (off + bs.length) := by
  simp only [overwrite, List.length_append, List.length_take, List.length_drop]
  omega

/-- A store that starts inside a window (or at its end) overwrites or extends
the contents seen through that window. -/
theorem load_store_window {off : Nat} (h : off ≤ n) :
    load (store m (a + off) bs) a (max n (off + bs.length)) =
      overwrite (load m a n) off bs := by
  have hsplit : max n (off + bs.length) =
      off + (bs.length + (n - (off + bs.length))) := by omega
  rw [hsplit, load_add, load_add, overwrite, take_load h, drop_load, load_store_same,
    load_store_disjoint (Or.inl (Nat.le_refl _)),
    load_store_disjoint (Or.inr (by omega)), List.append_assoc, Nat.add_assoc]

/-- A store right after a window extends what is seen through it. -/
theorem load_store_append : load (store m (a + n) bs) a (n + bs.length) = load m a n ++ bs := by
  rw [load_add, load_store_same, load_store_disjoint (Or.inl (Nat.le_refl _))]

/-- A store inside a window. -/
theorem load_store_inside {off : Nat} (h : off + bs.length ≤ n) :
    load (store m (a + off) bs) a n = overwrite (load m a n) off bs := by
  rw [← load_store_window (by omega), Nat.max_eq_left h]

/-- A cell of an overwritten list. -/
theorem getElem?_overwrite {l : List α} {off : Nat} (h : off ≤ l.length) :
    (overwrite l off bs)[k]? =
      if off ≤ k ∧ k < off + bs.length then bs[k - off]? else l[k]? := by
  have htake : (l.take off).length = off := by simp [h]
  unfold overwrite
  rw [List.append_assoc, List.getElem?_append, htake]
  by_cases hlo : k < off
  · rw [if_pos hlo, if_neg (by omega), List.getElem?_take_of_lt hlo]
  · rw [if_neg hlo, List.getElem?_append]
    by_cases hhi : k < off + bs.length
    · rw [if_pos (by omega), if_pos (by omega)]
    · rw [if_neg (by omega), if_neg (by omega), List.getElem?_drop]
      congr 1
      omega

/-- Overwriting cell by cell under a function. -/
theorem map_overwrite {β : Type} (f : α → β) (l : List α) (off : Nat) (bs : List α) :
    (overwrite l off bs).map f = overwrite (l.map f) off (bs.map f) := by
  simp only [overwrite, List.map_append, List.map_take, List.map_drop, List.length_map]

/-- Overwriting past a prefix leaves the prefix alone. -/
theorem overwrite_append_left {xs ys : List α} :
    overwrite (xs ++ ys) xs.length bs = xs ++ (bs ++ ys.drop bs.length) := by
  rw [overwrite, List.take_left' rfl, List.drop_append, List.drop_eq_nil_of_le (by omega),
    Nat.add_sub_cancel_left, List.nil_append, List.append_assoc]

end Memory
