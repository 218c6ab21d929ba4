import Mathlib.Data.Fintype.Card
import Mathlib.Data.Fintype.Sets

/-!
# Exclusive ownership

Owners hold at most one resource each; a predicate marks the resources taken.
`Exclusive` says that the mark and the ownership agree: a resource is taken
exactly when it has an owner, and never has two. The rules acquire a resource
that is not taken, release one that is owned, and bound the number of taken
resources by the number of owners.
-/

universe u v

/-- The taken resources are exactly the owned ones, and no two owners share. -/
structure Exclusive {ι : Type u} {β : Type v} (own : ι → Option β) (taken : β → Prop) :
    Prop where
  taken_iff : ∀ b, taken b ↔ ∃ i, own i = some b
  inj : ∀ i j b, own i = some b → own j = some b → i = j

namespace Exclusive

variable {ι : Type u} {β : Type v} {own own' : ι → Option β} {taken taken' : β → Prop}

/-- An owned resource is taken. -/
theorem taken_of_own (h : Exclusive own taken) {i : ι} {b : β} (hi : own i = some b) :
    taken b :=
  (h.taken_iff b).mpr ⟨i, hi⟩

/-- The same ownership, described differently. -/
theorem congr (h : Exclusive own taken) (hown : ∀ i, own' i = own i)
    (htaken : ∀ b, taken' b ↔ taken b) : Exclusive own' taken' where
  taken_iff := by
    intro b
    rw [htaken, h.taken_iff]
    simp only [hown]
  inj := by
    intro i j b hi hj
    rw [hown] at hi hj
    exact h.inj i j b hi hj

/-- An owner gives its resource back. -/
theorem release (h : Exclusive own taken) {i : ι} {b : β} (hi : own i = some b)
    (hnone : own' i = none) (hother : ∀ j, j ≠ i → own' j = own j)
    (htaken : ∀ c, taken' c ↔ taken c ∧ c ≠ b) : Exclusive own' taken' where
  taken_iff := by
    intro c
    rw [htaken, h.taken_iff]
    constructor
    · rintro ⟨⟨j, hj⟩, hcb⟩
      have hji : j ≠ i := by
        rintro rfl
        exact hcb (Option.some.inj (hj.symm.trans hi))
      exact ⟨j, by rw [hother j hji, hj]⟩
    · rintro ⟨j, hj⟩
      have hji : j ≠ i := by
        rintro rfl
        rw [hnone] at hj
        cases hj
      rw [hother j hji] at hj
      refine ⟨⟨j, hj⟩, ?_⟩
      rintro rfl
      exact hji (h.inj j i c hj hi)
  inj := by
    intro j k c hj hk
    have hne : ∀ l, own' l = some c → l ≠ i := by
      rintro l hl rfl
      rw [hnone] at hl
      cases hl
    rw [hother j (hne j hj)] at hj
    rw [hother k (hne k hk)] at hk
    exact h.inj j k c hj hk

/-- An owner without a resource takes a free one. -/
theorem acquire (h : Exclusive own taken) {i : ι} {b : β} (hi : own i = none)
    (hfree : ¬ taken b) (hsome : own' i = some b) (hother : ∀ j, j ≠ i → own' j = own j)
    (htaken : ∀ c, taken' c ↔ taken c ∨ c = b) : Exclusive own' taken' where
  taken_iff := by
    intro c
    rw [htaken, h.taken_iff]
    constructor
    · rintro (⟨j, hj⟩ | rfl)
      · have hji : j ≠ i := by
          rintro rfl
          rw [hi] at hj
          cases hj
        exact ⟨j, by rw [hother j hji, hj]⟩
      · exact ⟨i, hsome⟩
    · rintro ⟨j, hj⟩
      by_cases hji : j = i
      · subst hji
        exact Or.inr (Option.some.inj (hj.symm.trans hsome))
      · rw [hother j hji] at hj
        exact Or.inl ⟨j, hj⟩
  inj := by
    intro j k c hj hk
    -- an owner other than `i` holds a resource that was taken, hence not `b`
    have hne : ∀ l, l ≠ i → own' l = some c → c ≠ b := by
      rintro l hl hlc rfl
      rw [hother l hl] at hlc
      exact hfree (h.taken_of_own hlc)
    by_cases hji : j = i <;> by_cases hki : k = i
    · rw [hji, hki]
    · rw [hji, hsome] at hj
      exact absurd (Option.some.inj hj).symm (hne k hki hk)
    · rw [hki, hsome] at hk
      exact absurd (Option.some.inj hk).symm (hne j hji hj)
    · rw [hother j hji] at hj
      rw [hother k hki] at hk
      exact h.inj j k c hj hk

/-- There are no more taken resources than owners. -/
theorem card_le [Fintype β] [DecidablePred taken] (h : Exclusive own taken) (S : Finset ι)
    (hS : ∀ i b, own i = some b → i ∈ S) : (Finset.univ.filter taken).card ≤ S.card := by
  classical
  have hsub : (Finset.univ.filter taken).image some ⊆ S.image own := by
    intro x hx
    obtain ⟨b, hb, rfl⟩ := Finset.mem_image.mp hx
    obtain ⟨i, hi⟩ := (h.taken_iff b).mp (Finset.mem_filter.mp hb).2
    exact Finset.mem_image.mpr ⟨i, hS i b hi, hi⟩
  calc (Finset.univ.filter taken).card
      = ((Finset.univ.filter taken).image some).card :=
        (Finset.card_image_of_injective _ (Option.some_injective β)).symm
    _ ≤ (S.image own).card := Finset.card_le_card hsub
    _ ≤ S.card := Finset.card_image_le

end Exclusive
