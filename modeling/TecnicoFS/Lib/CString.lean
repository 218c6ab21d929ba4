import Mathlib.Data.List.TakeWhile
import Mathlib.Tactic.Common

/-!
# C strings

A C string is a run of bytes up to a terminating NUL. `CString` holds the bytes
before the terminator, none of which is NUL. Character buffers are plain byte
lists; `cstr` is the string a buffer holds, and `strncmp` and `strncpy` follow
the C library.
-/

/-- The bytes of a string before its terminator. -/
structure CString where
  bytes : List UInt8
  noNul : ∀ b ∈ bytes, b ≠ 0
deriving DecidableEq

namespace CString

/-- `strlen`. -/
def strlen (s : CString) : Nat := s.bytes.length

/-- The string with its terminator, as it lies in memory. -/
def cells (s : CString) : List UInt8 := s.bytes ++ [0]

/-- `s + 1` for a string that is not empty. -/
def tail (s : CString) : CString :=
  ⟨s.bytes.tail, fun b hb => s.noNul b (List.mem_of_mem_tail hb)⟩

@[ext] theorem ext {s t : CString} (h : s.bytes = t.bytes) : s = t := by
  cases s; cases t; simp_all

end CString

/-- The bytes of a buffer up to its first NUL. -/
def cstr (buf : List UInt8) : List UInt8 := buf.takeWhile (· ≠ 0)

/-- `strncmp` of two buffers: the difference of the first two bytes that
differ, looking at no more than `n` bytes and not past a terminator. -/
def strncmp : Nat → List UInt8 → List UInt8 → Int
  | 0, _, _ => 0
  | n + 1, s, t =>
      if s.headD 0 ≠ t.headD 0 then (s.headD 0).toNat - (t.headD 0).toNat
      else if s.headD 0 = 0 then 0
      else strncmp n s.tail t.tail

/-- `strncpy`: at most `n` bytes of the string, padded with NULs to `n`. -/
def strncpy (n : Nat) (s : CString) : List UInt8 :=
  s.bytes.take n ++ List.replicate (n - s.bytes.length) 0

@[simp] theorem length_strncpy (n : Nat) (s : CString) : (strncpy n s).length = n := by
  simp only [strncpy, List.length_append, List.length_take, List.length_replicate]
  omega

theorem cstr_cons (b : UInt8) (bs : List UInt8) :
    cstr (b :: bs) = if b = 0 then [] else b :: cstr bs := by
  by_cases hb : b = 0 <;> simp [cstr, hb]

/-- A string followed by a terminator reads back as the string. -/
theorem cstr_append_nul {bs rest : List UInt8} (h : ∀ b ∈ bs, b ≠ 0) :
    cstr (bs ++ 0 :: rest) = bs := by
  induction bs with
  | nil => simp [cstr]
  | cons b bs ih =>
      have hb : b ≠ 0 := h b List.mem_cons_self
      rw [List.cons_append, cstr_cons, if_neg hb, ih fun x hx => h x (List.mem_cons_of_mem b hx)]

/-- A buffer without a NUL is all string. -/
theorem cstr_eq_self {bs : List UInt8} (h : ∀ b ∈ bs, b ≠ 0) : cstr bs = bs := by
  rw [cstr, List.takeWhile_eq_self_iff]
  intro b hb
  simpa using h b hb

/-- The string in a window of `n + 1` bytes, by its first byte. -/
theorem cstr_take_succ (n : Nat) (s : List UInt8) :
    cstr (s.take (n + 1)) =
      if s.headD 0 = 0 then [] else s.headD 0 :: cstr (s.tail.take n) := by
  cases s with
  | nil => simp [cstr]
  | cons a s => simp [cstr_cons]

/-- `strncmp` returns zero exactly when the two buffers hold the same string
within the first `n` bytes. -/
theorem strncmp_eq_zero (n : Nat) (s t : List UInt8) :
    strncmp n s t = 0 ↔ cstr (s.take n) = cstr (t.take n) := by
  induction n generalizing s t with
  | zero => simp [strncmp]
  | succ n ih =>
      rw [cstr_take_succ, cstr_take_succ]
      by_cases hab : s.headD 0 = t.headD 0
      · -- equal first bytes: both strings end here, or the tails decide
        by_cases ht : t.headD 0 = 0
        · simp only [strncmp, hab, ht, ne_eq, not_true_eq_false, ↓reduceIte]
        · simp only [strncmp, hab, ht, ne_eq, not_true_eq_false, ↓reduceIte, ih,
            List.cons.injEq, true_and]
      · have hne : ((s.headD 0).toNat : Int) - (t.headD 0).toNat ≠ 0 := fun h =>
          hab (UInt8.toNat_inj.mp (by omega))
        have hlhs : strncmp (n + 1) s t ≠ 0 := by
          simpa only [strncmp, ne_eq, hab, not_false_eq_true, ↓reduceIte] using hne
        refine iff_of_false hlhs fun h => hab ?_
        split at h <;> split at h <;> simp_all

/-- The buffer that `strncpy` and a final NUL leave holds the truncated string. -/
theorem cstr_strncpy (n : Nat) (s : CString) :
    cstr ((strncpy n s ++ [0]).take (n + 1)) = s.bytes.take n := by
  have hlen : (strncpy n s ++ [0]).length = n + 1 := by simp
  rw [List.take_of_length_le (le_of_eq hlen), strncpy, List.append_assoc,
    ← List.replicate_succ', List.replicate_succ]
  exact cstr_append_nul fun b hb => s.noNul b (List.mem_of_mem_take hb)

/-- The string itself, seen through a window of `n` bytes. -/
theorem cstr_cells_take (n : Nat) (s : CString) :
    cstr (s.cells.take n) = s.bytes.take n := by
  rcases Nat.lt_or_ge s.bytes.length n with h | h
  · rw [CString.cells, List.take_of_length_le (show _ ≤ n by simp; omega),
      List.take_of_length_le h.le]
    exact cstr_append_nul s.noNul
  · rw [CString.cells, List.take_append_of_le_length h]
    exact cstr_eq_self fun b hb => s.noNul b (List.mem_of_mem_take hb)

theorem cstr_noNul (buf : List UInt8) : ∀ b ∈ cstr buf, b ≠ 0 := by
  intro b hb
  simpa using List.mem_takeWhile_imp hb

/-- The string a buffer holds. -/
def CString.ofBuffer (buf : List UInt8) : CString := ⟨cstr buf, cstr_noNul buf⟩

/-- A string padded with at least one NUL reads back as the string. -/
theorem CString.ofBuffer_padded (s : CString) {n : Nat} (hn : 0 < n) :
    CString.ofBuffer (s.bytes ++ List.replicate n 0) = s := by
  apply CString.ext
  rw [CString.ofBuffer]
  cases n with
  | zero => exact absurd hn (Nat.lt_irrefl 0)
  | succ n =>
      rw [List.replicate_succ]
      exact cstr_append_nul s.noNul
