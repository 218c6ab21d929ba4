import Mathlib.Data.List.Basic
import Mathlib.Logic.Relation
import Mathlib.Tactic.Common

/-!
# A writer and a reader on a pipe

The writer has some chunks left to write, each written in one piece. The reader
has some counts left to read: a read blocks while the pipe is empty and then
takes what is there, at most its count; a read of no bytes returns at once. The
two run in any order.

`Fits` says when counts and chunks agree although the two sides work them out
apart. Then every interleaving delivers the chunks, no read blocks for good, and
the pipe is empty when the reader is done.
-/

universe u

/-- What the writer has to write, the bytes on the pipe, what the reader has to
read and what its reads have returned. -/
structure Exchange (α : Type u) where
  chunks : List (List α)
  pipe : List α
  counts : List Nat
  got : List (List α)

namespace Exchange

variable {α : Type u} {s s' : Exchange α} {counts : List Nat} {chunks got : List (List α)}

/-- The exchange before anything is written. -/
def start (chunks : List (List α)) (counts : List Nat) : Exchange α := ⟨chunks, [], counts, []⟩

/-- The next write. -/
def write (s : Exchange α) : Option (Exchange α) :=
  match s.chunks with
  | [] => none
  | chunk :: chunks => some { s with chunks := chunks, pipe := s.pipe ++ chunk }

/-- The next read, unless it blocks. -/
def read (s : Exchange α) : Option (Exchange α) :=
  match s.counts with
  | [] => none
  | n :: counts =>
      if n ≠ 0 ∧ s.pipe = [] then none
      else some { s with counts := counts, pipe := s.pipe.drop n, got := s.got ++ [s.pipe.take n] }

/-- One move of either side. -/
inductive Step : Exchange α → Exchange α → Prop
  | write {s s' : Exchange α} : s.write = some s' → Step s s'
  | read {s s' : Exchange α} : s.read = some s' → Step s s'

/-- The reader waits for bytes that no write will bring. -/
def Stuck (s : Exchange α) : Prop :=
  s.chunks = [] ∧ s.pipe = [] ∧ ∃ n counts, s.counts = n :: counts ∧ 0 < n

/-- The reads with these counts, on these chunks, return `got`: each chunk is
taken whole by one read, and a read that could take more than its chunk is the
last. -/
inductive Fits : List Nat → List (List α) → List (List α) → Prop
  | nil : Fits [] [] []
  | zero {counts : List Nat} {chunks got : List (List α)} :
      Fits counts chunks got → Fits (0 :: counts) chunks ([] :: got)
  | last {n : Nat} {chunk : List α} :
      chunk ≠ [] → chunk.length ≤ n → Fits [n] [chunk] [chunk]
  | cons {chunk : List α} {counts : List Nat} {chunks got : List (List α)} :
      chunk ≠ [] → Fits counts chunks got →
        Fits (chunk.length :: counts) (chunk :: chunks) (chunk :: got)

/-- The reads made and the reads to come return `got`: some chunks are on the
pipe, and with those still to be written they fit the counts left. -/
def OnTrack (s : Exchange α) (got : List (List α)) : Prop :=
  ∃ front rest, s.pipe = front.flatten ∧ Fits s.counts (front ++ s.chunks) rest ∧
    s.got ++ rest = got

theorem Fits.onTrack (h : Fits counts chunks got) : (start chunks counts).OnTrack got :=
  ⟨[], got, rfl, h, rfl⟩

theorem OnTrack.write (h : s.OnTrack got) (hs : s.write = some s') : s'.OnTrack got := by
  rcases h with ⟨front, rest, hpipe, hfits, hgot⟩
  unfold Exchange.write at hs
  split at hs
  · cases hs
  · rename_i chunk chunks hchunks
    cases hs
    refine ⟨front ++ [chunk], rest, ?_, ?_, hgot⟩
    · rw [hpipe, List.flatten_append, List.flatten_singleton]
    · rw [hchunks, List.append_cons] at hfits
      exact hfits

/-- A read of at least one byte finds its chunk at the front of the pipe. -/
theorem OnTrack.read (h : s.OnTrack got) (hs : s.read = some s') : s'.OnTrack got := by
  rcases h with ⟨front, rest, hpipe, hfits, hgot⟩
  unfold Exchange.read at hs
  split at hs
  · cases hs
  · rename_i n counts hcounts
    split at hs
    · cases hs
    · rename_i hready
      cases hs
      rw [hcounts] at hfits
      -- what is on the pipe are whole chunks, so the next read takes the first of them
      generalize hall : front ++ s.chunks = all at hfits
      cases hfits with
      | zero hfits =>
          rename_i rest
          refine ⟨front, rest, hpipe, ?_, ?_⟩
          · rw [hall]
            exact hfits
          · rw [← hgot, List.take_zero, List.append_assoc, List.singleton_append]
      -- the last read asks for no more than one chunk has
      | last hne hle =>
          rename_i chunk
          cases front with
          | nil =>
              exfalso
              -- an empty pipe is not ready for a read of some bytes
              apply hready
              refine ⟨?_, hpipe⟩
              rintro rfl
              exact hne (List.eq_nil_of_length_eq_zero (Nat.le_zero.mp hle))
          | cons first front =>
              rw [List.cons_append] at hall
              rcases List.cons.inj hall with ⟨rfl, hrest⟩
              rcases List.append_eq_nil_iff.mp hrest with ⟨rfl, hchunks⟩
              rw [List.flatten_singleton] at hpipe
              refine ⟨[], [], ?_, ?_, ?_⟩
              · rw [hpipe, List.drop_of_length_le hle]
                rfl
              · rw [hchunks]
                exact Fits.nil
              · rw [hpipe, List.take_of_length_le hle, List.append_nil, ← hgot]
      | cons hne hfits =>
          rename_i chunk chunks rest
          cases front with
          | nil =>
              exfalso
              apply hready
              refine ⟨?_, hpipe⟩
              intro hzero
              exact hne (List.eq_nil_of_length_eq_zero hzero)
          | cons first front =>
              rw [List.cons_append] at hall
              rcases List.cons.inj hall with ⟨rfl, hrest⟩
              rw [List.flatten_cons] at hpipe
              refine ⟨front, rest, ?_, ?_, ?_⟩
              · rw [hpipe, List.drop_left]
              · rw [hrest]
                exact hfits
              · rw [hpipe, List.take_left, ← hgot, List.append_assoc, List.singleton_append]

theorem OnTrack.step (h : s.OnTrack got) (hs : Step s s') : s'.OnTrack got := by
  cases hs with
  | write hs => exact h.write hs
  | read hs => exact h.read hs

/-- No interleaving leaves the track. -/
theorem OnTrack.steps (h : s.OnTrack got) (hs : Relation.ReflTransGen Step s s') :
    s'.OnTrack got := by
  induction hs with
  | refl => exact h
  | tail _ hstep ih => exact ih.step hstep

theorem OnTrack.not_stuck (h : s.OnTrack got) : ¬ s.Stuck := by
  rcases h with ⟨front, rest, hpipe, hfits, -⟩
  rintro ⟨hchunks, hempty, n, counts, hcounts, hpos⟩
  rw [hcounts, hchunks, List.append_nil] at hfits
  rw [hempty] at hpipe
  cases hfits with
  | zero => exact absurd hpos (Nat.lt_irrefl 0)
  | last hne hle =>
      rw [List.flatten_singleton] at hpipe
      exact hne hpipe.symm
  | cons hne hfits =>
      rw [List.flatten_cons] at hpipe
      exact hne (List.append_eq_nil_iff.mp hpipe.symm).1

/-- When the reader is done, so is the writer, and the pipe is empty. -/
theorem OnTrack.done (h : s.OnTrack got) (hdone : s.counts = []) :
    s.chunks = [] ∧ s.pipe = [] ∧ s.got = got := by
  rcases h with ⟨front, rest, hpipe, hfits, hgot⟩
  rw [hdone] at hfits
  generalize hall : front ++ s.chunks = all at hfits
  cases hfits
  rcases List.append_eq_nil_iff.mp hall with ⟨rfl, hchunks⟩
  rw [List.append_nil] at hgot
  exact ⟨hchunks, hpipe, hgot⟩

end Exchange
