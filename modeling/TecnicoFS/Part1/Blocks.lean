import TecnicoFS.Part1.Start

/-!
# Part 1: data blocks and the block map of a file

What `data_block_alloc` and `data_block_free` do when one thread runs alone, and the block map
of a file: its ten direct slots, its indirect block and the 256 numbers in that block.
Allocation takes the free blocks in increasing order.
-/

namespace TecnicoFS.Part1

open Threads Threads.Prog
open Part2 (AllocationState blockSize dataBlocks inodeTableSize maxOpenFiles blockAddr
  dataBlockGet)

variable {fs fs' : FS} {n : Fin inodeTableSize} {b c : Fin dataBlocks}

/-! ## Allocation -/

/-- The free blocks, in the order in which they are allocated. -/
def freeList (fs : FS) : List (Fin dataBlocks) :=
  (List.finRange dataBlocks).filter fun b => fs.freeBlocks b = .free

theorem mem_freeList : b ∈ freeList fs ↔ fs.freeBlocks b = .free := by
  simp [freeList]

theorem freeList_congr (h : fs'.freeBlocks = fs.freeBlocks) : freeList fs' = freeList fs := by
  rw [freeList, freeList, h]

theorem freeList_pairwise (fs : FS) : (freeList fs).Pairwise (· < ·) :=
  (List.pairwise_lt_finRange dataBlocks).filter _

/-- A block that is taken from the head leaves the rest of the list. -/
theorem freeList_take {bs : List (Fin dataBlocks)} (h : freeList fs = b :: bs)
    (hmarks : fs'.freeBlocks = Function.update fs.freeBlocks b .taken) : freeList fs' = bs := by
  have hfilter : freeList fs' = (freeList fs).filter fun c => c ≠ b := by
    rw [freeList, freeList, List.filter_filter, hmarks]
    apply List.filter_congr
    intro c _
    by_cases hc : c = b
    · simp [hc]
    · simp [hc]
  have hsorted := freeList_pairwise fs
  rw [h, List.pairwise_cons] at hsorted
  rw [hfilter, h, List.filter_cons_of_neg (by simp), List.filter_eq_self]
  intro c hc
  simpa using (hsorted.1 c hc).ne'

theorem mem_take_finRange {k count : Nat} {i : Fin k} :
    i ∈ (List.finRange k).take count ↔ (i : Nat) < count := by
  rw [List.mem_take_iff_getElem]
  constructor
  · rintro ⟨j, hj, rfl⟩
    rw [List.getElem_finRange]
    exact (Nat.lt_min.mp hj).1
  · intro hi
    exact ⟨i, Nat.lt_min.mpr ⟨hi, by rw [List.length_finRange]; exact i.isLt⟩, by simp⟩

theorem mem_drop_finRange {k count : Nat} {i : Fin k} :
    i ∈ (List.finRange k).drop count ↔ count ≤ (i : Nat) := by
  rw [List.mem_drop_iff_getElem]
  constructor
  · rintro ⟨j, hj, rfl⟩
    simp
  · intro hi
    have hlt := i.isLt
    exact ⟨i - count, by rw [List.length_finRange]; omega, by simp [Nat.add_sub_cancel' hi]⟩

/-- The free blocks where the first `k` are taken and no others. -/
theorem freeList_eq_drop {k : Nat} (h : ∀ b, fs.freeBlocks b = .free ↔ k ≤ (b : Nat)) :
    freeList fs = (List.finRange dataBlocks).drop k := by
  have hfirst : ((List.finRange dataBlocks).take k).filter (fun b => fs.freeBlocks b = .free) =
      [] := by
    rw [List.filter_eq_nil_iff]
    intro b hb
    rw [mem_take_finRange] at hb
    simpa [h] using hb
  have hrest : ((List.finRange dataBlocks).drop k).filter (fun b => fs.freeBlocks b = .free) =
      (List.finRange dataBlocks).drop k := by
    rw [List.filter_eq_self]
    intro b hb
    rw [mem_drop_finRange] at hb
    simpa [h] using hb
  rw [freeList, ← List.take_append_drop k (List.finRange dataBlocks), List.filter_append, hfirst,
    List.nil_append, hrest]
  simp

theorem allocFirst_eval (fs : FS) (bs : List (Fin dataBlocks)) :
    (allocFirst bs).eval fs =
      match bs.filter fun b => fs.freeBlocks b = .free with
      | [] => some (-1, fs)
      | b :: _ => some (((b : Nat) : Int), fs.setBlockState b .taken) := by
  induction bs with
  | nil => rfl
  | cons b bs ih =>
      rw [allocFirst]
      simp only [bind_eq, pure_eq, eval_lock, eval_read]
      by_cases hfree : fs.freeBlocks b = .free
      · rw [if_pos hfree, List.filter_cons_of_pos (by simpa using hfree)]
        rfl
      · rw [if_neg hfree, List.filter_cons_of_neg (by simpa using hfree), eval_unlock, ih]

theorem dataBlockAlloc_full (h : freeList fs = []) : dataBlockAlloc.eval fs = some (-1, fs) := by
  have heval := allocFirst_eval fs (List.finRange dataBlocks)
  rw [show (List.finRange dataBlocks).filter (fun b => fs.freeBlocks b = .free) = [] from h]
    at heval
  rw [dataBlockAlloc_eq, heval]

/-- An allocation takes the first of the free blocks. -/
theorem dataBlockAlloc_first {bs : List (Fin dataBlocks)} (h : freeList fs = b :: bs) :
    dataBlockAlloc.eval fs = some (((b : Nat) : Int), fs.setBlockState b .taken) := by
  have heval := allocFirst_eval fs (List.finRange dataBlocks)
  rw [show (List.finRange dataBlocks).filter (fun b => fs.freeBlocks b = .free) = b :: bs from h]
    at heval
  rw [dataBlockAlloc_eq, heval]

theorem dataBlockFree_eval (b : Fin dataBlocks) :
    (dataBlockFree ((b : Nat) : Int)).eval fs = some (0, fs.setBlockState b .free) := by
  rw [dataBlockFree, index?_natCast]
  rfl

/-- Freeing block -1 indexes the lock array out of range. -/
theorem dataBlockFree_absent : (dataBlockFree (-1)).eval fs = none := by
  have hindex : index? dataBlocks (-1) = none := index?_eq_none.mpr (Or.inl (by decide))
  rw [dataBlockFree, hindex]
  rfl

/-- The loop over a new indirect block fills it with the byte `0xff`. -/
theorem clearIndirect_eval (t : Fin dataBlocks) (count : Nat) :
    (clearIndirect t count).eval fs =
      if blockAddr t + 4 * count ≤ fsDataSize then
        some ((), fs.setData (Memory.store fs.fsData (blockAddr t) (List.replicate (4 * count) 255)))
      else none := by
  induction count with
  | zero =>
      have ht := t.isLt
      have hsize : blockAddr t + 4 * 0 ≤ fsDataSize := by
        simp only [blockAddr, fsDataSize, blockSize, dataBlocks] at ht ⊢
        omega
      rw [if_pos hsize, Nat.mul_zero, List.replicate_zero, Memory.store_nil]
      rfl
  | succ count ih =>
      have hbytes : intBytes 4 (-1) = List.replicate 4 255 := by decide
      rw [clearIndirect, bind_eq, eval_bind, ih]
      by_cases hsize : blockAddr t + 4 * (count + 1) ≤ fsDataSize
      · have hstore := Memory.store_append fs.fsData (blockAddr t)
          (List.replicate (4 * count) 255) (List.replicate 4 255)
        rw [List.replicate_append_replicate, List.length_replicate] at hstore
        rw [if_pos hsize, if_pos (by omega), Option.bind_some, modify?]
        refine eval_act_of_some ?_
        rw [FS.store?, length_intBytes, if_pos (by omega), hbytes, FS.fsData_setData, hstore]
        rfl
      · rw [if_neg hsize]
        split
        · rw [Option.bind_some, modify?]
          refine eval_act_of_none ?_
          rw [FS.store?, length_intBytes, if_neg (by omega)]
        · rfl

/-! ## The block map -/

/-- The numbers a block holds: `BLOCK_SIZE / sizeof(int)`. -/
abbrev tableSize : Nat := blockSize / 4

/-- The largest number of blocks a file can have. -/
abbrev maxFileBlocks : Nat := maxDirectBlocks + tableSize

/-- A place where a file holds the number of a block: a direct slot, the field of the indirect
block, or a number in the indirect block. -/
inductive Ref where
  | direct (i : Fin maxDirectBlocks)
  | table
  | entry (k : Fin tableSize)
deriving DecidableEq

/-- The place of block `j` of a file. -/
def blockRef (j : Nat) : Option Ref :=
  if h : j < maxDirectBlocks then some (.direct ⟨j, h⟩)
  else if h : j - maxDirectBlocks < tableSize then some (.entry ⟨j - maxDirectBlocks, h⟩)
  else none

/-- The address of a number in an indirect block. -/
def tableAddr (t : Fin dataBlocks) (k : Nat) : Nat := blockAddr t + 4 * k

namespace FS

/-- The number a file holds in a place; -1 in the numbers of an indirect block it does not
have. -/
def ref (fs : FS) (n : Fin inodeTableSize) : Ref → Int
  | .direct i => (fs.inodeTable n).iDataBlock i
  | .table => (fs.inodeTable n).iIndirectDataBlock
  | .entry k =>
      match dataBlockGet (fs.inodeTable n).iIndirectDataBlock with
      | none => -1
      | some t => fs.intAt (tableAddr t k)

/-- The number of block `j` of a file, -1 if there is none. -/
def slot (fs : FS) (n : Fin inodeTableSize) (j : Nat) : Int :=
  match blockRef j with
  | none => -1
  | some r => fs.ref n r

/-- Block `j` of a file. -/
def blockAt (fs : FS) (n : Fin inodeTableSize) (j : Nat) : Option (Fin dataBlocks) :=
  dataBlockGet (fs.slot n j)

/-- The byte at a position of a file. -/
def fileByte (fs : FS) (n : Fin inodeTableSize) (p : Nat) : Option UInt8 :=
  (fs.blockAt n (p / blockSize)).map fun b => fs.fsData (blockAddr b + p % blockSize)

/-- The file holds the number of this block. -/
def Owns (fs : FS) (n : Fin inodeTableSize) (b : Fin dataBlocks) : Prop :=
  ∃ r, fs.ref n r = ((b : Nat) : Int)

end FS

/-- A block holds the same bytes. -/
def SameBlock (fs fs' : FS) (b : Fin dataBlocks) : Prop :=
  ∀ x < blockSize, fs'.fsData (blockAddr b + x) = fs.fsData (blockAddr b + x)

theorem blockRef_direct {i : Nat} (h : i < maxDirectBlocks) : blockRef i = some (.direct ⟨i, h⟩) :=
  dif_pos h

theorem blockRef_entry {i : Nat} (h : maxDirectBlocks ≤ i) (hlt : i < maxFileBlocks) :
    ∃ k : Fin tableSize, (k : Nat) = i - maxDirectBlocks ∧ blockRef i = some (.entry k) := by
  have hk : i - maxDirectBlocks < tableSize := by
    simp only [maxFileBlocks, maxDirectBlocks, tableSize] at h hlt ⊢
    omega
  exact ⟨⟨i - maxDirectBlocks, hk⟩, rfl, by rw [blockRef, dif_neg (by omega), dif_pos hk]⟩

theorem blockRef_ne_table (j : Nat) : blockRef j ≠ some .table := by
  unfold blockRef
  split
  · simp
  · split <;> simp

theorem blockRef_isSome {j : Nat} (h : j < maxFileBlocks) : ∃ r, blockRef j = some r := by
  by_cases hj : j < maxDirectBlocks
  · exact ⟨_, blockRef_direct hj⟩
  · rcases blockRef_entry (by omega) h with ⟨k, -, hk⟩
    exact ⟨_, hk⟩

/-- Two blocks of a file lie in different places. -/
theorem blockRef_inj {i j : Nat} {r : Ref} (hi : blockRef i = some r) (hj : blockRef j = some r) :
    i = j := by
  unfold blockRef at hi hj
  split at hi
  · split at hj
    · have hfin := Ref.direct.inj (Option.some.inj (hi.trans hj.symm))
      exact congrArg Fin.val hfin
    · split at hj
      · exact nomatch hi.trans hj.symm
      · cases hj
  · split at hi
    · split at hj
      · exact nomatch hi.trans hj.symm
      · split at hj
        · have hfin := congrArg Fin.val (Ref.entry.inj (Option.some.inj (hi.trans hj.symm)))
          change i - maxDirectBlocks = j - maxDirectBlocks at hfin
          omega
        · cases hj
    · cases hi

/-- A file without blocks. -/
theorem ref_none (hdirect : ∀ i, (fs.inodeTable n).iDataBlock i = -1)
    (hindirect : (fs.inodeTable n).iIndirectDataBlock = -1) (r : Ref) : fs.ref n r = -1 := by
  cases r with
  | direct i => exact hdirect i
  | table => exact hindirect
  | entry k =>
      have hget : dataBlockGet (fs.inodeTable n).iIndirectDataBlock = none := by
        rw [hindirect]
        exact index?_eq_none.mpr (Or.inl (by decide))
      rw [FS.ref, hget]

theorem slot_of_ref {j : Nat} {r : Ref} (h : blockRef j = some r) : fs.slot n j = fs.ref n r := by
  rw [FS.slot, h]

/-- A block number that is not -1 has a place. -/
theorem blockRef_of_slot {j : Nat} (h : fs.slot n j ≠ -1) :
    ∃ r, blockRef j = some r ∧ fs.slot n j = fs.ref n r := by
  cases hr : blockRef j with
  | none =>
      rw [FS.slot, hr] at h
      exact absurd rfl h
  | some r => exact ⟨r, rfl, slot_of_ref hr⟩

theorem dataBlockGet_natCast (b : Fin dataBlocks) : dataBlockGet ((b : Nat) : Int) = some b :=
  index?_natCast b

theorem dataBlockGet_absent : dataBlockGet (-1) = none :=
  index?_eq_none.mpr (Or.inl (by decide))

theorem natCast_ne_absent (b : Fin dataBlocks) : ((b : Nat) : Int) ≠ -1 := by
  omega

theorem natCast_block_inj {b c : Fin dataBlocks} (h : ((b : Nat) : Int) = ((c : Nat) : Int)) :
    b = c := Fin.ext (by exact_mod_cast h)

theorem blockAt_eq_some {j : Nat} : fs.blockAt n j = some b ↔ fs.slot n j = ((b : Nat) : Int) :=
  index?_eq_some

theorem owns_of_blockAt {j : Nat} (h : fs.blockAt n j = some b) : fs.Owns n b := by
  have hslot := blockAt_eq_some.mp h
  rcases blockRef_of_slot (hslot ▸ natCast_ne_absent b) with ⟨r, -, hr⟩
  exact ⟨r, hr.symm.trans hslot⟩

theorem SameBlock.refl (fs : FS) (b : Fin dataBlocks) : SameBlock fs fs b := fun _ _ => rfl

theorem SameBlock.trans {fs'' : FS} (h : SameBlock fs fs' b) (h' : SameBlock fs' fs'' b) :
    SameBlock fs fs'' b := fun x hx => (h' x hx).trans (h x hx)

/-- A number of an indirect block depends on the bytes of that block. -/
theorem SameBlock.intAt (h : SameBlock fs fs' b) (k : Fin tableSize) :
    fs'.intAt (tableAddr b k) = fs.intAt (tableAddr b k) := by
  have hk := k.isLt
  simp only [tableSize, blockSize] at hk
  rw [FS.intAt, FS.intAt]
  congr 1
  apply Memory.load_congr
  intro x hx hx'
  simp only [tableAddr] at hx hx'
  have hoffset := h (x - blockAddr b) (by simp only [blockSize]; omega)
  rwa [show blockAddr b + (x - blockAddr b) = x by omega] at hoffset

/-- The block map of a file depends on its i-node and on the bytes of its indirect block. -/
theorem ref_congr (hdirect : (fs'.inodeTable n).iDataBlock = (fs.inodeTable n).iDataBlock)
    (hindirect : (fs'.inodeTable n).iIndirectDataBlock = (fs.inodeTable n).iIndirectDataBlock)
    (htable : ∀ t : Fin dataBlocks, fs.ref n .table = ((t : Nat) : Int) → SameBlock fs fs' t) :
    fs'.ref n = fs.ref n := by
  funext r
  cases r with
  | direct i => simp only [FS.ref, hdirect]
  | table => simp only [FS.ref, hindirect]
  | entry k =>
      simp only [FS.ref, hindirect]
      cases ht : dataBlockGet (fs.inodeTable n).iIndirectDataBlock with
      | none => rfl
      | some t =>
          have hsame := htable t (index?_eq_some.mp ht)
          simp only [hsame.intAt k]

theorem slot_congr (h : fs'.ref n = fs.ref n) (j : Nat) : fs'.slot n j = fs.slot n j := by
  rw [FS.slot, FS.slot, h]

theorem blockAt_congr (h : fs'.ref n = fs.ref n) (j : Nat) : fs'.blockAt n j = fs.blockAt n j := by
  rw [FS.blockAt, FS.blockAt, slot_congr h]

theorem ref_entry_eq {t : Fin dataBlocks} (ht : fs.ref n .table = ((t : Nat) : Int))
    (k : Fin tableSize) : fs.ref n (.entry k) = fs.intAt (tableAddr t k) := by
  have hget : dataBlockGet (fs.inodeTable n).iIndirectDataBlock = some t := index?_eq_some.mpr ht
  rw [FS.ref, hget]

theorem ref_entry_absent (ht : fs.ref n .table = -1) (k : Fin tableSize) :
    fs.ref n (.entry k) = -1 := by
  have hget : dataBlockGet (fs.inodeTable n).iIndirectDataBlock = none := by
    rw [show (fs.inodeTable n).iIndirectDataBlock = -1 from ht]
    exact dataBlockGet_absent
  rw [FS.ref, hget]

end TecnicoFS.Part1
