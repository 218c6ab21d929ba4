import TecnicoFS.Part1.Layout

/-!
# Part 1: truncation

`tfs_open` with `TFS_O_TRUNC` gives back the direct blocks that it takes a file of this size to
have, and its indirect block if these are ten, but none of the blocks whose numbers are in the
indirect block. A place that holds no block is given back all the same: its number -1 indexes
the lock array out of range. `Truncates` excludes that, and `Emptied` is the effect.
-/

namespace TecnicoFS.Part1

open Threads Threads.Prog
open Part2 (blockSize dataBlocks inodeTableSize maxOpenFiles blockAddr dataBlockGet)

variable {fs fs' : FS} {n m : Fin inodeTableSize} {b : Fin dataBlocks} {r : Ref}

/-- The places that a truncation of `count` blocks gives back. -/
def GivenBack (count : Nat) : Ref → Prop
  | .direct i => (i : Nat) < count
  | .table => maxDirectBlocks ≤ count
  | .entry _ => False

/-- How many blocks a truncation takes the file to have. -/
def FS.truncated (fs : FS) (n : Fin inodeTableSize) : Nat := truncatedBlocks (fs.inodeTable n).iSize

/-- All places that a truncation gives back hold a block. -/
def Truncates (fs : FS) (n : Fin inodeTableSize) : Prop :=
  ∀ r, GivenBack (fs.truncated n) r → fs.ref n r ≠ -1

/-- The i-node of a truncated file. -/
def emptied (count : Nat) (inode : Inode) : Inode :=
  { inode with
    iSize := 0
    iDataBlock := fun i => if (i : Nat) < count then -1 else inode.iDataBlock i
    iIndirectDataBlock := if maxDirectBlocks ≤ count then -1 else inode.iIndirectDataBlock }

/-- The effect of a truncation. -/
structure Emptied (n : Fin inodeTableSize) (fs fs' : FS) : Prop where
  eq : fs' = { fs with
    inodeTable := Function.update fs.inodeTable n (emptied (fs.truncated n) (fs.inodeTable n))
    freeBlocks := fs'.freeBlocks }
  marks : ∀ b, fs'.freeBlocks b = .taken ↔ fs.freeBlocks b = .taken ∧
    ∀ r, GivenBack (fs.truncated n) r → fs.ref n r ≠ ((b : Nat) : Int)

/-! ## The direct blocks -/

/-- The effect of the loop over some of the direct blocks. -/
structure Cleared (n : Fin inodeTableSize) (is : List (Fin maxDirectBlocks)) (fs fs' : FS) :
    Prop where
  eq : fs' = { fs with
    inodeTable := Function.update fs.inodeTable n
      { fs.inodeTable n with
        iDataBlock := fun i => if i ∈ is then -1 else (fs.inodeTable n).iDataBlock i }
    freeBlocks := fs'.freeBlocks }
  marks : ∀ b, fs'.freeBlocks b = .taken ↔ fs.freeBlocks b = .taken ∧
    ∀ i ∈ is, fs.ref n (.direct i) ≠ ((b : Nat) : Int)

/-- The state after a direct block is given back. -/
def FS.giveDirect (fs : FS) (n : Fin inodeTableSize) (i : Fin maxDirectBlocks)
    (b : Fin dataBlocks) : FS :=
  (fs.setBlockState b .free).setInode n
    { fs.inodeTable n with iDataBlock := Function.update (fs.inodeTable n).iDataBlock i (-1) }

theorem freeBlocks_cons {i : Fin maxDirectBlocks} {is : List (Fin maxDirectBlocks)}
    (hb : fs.ref n (.direct i) = ((b : Nat) : Int)) :
    (freeBlocks n (i :: is)).eval fs = (freeBlocks n is).eval (fs.giveDirect n i b) := by
  have hblock : (fs.inodeTable n).iDataBlock i = ((b : Nat) : Int) := hb
  rw [freeBlocks]
  simp only [bind_eq, pure_eq, eval_read, hblock]
  rw [eval_bind, dataBlockFree_eval, Option.bind_some]
  rfl

theorem giveDirect_ref {i j : Fin maxDirectBlocks} (hj : j ≠ i) :
    (fs.giveDirect n i b).ref n (.direct j) = fs.ref n (.direct j) := by
  simp [FS.ref, FS.giveDirect, hj]

theorem giveDirect_marks {i : Fin maxDirectBlocks} {c : Fin dataBlocks} :
    (fs.giveDirect n i b).freeBlocks c = .taken ↔ fs.freeBlocks c = .taken ∧ c ≠ b := by
  by_cases hc : c = b
  · subst hc
    simp [FS.giveDirect]
  · simp [FS.giveDirect, hc]

theorem freeBlocks_eval {is : List (Fin maxDirectBlocks)} (hnodup : is.Nodup)
    (hthere : ∀ i ∈ is, ∃ b : Fin dataBlocks, fs.ref n (.direct i) = ((b : Nat) : Int)) :
    ∃ fs', (freeBlocks n is).eval fs = some (true, fs') ∧ Cleared n is fs fs' := by
  induction is generalizing fs with
  | nil =>
      refine ⟨fs, rfl, ?_, ?_⟩
      · simp
      · simp
  | cons i is ih =>
      rw [List.nodup_cons] at hnodup
      rcases hthere i (List.mem_cons_self ..) with ⟨b, hb⟩
      have hne : ∀ j ∈ is, j ≠ i := by
        rintro j hj rfl
        exact hnodup.1 hj
      rcases @ih (fs.giveDirect n i b) hnodup.2 (fun j hj => by
        rw [giveDirect_ref (hne j hj)]
        exact hthere j (List.mem_cons_of_mem _ hj)) with ⟨fs', heval, hcleared⟩
      refine ⟨fs', (freeBlocks_cons hb).trans heval, ?_, fun c => ?_⟩
      · rw [hcleared.eq]
        simp only [FS.giveDirect, FS.setInode, FS.setBlockState, Function.update_self,
          Function.update_idem]
        congr
        funext j
        by_cases hj : j = i
        · simp [hj]
        · simp [hj]
      · rw [hcleared.marks, giveDirect_marks, List.forall_mem_cons, hb, and_assoc]
        refine and_congr_right fun _ => and_congr ?_ ?_
        · rw [ne_comm, Ne, Ne, Fin.ext_iff]
          norm_cast
        · refine forall₂_congr fun j hj => ?_
          rw [giveDirect_ref (hne j hj)]

/-- The loop meets a slot that holds no block. -/
theorem freeBlocks_crash {is : List (Fin maxDirectBlocks)} (hnodup : is.Nodup)
    (hblocks : ∀ i ∈ is, fs.ref n (.direct i) ≠ -1 →
      ∃ b : Fin dataBlocks, fs.ref n (.direct i) = ((b : Nat) : Int))
    (habsent : ∃ i ∈ is, fs.ref n (.direct i) = -1) : (freeBlocks n is).eval fs = none := by
  induction is generalizing fs with
  | nil =>
      rcases habsent with ⟨i, hi, -⟩
      exact absurd hi List.not_mem_nil
  | cons i is ih =>
      rw [List.nodup_cons] at hnodup
      by_cases hi : fs.ref n (.direct i) = -1
      · have hblock : (fs.inodeTable n).iDataBlock i = -1 := hi
        rw [freeBlocks]
        simp only [bind_eq, pure_eq, eval_read, hblock]
        rw [eval_bind, dataBlockFree_absent]
        rfl
      · rcases hblocks i (List.mem_cons_self ..) hi with ⟨b, hb⟩
        have hkept : ∀ j ∈ is, (fs.giveDirect n i b).ref n (.direct j) = fs.ref n (.direct j) := by
          intro j hj
          refine giveDirect_ref ?_
          rintro rfl
          exact hnodup.1 hj
        rw [freeBlocks_cons hb]
        apply ih hnodup.2
        · intro j hj hne
          rw [hkept j hj] at hne ⊢
          exact hblocks j (List.mem_cons_of_mem _ hj) hne
        · rcases habsent with ⟨j, hj, hnone⟩
          rcases List.mem_cons.mp hj with rfl | hj
          · exact absurd hnone hi
          · exact ⟨j, hj, (hkept j hj).trans hnone⟩

/-! ## The truncation of a file -/

theorem nodup_take_finRange (k count : Nat) : ((List.finRange k).take count).Nodup :=
  (List.nodup_finRange k).sublist (List.take_sublist ..)

theorem forall_givenBack {count : Nat} {P : Ref → Prop} : (∀ r, GivenBack count r → P r) ↔
    (∀ i ∈ (List.finRange maxDirectBlocks).take count, P (.direct i)) ∧
      (maxDirectBlocks ≤ count → P .table) := by
  simp only [mem_take_finRange]
  constructor
  · intro hall
    exact ⟨fun i => hall (.direct i), hall .table⟩
  · rintro ⟨hdirect, htable⟩ r hr
    cases r with
    | direct i => exact hdirect i hr
    | table => exact htable hr
    | entry k => exact hr.elim

/-- A file without bytes is left as it is. -/
theorem Emptied.refl (hsize : (fs.inodeTable n).iSize = 0) : Emptied n fs fs where
  eq := by
    have hzero : fs.truncated n = 0 := by rw [FS.truncated, hsize]; rfl
    have hinode : emptied 0 (fs.inodeTable n) = fs.inodeTable n := by
      rcases hrecord : fs.inodeTable n with ⟨nType, size, direct, table⟩
      rw [hrecord] at hsize
      subst hsize
      simp [emptied]
    rw [hzero, hinode, Function.update_eq_self]
  marks b := by
    have hzero : fs.truncated n = 0 := by rw [FS.truncated, hsize]; rfl
    refine (and_iff_left ?_).symm
    intro r hr
    rw [hzero] at hr
    cases r with
    | direct i => exact absurd hr (Nat.not_lt_zero _)
    | table => exact absurd hr (Nat.not_le.mpr (by decide : 0 < maxDirectBlocks))
    | entry k => exact hr.elim

/-- A truncation whose places all hold a block. -/
theorem truncate_ok (hl : FileLayout fs n) (hok : Truncates fs n) :
    ∃ fs', (truncate n).eval fs = some (true, fs') ∧ Emptied n fs fs' := by
  rw [truncate]
  simp only [bind_eq, pure_eq, eval_read]
  split
  · next hsize => exact ⟨fs, rfl, Emptied.refl hsize⟩
  -- the direct blocks that are freed are all there
  · have hthere : ∀ i ∈ (List.finRange maxDirectBlocks).take (fs.truncated n),
        ∃ b : Fin dataBlocks, fs.ref n (.direct i) = ((b : Nat) : Int) := by
      intro i hi
      rcases hl.taken (.direct i) (hok (.direct i) (mem_take_finRange.mp hi)) with ⟨b, hb, -⟩
      exact ⟨b, hb⟩
    rcases freeBlocks_eval (nodup_take_finRange ..) hthere with ⟨fs₁, heval, hcleared⟩
    have hinode : fs₁.inodeTable n = { fs.inodeTable n with
        iDataBlock := fun i => if (i : Nat) < fs.truncated n then -1
          else (fs.inodeTable n).iDataBlock i } := by
      rw [hcleared.eq]
      simp only [Function.update_self, mem_take_finRange]
    have hmarks : ∀ b, fs₁.freeBlocks b = .taken ∧ (maxDirectBlocks ≤ fs.truncated n →
        fs.ref n .table ≠ ((b : Nat) : Int)) ↔ fs.freeBlocks b = .taken ∧
          ∀ r, GivenBack (fs.truncated n) r → fs.ref n r ≠ ((b : Nat) : Int) := by
      intro b
      rw [hcleared.marks, and_assoc,
        forall_givenBack (P := fun r => fs.ref n r ≠ ((b : Nat) : Int))]
    rw [eval_bind, show truncatedBlocks (fs.inodeTable n).iSize = fs.truncated n from rfl, heval,
      Option.bind_some, if_pos rfl]
    -- the indirect block is freed from ten written blocks on
    by_cases hten : maxDirectBlocks ≤ fs.truncated n
    · rcases hl.taken .table (hok .table hten) with ⟨t, ht, -⟩
      have htable : (fs₁.inodeTable n).iIndirectDataBlock = ((t : Nat) : Int) := by
        rw [hinode]
        exact ht
      rw [if_pos hten]
      simp only [eval_read, htable]
      rw [eval_bind, dataBlockFree_eval, Option.bind_some]
      refine ⟨_, rfl, ?_, fun b => ?_⟩
      · rw [hcleared.eq]
        simp only [mem_take_finRange, FS.setInode, FS.setBlockState, Function.update_self,
          Function.update_idem, emptied, if_pos hten]
      · rw [← hmarks]
        by_cases hbt : b = t
        · subst hbt
          simp [FS.setInode, FS.setBlockState, hten, ht]
        · have hne : ((t : Nat) : Int) ≠ ((b : Nat) : Int) :=
            fun heq => hbt (natCast_block_inj heq).symm
          simp [FS.setInode, FS.setBlockState, hbt, ht, hne]
    · rw [if_neg hten]
      refine ⟨_, rfl, ?_, fun b => ?_⟩
      · rw [hcleared.eq]
        simp only [mem_take_finRange, FS.setInode, Function.update_self, Function.update_idem,
          emptied, if_neg hten]
      · rw [← hmarks]
        exact (and_iff_left fun hge => absurd hge hten).symm

/-- A truncation that gives back a place without a block indexes the lock array of the blocks
out of range. -/
theorem truncate_crash (hl : FileLayout fs n) (hno : ¬ Truncates fs n) :
    (truncate n).eval fs = none := by
  -- an empty file is truncated without freeing anything
  have hsize : (fs.inodeTable n).iSize ≠ 0 := by
    intro hsize
    have hzero : fs.truncated n = 0 := by rw [FS.truncated, hsize]; rfl
    refine hno fun r hr => ?_
    rw [hzero] at hr
    cases r with
    | direct i => exact absurd hr (Nat.not_lt_zero _)
    | table => exact absurd hr (Nat.not_le.mpr (by decide : 0 < maxDirectBlocks))
    | entry k => exact hr.elim
  have hblocks : ∀ i, fs.ref n (.direct i) ≠ -1 →
      ∃ b : Fin dataBlocks, fs.ref n (.direct i) = ((b : Nat) : Int) := by
    intro i hi
    rcases hl.taken (.direct i) hi with ⟨b, hb, -⟩
    exact ⟨b, hb⟩
  rw [truncate]
  simp only [bind_eq, pure_eq, eval_read]
  rw [if_neg hsize, eval_bind,
    show truncatedBlocks (fs.inodeTable n).iSize = fs.truncated n from rfl]
  -- the block that is missing is a direct one, or it is the indirect block
  by_cases habsent : ∃ i ∈ (List.finRange maxDirectBlocks).take (fs.truncated n),
      fs.ref n (.direct i) = -1
  · rw [freeBlocks_crash (nodup_take_finRange ..) (fun i _ => hblocks i) habsent]
    rfl
  · have hdirect : ∀ i ∈ (List.finRange maxDirectBlocks).take (fs.truncated n),
        fs.ref n (.direct i) ≠ -1 := fun i hi hnone => habsent ⟨i, hi, hnone⟩
    have htable : maxDirectBlocks ≤ fs.truncated n ∧ fs.ref n .table = -1 := by
      by_contra hnot
      exact hno (forall_givenBack.mpr ⟨hdirect, fun hten hnone => hnot ⟨hten, hnone⟩⟩)
    rcases freeBlocks_eval (nodup_take_finRange ..) (fun i hi => hblocks i (hdirect i hi)) with
      ⟨fs₁, heval, hcleared⟩
    have hblock : (fs₁.inodeTable n).iIndirectDataBlock = -1 := by
      rw [hcleared.eq]
      simpa [FS.ref] using htable.2
    rw [heval, Option.bind_some, if_pos rfl, if_pos htable.1]
    simp only [eval_read, hblock]
    rw [eval_bind, dataBlockFree_absent]
    rfl

/-! ## What a truncation keeps -/

namespace Emptied

variable (he : Emptied n fs fs')

include he

theorem fsData : fs'.fsData = fs.fsData := by rw [he.eq]

theorem states : fs'.freeinodeTs = fs.freeinodeTs := by rw [he.eq]

theorem handles : fs'.openFileTable = fs.openFileTable := by rw [he.eq]

theorem handleStates : fs'.freeOpenFileEntries = fs.freeOpenFileEntries := by
  rw [he.eq]

theorem inode : fs'.inodeTable n = emptied (fs.truncated n) (fs.inodeTable n) := by
  rw [he.eq]
  simp

theorem other (hm : m ≠ n) : fs'.inodeTable m = fs.inodeTable m := by
  rw [he.eq]
  simp [hm]

theorem size : (fs'.inodeTable n).iSize = 0 := by rw [he.inode, emptied]

theorem isFile : IsFile fs' m ↔ IsFile fs m := by
  refine isFile_congr he.states ?_
  by_cases hm : m = n
  · subst hm
    rw [he.inode, emptied]
  · rw [he.other hm]

theorem ref_other (hm : m ≠ n) : fs'.ref m = fs.ref m := by
  refine ref_congr ?_ ?_ fun t _ x _ => by rw [he.fsData]
  · rw [he.other hm]
  · rw [he.other hm]

/-- A place of the truncated file. -/
theorem ref_self : fs'.ref n r = -1 ∨ fs'.ref n r = fs.ref n r := by
  cases r with
  | direct i =>
      simp only [FS.ref, he.inode, emptied]
      split
      · exact Or.inl rfl
      · exact Or.inr rfl
  | table =>
      simp only [FS.ref, he.inode, emptied]
      split
      · exact Or.inl rfl
      · exact Or.inr rfl
  | entry k =>
      by_cases hten : maxDirectBlocks ≤ fs.truncated n
      · left
        refine ref_entry_absent ?_ k
        simp only [FS.ref, he.inode, emptied, if_pos hten]
      · right
        simp only [FS.ref, he.inode, emptied, if_neg hten, FS.intAt, he.fsData]

/-- A place that is given back is empty. -/
theorem ref_back (hr : GivenBack (fs.truncated n) r) : fs'.ref n r = -1 := by
  cases r with
  | direct i => simp only [FS.ref, he.inode, emptied, if_pos (show (i : Nat) < _ from hr)]
  | table => simp only [FS.ref, he.inode, emptied, if_pos (show maxDirectBlocks ≤ _ from hr)]
  | entry k => exact hr.elim

end Emptied

end TecnicoFS.Part1
