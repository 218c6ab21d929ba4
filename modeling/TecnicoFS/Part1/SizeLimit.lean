import TecnicoFS.Part1.DirectWrite
import TecnicoFS.Part1.OneFile

/-!
# Part 1: the largest file

An indirect block holds 256 numbers, so a file has at most 266 blocks. `tfs_write` does not know
this limit: its loop goes on to any block number, and a new indirect block is filled with 1014
numbers. `entriesUsed` lists the numbers of the indirect block that a write uses.
-/

namespace TecnicoFS.Part1

open Threads Threads.Prog
open Part2 (blockSize dataBlocks inodeTableSize maxOpenFiles blockAddr dataBlockGet
  getOpenFileEntry inodeGet Call Ret)

variable {fs fs' fs₁ : FS} {n : Fin inodeTableSize} {h : Fin maxOpenFiles} {off : Nat}
  {buffer : List UInt8} {b : Fin dataBlocks} {last left i written stop : Nat}

/-- The largest size of a file. -/
abbrev maxFileSize : Nat := maxFileBlocks * blockSize

/-! ## The numbers of the indirect block that a write uses -/

/-- Those used to find block `i`: the ones a new indirect block is filled with, and the one of
the block. -/
def usedByBlock (fs : FS) (n : Fin inodeTableSize) (i : Nat) : List Nat :=
  if i < maxDirectBlocks then []
  else if fs.ref n .table = -1 then
    if freeList fs = [] then []
    else List.range (blockSize - maxDirectBlocks) ++ [i - maxDirectBlocks]
  else if (dataBlockGet (fs.ref n .table)).isSome then [i - maxDirectBlocks]
  else []

/-- Those used by the loop, in the order of its iterations. -/
def usedByLoop (h : Fin maxOpenFiles) (n : Fin inodeTableSize) (last : Nat) :
    (left i : Nat) → (buffer : List UInt8) → FS → List Nat
  | 0, _, _, _ => []
  | left + 1, i, buffer, fs =>
      usedByBlock fs n i ++
        match (writeBlock n i).eval fs with
        | some (some b, fs₁) =>
            let offset := (fs₁.openFileTable h).ofOffset
            let rest := blockSize - offset % blockSize
            if i + 1 < last ∧ rest < buffer.length then
              usedByLoop h n last left (i + 1) (buffer.drop rest) (fs₁.put h n b (buffer.take rest))
            else if buffer.length ≤ blockSize then []
            else
              usedByLoop h n last left (i + 1) (buffer.drop blockSize)
                (fs₁.put h n b (buffer.take blockSize))
        | _ => []

/-- Those used by `tfs_write`. -/
def entriesUsed (fs : FS) (h : Fin maxOpenFiles) (n : Fin inodeTableSize)
    (buffer : List UInt8) : List Nat :=
  if buffer.length = 0 then []
  else
    let offset := (fs.openFileTable h).ofOffset
    let first := offset / blockSize
    let last := endBlock offset buffer.length
    usedByLoop h n last (last - first) first buffer fs

/-- A write uses no number past the end of the indirect block, and past the largest size it
stores the bytes that fit and returns how many these are, with the earlier bytes of the file
as they were. -/
structure WithinLimit (fs : FS) (h : Fin maxOpenFiles) (n : Fin inodeTableSize)
    (buffer : List UInt8) : Prop where
  entries : ∀ k ∈ entriesUsed fs h n buffer, k < tableSize
  past : maxFileSize < (fs.openFileTable h).ofOffset + buffer.length →
    ∃ fs', (tfsWrite ((h : Nat) : Int) buffer).eval fs =
        some (((maxFileSize - (fs.openFileTable h).ofOffset : Nat) : Int), fs') ∧
      (∀ p, (fs.openFileTable h).ofOffset ≤ p → p < maxFileSize →
        fs'.fileByte n p = buffer[p - (fs.openFileTable h).ofOffset]?) ∧
      ∀ p, p < (fs.openFileTable h).ofOffset → fs.fileByte n p ≠ none →
        fs'.fileByte n p = fs.fileByte n p

/-- A write past the largest size that stops there by chance, because the number of the last
block of the loop is one too small. -/
def StopsThere (fs : FS) (n : Fin inodeTableSize) (off count : Nat) : Prop :=
  count % blockSize = 0 ∧ off % blockSize ≠ 0 ∧ count ≠ blockSize ∧
    (off + count) / blockSize = maxFileBlocks ∧
    lacks fs n (off / blockSize) maxFileBlocks ≤ (freeList fs).length

/-! ## The value of a write -/

theorem sameTable_ofHandles (fs₀ : FS) :
    OfHandles fun fs => fs.openFileTable = fs₀.openFileTable :=
  fun _ _ hs heq => heq.trans hs

theorem writeBlock_offset {block : Option (Fin dataBlocks)}
    (heval : (writeBlock n i).eval fs = some (block, fs₁))
    (hoff : (fs.openFileTable h).ofOffset = off) : (fs₁.openFileTable h).ofOffset = off := by
  have hkeeps : Keeps (.inode n) (fun s : FS => s.openFileTable = fs.openFileTable)
      (writeBlock n i) :=
    writeBlock_keeps (fun _ h => by cases h) (sameTable_ofHandles fs).ofBlocks i
  rw [hkeeps.eval rfl heval, hoff]

/-- One copy of the loop, wherever it goes. -/
theorem copied {α : Type} {k : Unit → Op α} (bytes : List UInt8) {v : α}
    (hoff : (fs.openFileTable h).ofOffset = off) (hword : off + bytes.length < wordSize)
    (heval : ((copyIn h b bytes).bind fun _ =>
      (Prog.modify fun fs : FS => fs.advance h n bytes.length).bind k).eval fs = some (v, fs')) :
    ((fs.put h n b bytes).openFileTable h).ofOffset = off + bytes.length ∧
      (k ()).eval (fs.put h n b bytes) = some (v, fs') := by
  refine ⟨by rw [put_openFileTable, Function.update_self, hoff, wordAdd_of_lt hword], ?_⟩
  rw [eval_bind, copyIn, modify?] at heval
  cases hstore : fs.store? (blockAddr b + (fs.openFileTable h).ofOffset % blockSize) bytes with
  | none =>
      rw [eval_act_of_none hstore] at heval
      cases heval
  | some fs₁ =>
      rw [eval_act_of_some hstore, eval_ret, Option.bind_some, eval_modify] at heval
      rw [FS.store?] at hstore
      split at hstore
      · cases hstore
        exact heval
      · cases hstore

/-- Whatever the state: the loop returns -1, the length of the buffer, or the number of bytes
before the end of the block it takes for the last one. -/
theorem writeLoop_value {r : Int} (hoff : (fs.openFileTable h).ofOffset = off)
    (hi : off / blockSize = i) (hleft : left + i = last) (hword : off + buffer.length < wordSize)
    (hstart : off % blockSize = 0 ∨ i + 1 < last ∨ i < last ∧ buffer.length ≤ blockSize)
    (heval : (writeLoop h n last left i buffer written).eval fs = some (r, fs')) :
    r = -1 ∨ r = wordToInt (written + buffer.length) ∨
      r = wordToInt (written + plannedTo last off buffer.length) ∧
        (off % blockSize = 0 ∨ i + 1 < last) := by
  induction left generalizing i fs off buffer written with
  | zero =>
      rw [writeLoop, leave_eval] at heval
      have hplan : plannedTo last off buffer.length = 0 := by
        simp only [plannedTo, blockSize] at hi ⊢
        omega
      refine Or.inr (Or.inr ⟨?_, by omega⟩)
      rw [hplan, Nat.add_zero]
      exact (Prod.mk.inj (Option.some.inj heval)).1.symm
  | succ left ih =>
      have hrest := Nat.mod_lt off (show 0 < blockSize by decide)
      rw [writeLoop, bind_eq, eval_bind] at heval
      rcases Option.bind_eq_some_iff.mp heval with ⟨⟨block, fs₁⟩, hblock, heval⟩
      have hoff₁ := writeBlock_offset hblock hoff
      cases block with
      | none =>
          rw [leave_eval] at heval
          exact Or.inl (Prod.mk.inj (Option.some.inj heval)).1.symm
      | some b =>
          simp only [bind_eq, eval_read, hoff₁] at heval
          split at heval
          -- up to the next block boundary, and on from there
          · next hmore =>
              have htake : (buffer.take (blockSize - off % blockSize)).length =
                  blockSize - off % blockSize := List.length_take_of_le hmore.2.le
              have hcopied := copied (buffer.take (blockSize - off % blockSize))
                (k := fun _ => writeLoop h n last left (i + 1)
                  (buffer.drop (blockSize - off % blockSize))
                  (written + (blockSize - off % blockSize))) hoff₁ (by omega)
                (by rw [htake]; exact heval)
              rw [htake] at hcopied
              rcases next_boundary hi with ⟨hnext, haligned⟩
              have hrec := ih hcopied.1 hnext (by omega)
                (by rw [List.length_drop]; omega) (Or.inl haligned) hcopied.2
              rw [List.length_drop, Nat.add_assoc, Nat.add_sub_cancel' hmore.2.le,
                Nat.add_assoc, ← plannedTo_next hi hmore.1 hmore.2] at hrec
              rcases hrec with hr | hr | ⟨hr, -⟩
              · exact Or.inl hr
              · exact Or.inr (Or.inl hr)
              · exact Or.inr (Or.inr ⟨hr, Or.inr hmore.1⟩)
          · next hmore =>
              split at heval
              · next hshort =>
                  have hcopied := copied buffer (k := fun _ =>
                    leave h n (wordToInt (written + buffer.length))) hoff₁ hword heval
                  have hvalue := hcopied.2
                  rw [leave_eval] at hvalue
                  exact Or.inr (Or.inl (Prod.mk.inj (Option.some.inj hvalue)).1.symm)
              -- more than a block in the last iteration, and an offset at its start
              · next hlong =>
                  have htake : (buffer.take blockSize).length = blockSize :=
                    List.length_take_of_le (by omega)
                  have hend : left = 0 ∧ off % blockSize = 0 ∧
                      plannedTo last off buffer.length = blockSize := by
                    simp only [plannedTo, blockSize] at hmore hlong hstart hi hrest ⊢
                    omega
                  rcases hend with ⟨rfl, haligned, hplan⟩
                  have hcopied := copied (buffer.take blockSize)
                    (k := fun _ => writeLoop h n last 0 (i + 1) (buffer.drop blockSize)
                      (written + blockSize)) hoff₁ (by rw [htake]; omega)
                    (by rw [htake]; exact heval)
                  have hvalue := hcopied.2
                  rw [writeLoop, leave_eval] at hvalue
                  refine Or.inr (Or.inr ⟨?_, Or.inl haligned⟩)
                  rw [hplan]
                  exact (Prod.mk.inj (Option.some.inj hvalue)).1.symm

theorem wordToInt_natCast {a k : Nat} (ha : a < wordSize) (heq : (k : Int) = wordToInt a) :
    a = k := by
  unfold wordToInt toSigned at heq
  split at heq <;> omega

/-- A write past the largest size returns how many bytes fit only where the loop stops there by
chance. -/
theorem tfsWrite_value (hn : (fs.openFileTable h).ofInumber = ((n : Nat) : Int))
    (hoff : (fs.openFileTable h).ofOffset = off) (hbuffer : buffer ≠ [])
    (hword : off + buffer.length < wordSize) (hpast : maxFileSize < off + buffer.length)
    (heval : (tfsWrite ((h : Nat) : Int) buffer).eval fs =
      some (((maxFileSize - off : Nat) : Int), fs')) :
    buffer.length % blockSize = 0 ∧ off % blockSize ≠ 0 ∧ buffer.length ≠ blockSize ∧
      (off + buffer.length) / blockSize = maxFileBlocks := by
  have hlen : 0 < buffer.length := List.length_pos_iff.mpr hbuffer
  have hlast := endBlock_eq hword
  have hstart : off / blockSize < endBlock off buffer.length ∧
      (off % blockSize = 0 ∨ off / blockSize + 1 < endBlock off buffer.length ∨
        off / blockSize < endBlock off buffer.length ∧ buffer.length ≤ blockSize) := by
    rw [hlast]
    simp only [blockSize]
    split <;> omega
  rw [tfsWrite_loop hn hoff hbuffer] at heval
  have hvalue := writeLoop_value hoff rfl (Nat.sub_add_cancel hstart.1.le) hword hstart.2 heval
  rw [Nat.zero_add, Nat.zero_add] at hvalue
  rcases hvalue with hr | hr | ⟨hr, hgood⟩
  · omega
  · have hcount := wordToInt_natCast (by omega) hr
    simp only [maxFileSize] at hcount hpast
    omega
  · have hplanned : plannedTo (endBlock off buffer.length) off buffer.length =
        planned off buffer.length := rfl
    rw [hplanned] at hr
    have hle : planned off buffer.length ≤ buffer.length := Nat.min_le_left ..
    have hcount := wordToInt_natCast (by omega) hr
    -- a write that copies all its bytes does not stop at the largest size
    by_cases hreg : buffer.length % blockSize ≠ 0 ∨ off % blockSize = 0
    · rw [planned_eq hword hreg] at hcount
      simp only [maxFileSize] at hcount hpast
      omega
    · have hmul : buffer.length % blockSize = 0 := by omega
      rw [planned_short hword hmul hlen] at hcount
      rw [hlast] at hgood
      simp only [maxFileSize, maxFileBlocks, maxDirectBlocks, tableSize,
        blockSize] at hreg hmul hcount hgood hpast ⊢
      split at hgood <;> omega

/-! ## When a number past the end of the indirect block is used -/

/-- A direct block is found or there is no free one; no number of the indirect block is
used. -/
theorem direct_step (hl : FileLayout fs n) (hoff : (fs.openFileTable h).ofOffset = off)
    (hi : i < maxDirectBlocks) :
    (∃ fs₁ b, (writeBlock n i).eval fs = some (some b, fs₁) ∧ fs₁.blockAt n i = some b ∧
      Wrote h n off [] fs fs₁ ∧ FileLayout fs₁ n ∧
      newTable fs₁ n (i + 1) stop = newTable fs n i stop) ∨
    (writeBlock n i).eval fs = some (none, fs) ∧ freeList fs = [] := by
  have hplace := blockRef_direct hi
  rw [writeBlock, dif_pos hi]
  rcases writeDirect_eval fs n ⟨i, hi⟩ with ⟨fs₁, heval, hf⟩ | ⟨heval, -, hnone⟩
  · left
    have htable : fs₁.ref n .table = fs.ref n .table := hf.ref_of_ne (by simp)
    have hl₁ := hf.layout hl
    rcases dataBlockGet_ref hl₁ hf.present with ⟨b, hb⟩
    refine ⟨fs₁, b, by rw [heval, hb], ?_,
      hf.wrote hl (fun c _ => not_spilled_of_table htable) hoff, hl₁, hf.newTable_direct stop⟩
    rw [FS.blockAt, slot_of_ref hplace, hb]
  · exact Or.inr ⟨heval, hnone⟩

/-- Without a free block there is no new indirect block. -/
theorem newTable_of_full (hfree : freeList fs = []) : newTable fs n i stop = none := by
  rw [newTable, hfree]
  split <;> rfl

/-- Behind a block that is there no indirect block is needed for it. -/
theorem newTable_end (hslot : fs.slot n i ≠ -1) : newTable fs n (i + 1) (i + 1) = none :=
  if_neg (not_needsTable hslot)

theorem safeTable_of_none (hnone : newTable fs n i stop = none) : SafeTable fs n i stop := by
  intro t ht
  rw [hnone] at ht
  cases ht

/-- The loop is about to take block `i`, and stays below the largest size. -/
structure LoopBelow (fs : FS) (h : Fin maxOpenFiles) (n : Fin inodeTableSize)
    (last i off stop : Nat) (buffer : List UInt8) : Prop where
  layout : FileLayout fs n
  offset : (fs.openFileTable h).ofOffset = off
  block : off / blockSize = i
  more : i < last
  nonempty : buffer ≠ []
  ends : stopBlock (off + plannedTo last off buffer.length) = stop
  size : off + plannedTo last off buffer.length ≤ maxFileSize

section

variable (hbelow : LoopBelow fs h n last i off stop buffer)

include hbelow

/-- The block is one of those that are written, and all of them have a number. -/
theorem LoopBelow.block_lt : i < stop ∧ stop ≤ maxFileBlocks := by
  have hlen : 0 < buffer.length := List.length_pos_iff.mpr hbelow.nonempty
  have hi := hbelow.block
  have hlast := hbelow.more
  have hstop := hbelow.ends
  have hmax := hbelow.size
  constructor
  · simp only [plannedTo, stopBlock, blockSize] at hi hstop ⊢
    omega
  · simp only [maxFileSize, maxFileBlocks, maxDirectBlocks, tableSize, stopBlock,
      blockSize] at hstop hmax ⊢
    omega

/-- An iteration that fills its block to the end leaves the loop at the next one. -/
theorem LoopBelow.next (hw : Wrote h n off [] fs fs₁) (hl₁ : FileLayout fs₁ n)
    (hb : fs₁.blockAt n i = some b) (hnext : i + 1 < last)
    (hbuf : blockSize - off % blockSize < buffer.length) :
    LoopBelow (fs₁.put h n b (buffer.take (blockSize - off % blockSize))) h n last (i + 1)
        (off + (blockSize - off % blockSize)) stop
        (buffer.drop (blockSize - off % blockSize)) ∧
      (fs₁.put h n b (buffer.take (blockSize - off % blockSize))).ref n = fs₁.ref n := by
  have hrest := Nat.mod_lt off (show 0 < blockSize by decide)
  have hi := hbelow.block
  have hmax := hbelow.size
  have htake : (buffer.take (blockSize - off % blockSize)).length =
      blockSize - off % blockSize := List.length_take_of_le hbuf.le
  have hne : buffer.take (blockSize - off % blockSize) ≠ [] := by
    rw [← List.length_pos_iff, htake]
    omega
  have hword : off + (buffer.take (blockSize - off % blockSize)).length < wordSize := by
    rw [htake]
    simp only [maxFileSize, maxFileBlocks, maxDirectBlocks, tableSize, plannedTo,
      blockSize, wordSize] at hmax hrest ⊢
    omega
  rw [← hi] at hb
  rcases iteration_wrote _ hw hl₁ hb (by omega) hne hword with ⟨hw₂, hl₂, href⟩
  have hoff₂ := hw₂.offset
  rw [htake] at hoff₂
  -- the iterations that are left write what this one does not
  have hplan : off + (blockSize - off % blockSize) + plannedTo last
      (off + (blockSize - off % blockSize))
      (buffer.drop (blockSize - off % blockSize)).length =
        off + plannedTo last off buffer.length := by
    rw [List.length_drop, plannedTo_next hi hnext hbuf, Nat.add_assoc]
  refine ⟨?_, href⟩
  constructor
  · exact hl₂
  · exact hoff₂
  · exact (next_boundary hi).1
  · exact hnext
  · rw [← List.length_pos_iff, List.length_drop]
    omega
  · rw [hplan]
    exact hbelow.ends
  · rw [hplan]
    exact hmax

/-- Otherwise the write ends with this block. -/
theorem LoopBelow.ends_here (hleft : left + 1 + i = last)
    (hlast : ¬ (i + 1 < last ∧ blockSize - off % blockSize < buffer.length)) :
    stop = i + 1 ∧ (blockSize < buffer.length → left = 0) := by
  have hlen : 0 < buffer.length := List.length_pos_iff.mpr hbelow.nonempty
  have hrest := Nat.mod_lt off (show 0 < blockSize by decide)
  have hi := hbelow.block
  have hstop := hbelow.ends
  simp only [plannedTo, stopBlock, blockSize] at hstop hlast hi hrest ⊢
  omega

/-- The first block past the direct ones gets a new indirect block, which is filled past its
end. -/
theorem usedByLoop_newTable (hge : maxDirectBlocks ≤ i) (habsent : fs.ref n .table = -1)
    {t : Fin dataBlocks} {ts : List (Fin dataBlocks)} (hfree : freeList fs = t :: ts) :
    (∀ k ∈ usedByLoop h n last (left + 1) i buffer fs, k < tableSize) ↔
      newTable fs n i stop = none := by
  rw [newTable_first habsent hge hbelow.block_lt.1 hfree, iff_false_right (by simp)]
  intro hall
  have hmem : blockSize - maxDirectBlocks - 1 ∈
      usedByLoop h n last (left + 1) i buffer fs := by
    rw [usedByLoop, usedByBlock, if_neg (by omega), if_pos habsent,
      if_neg (by rw [hfree]; simp)]
    refine List.mem_append_left _ (List.mem_append_left _ ?_)
    exact List.mem_range.mpr (by decide)
  exact absurd (hall _ hmem) (by decide)

/-- Without a free block for the table nothing is used at all. -/
theorem usedByLoop_noTable (hge : maxDirectBlocks ≤ i) (habsent : fs.ref n .table = -1)
    (hfree : freeList fs = []) :
    (∀ k ∈ usedByLoop h n last (left + 1) i buffer fs, k < tableSize) ↔
      newTable fs n i stop = none := by
  rcases hbelow.block_lt with ⟨histop, hstopmax⟩
  have hused : usedByBlock fs n i = [] := by
    rw [usedByBlock, if_neg (by omega), if_pos habsent, if_pos hfree]
  have hnone : newTable fs n i stop = none := newTable_of_full hfree
  rcases writeBlock_eval hbelow.layout hbelow.offset histop hstopmax (safeTable_of_none hnone) with
    ⟨fs₁, hblock, hw, hl₁, -⟩
  cases hb : fs₁.blockAt n i with
  | none =>
      rw [hb] at hblock
      rw [usedByLoop, hblock, hused]
      exact iff_of_true (by simp) hnone
  | some b =>
      have hslot := hw.found_before hfree hb
      rcases blockRef_entry hge (by omega) with ⟨k, -, hplace⟩
      rw [slot_of_ref hplace, ref_entry_absent habsent] at hslot
      exact absurd rfl hslot

section

-- what the iterations after this one use, and that there are `left` of them
variable (hleft : left + 1 + i = last)
  (hafter : ∀ fs₂ off₂ buffer₂, LoopBelow fs₂ h n last (i + 1) off₂ stop buffer₂ →
    ((∀ k ∈ usedByLoop h n last left (i + 1) buffer₂ fs₂, k < tableSize) ↔
      newTable fs₂ n (i + 1) stop = none))

include hleft hafter

/-- The iteration that found its block uses the numbers of this block, and the loop goes on. -/
theorem usedByLoop_found (hw : Wrote h n off [] fs fs₁) (hl₁ : FileLayout fs₁ n)
    (hb : fs₁.blockAt n i = some b) (hblock : (writeBlock n i).eval fs = some (some b, fs₁)) :
    (∀ k ∈ usedByLoop h n last (left + 1) i buffer fs, k < tableSize) ↔
      (∀ k ∈ usedByBlock fs n i, k < tableSize) ∧ newTable fs₁ n (i + 1) stop = none := by
  have hoff₁ : (fs₁.openFileTable h).ofOffset = off := hw.offset
  have hslot : fs₁.slot n i ≠ -1 := by
    rw [blockAt_eq_some.mp hb]
    exact natCast_ne_absent b
  rw [usedByLoop, hblock]
  simp only [hoff₁, List.forall_mem_append]
  refine and_congr_right fun _ => ?_
  split
  · next hmore =>
      rcases hbelow.next hw hl₁ hb hmore.1 hmore.2 with ⟨hnext, href⟩
      rw [hafter _ _ _ hnext, newTable_congr href rfl]
  · next hmore =>
      rcases hbelow.ends_here hleft hmore with ⟨hstop, hlong⟩
      have hempty : (if buffer.length ≤ blockSize then []
          else usedByLoop h n last left (i + 1) (buffer.drop blockSize)
            (fs₁.put h n b (buffer.take blockSize))) = [] := by
        split
        · rfl
        · next hlt =>
            rw [hlong (by omega)]
            rfl
      rw [hempty, hstop]
      exact iff_of_true (by simp) (newTable_end hslot)

theorem usedByLoop_direct (hdirect : i < maxDirectBlocks) :
    (∀ k ∈ usedByLoop h n last (left + 1) i buffer fs, k < tableSize) ↔
      newTable fs n i stop = none := by
  have hused : usedByBlock fs n i = [] := if_pos hdirect
  rcases direct_step hbelow.layout hbelow.offset hdirect with
    ⟨fs₁, b, hblock, hb, hw, hl₁, hnew⟩ | ⟨hblock, hfree⟩
  · rw [usedByLoop_found hbelow hleft hafter hw hl₁ hb hblock, hused, hnew,
      and_iff_right (by simp)]
  · rw [usedByLoop, hblock, hused]
    exact iff_of_true (by simp) (newTable_of_full hfree)

/-- A file that has its indirect block gets no other, and the number of the block lies in it. -/
theorem usedByLoop_table (hge : maxDirectBlocks ≤ i) (hpresent : fs.ref n .table ≠ -1) :
    (∀ k ∈ usedByLoop h n last (left + 1) i buffer fs, k < tableSize) ↔
      newTable fs n i stop = none := by
  rcases hbelow.block_lt with ⟨histop, hstopmax⟩
  have hnone : newTable fs n i stop = none := if_neg fun hneeds => hpresent hneeds.1
  have hbound : ∀ k ∈ usedByBlock fs n i, k < tableSize := by
    intro k hk
    rcases dataBlockGet_ref hbelow.layout hpresent with ⟨t, ht⟩
    rw [usedByBlock, if_neg (by omega), if_neg hpresent, ht, Option.isSome_some, if_pos rfl,
      List.mem_singleton] at hk
    simp only [maxFileBlocks] at hstopmax
    omega
  rcases writeBlock_eval hbelow.layout hbelow.offset histop hstopmax (safeTable_of_none hnone) with
    ⟨fs₁, hblock, hw, hl₁, -⟩
  cases hb : fs₁.blockAt n i with
  | none =>
      rw [hb] at hblock
      rw [usedByLoop, hblock]
      simp only [List.append_nil]
      exact iff_of_true hbound hnone
  | some b =>
      have hneeds₁ : ¬ NeedsTable fs₁ n stop := by
        rintro ⟨habsent₁, -⟩
        rw [hw.kept _ hpresent] at habsent₁
        exact hpresent habsent₁
      rw [hb] at hblock
      rw [usedByLoop_found hbelow hleft hafter hw hl₁ hb hblock]
      exact iff_of_true ⟨hbound, if_neg hneeds₁⟩ hnone

end

end

/-- In a write that stays below the largest size, the only numbers past the end of the indirect
block are those that a new one is filled with. -/
theorem usedByLoop_below (hbelow : LoopBelow fs h n last i off stop buffer)
    (hleft : left + i = last) :
    (∀ k ∈ usedByLoop h n last left i buffer fs, k < tableSize) ↔ newTable fs n i stop = none := by
  induction left generalizing i fs off buffer with
  | zero =>
      have hmore := hbelow.more
      omega
  | succ left ih =>
      have hafter : ∀ fs₂ off₂ buffer₂, LoopBelow fs₂ h n last (i + 1) off₂ stop buffer₂ →
          ((∀ k ∈ usedByLoop h n last left (i + 1) buffer₂ fs₂, k < tableSize) ↔
            newTable fs₂ n (i + 1) stop = none) := by
        intro fs₂ off₂ buffer₂ hnext
        exact ih hnext (by omega)
      by_cases hdirect : i < maxDirectBlocks
      · exact usedByLoop_direct hbelow hleft hafter hdirect
      · have hge : maxDirectBlocks ≤ i := by omega
        by_cases habsent : fs.ref n .table = -1
        · cases hfree : freeList fs with
          | nil => exact usedByLoop_noTable hbelow hge habsent hfree
          | cons t ts => exact usedByLoop_newTable hbelow hge habsent hfree
        · exact usedByLoop_table hbelow hleft hafter hge habsent

/-! ## The largest size -/

theorem entriesUsed_eq (hbuffer : buffer ≠ []) (hoff : (fs.openFileTable h).ofOffset = off) :
    entriesUsed fs h n buffer = usedByLoop h n (endBlock off buffer.length)
      (endBlock off buffer.length - off / blockSize) (off / blockSize) buffer fs := by
  rw [entriesUsed, if_neg (by simpa using hbuffer), hoff]

theorem entriesUsed_below (hl : FileLayout fs n) (hoff : (fs.openFileTable h).ofOffset = off)
    (hbuffer : buffer ≠ []) (hword : off + buffer.length < wordSize)
    (hmax : off + planned off buffer.length ≤ maxFileSize) :
    (∀ k ∈ entriesUsed fs h n buffer, k < tableSize) ↔
      newTable fs n (off / blockSize) (stopBlock (off + planned off buffer.length)) = none := by
  have hlen : 0 < buffer.length := List.length_pos_iff.mpr hbuffer
  have hlast : off / blockSize < endBlock off buffer.length := by
    rw [endBlock_eq hword]
    simp only [blockSize]
    split <;> omega
  rw [entriesUsed_eq hbuffer hoff]
  have hbelow : LoopBelow fs h n (endBlock off buffer.length) (off / blockSize) off
      (stopBlock (off + planned off buffer.length)) buffer := by
    constructor
    · exact hl
    · exact hoff
    · rfl
    · exact hlast
    · exact hbuffer
    · rfl
    · exact hmax
  exact usedByLoop_below hbelow (Nat.sub_add_cancel hlast.le)

/-- Where the loop stops at the largest size. -/
theorem planned_stops {count : Nat} (hpos : 0 < count) (hword : off + count < wordSize)
    (hmul : count % blockSize = 0) (hpast : maxFileSize < off + count)
    (hend : (off + count) / blockSize = maxFileBlocks) :
    off + planned off count = maxFileSize ∧ planned off count = maxFileSize - off := by
  rw [planned_short hword hmul hpos]
  simp only [maxFileSize, maxFileBlocks, maxDirectBlocks, tableSize, blockSize] at hmul hpast hend ⊢
  omega

/-- For a thread alone that finds every lock free: through every open handle of a file whose blocks
are in place, `tfs_write` stays within the indirect block, and past the largest size stores and
counts only what fits, exactly where it writes nothing, or it allocates no indirect block and either
does not go past the largest size or stops there by chance. -/
theorem within_limit_iff (hl : FileLayout fs n) (hopen : Opens fs h n)
    (hoff : (fs.openFileTable h).ofOffset = off) (hword : off + buffer.length < wordSize) :
    WithinLimit fs h n buffer ↔ buffer = [] ∨
      newTable fs n (off / blockSize) (stopBlock (off + planned off buffer.length)) = none ∧
        (off + buffer.length ≤ maxFileSize ∨ StopsThere fs n off buffer.length) := by
  have hstop : stopBlock maxFileSize = maxFileBlocks := by decide
  by_cases hbuffer : buffer = []
  · subst hbuffer
    refine iff_of_true ⟨by simp [entriesUsed], fun hpast => ⟨fs, ?_, ?_, fun p _ _ => rfl⟩⟩
      (Or.inl rfl)
    · rw [List.length_nil] at hpast
      rw [Nat.sub_eq_zero_of_le (by omega), tfsWrite_empty hopen.refers]
      rfl
    · intro p hp hp'
      rw [List.length_nil] at hpast
      omega
  have hlen : 0 < buffer.length := List.length_pos_iff.mpr hbuffer
  have hle : planned off buffer.length ≤ buffer.length := Nat.min_le_left ..
  rw [or_iff_right hbuffer]
  by_cases hpast : maxFileSize < off + buffer.length
  · rw [or_iff_right (by omega)]
    constructor
    -- from the value it returns the write stops there by chance
    · intro hwithin
      rcases hwithin.past (by rw [hoff]; exact hpast) with ⟨fs', heval, -⟩
      rw [hoff] at heval
      rcases tfsWrite_value hopen.refers hoff hbuffer hword hpast heval with
        ⟨hmul, hmis, hone, hend⟩
      rcases planned_stops hlen hword hmul hpast hend with ⟨hplan, hcount⟩
      have hnone := (entriesUsed_below hl hoff hbuffer hword hplan.le).mp hwithin.entries
      refine ⟨hnone, hmul, hmis, hone, hend, ?_⟩
      rcases tfsWrite_eval hl hopen.refers hoff hbuffer hword (fun heq => absurd heq hone) hplan.le
        (safeTable_of_none hnone) with ⟨count, fs'', heval', hended⟩
      -- a write that runs out of blocks would have returned -1
      have hfull : count = planned off buffer.length := by
        rw [heval] at heval'
        have hvalue := (Prod.mk.inj (Option.some.inj heval')).1
        split at hvalue
        · next heq => exact heq
        · omega
      have henough := hended.enough.mp hfull
      rwa [hplan, hstop] at henough
    · rintro ⟨hnone, hmul, hmis, hone, hend, henough⟩
      rcases planned_stops hlen hword hmul hpast hend with ⟨hplan, hcount⟩
      refine ⟨(entriesUsed_below hl hoff hbuffer hword hplan.le).mpr hnone, fun _ => ?_⟩
      rcases tfsWrite_eval hl hopen.refers hoff hbuffer hword (fun heq => absurd heq hone) hplan.le
        (safeTable_of_none hnone) with ⟨count, fs', heval, hended⟩
      rw [hplan, hstop] at hended
      have hfull := hended.enough.mpr henough
      have hlength : (buffer.take count).length = count := List.length_take_of_le (by omega)
      refine ⟨fs', ?_, ?_, ?_⟩
      · rw [heval, if_pos hfull, hoff, hfull, hcount]
      · intro p hlo hhi
        rw [hoff] at hlo ⊢
        have hbyte := hended.wrote.written p hlo (by rw [hlength]; omega)
        rwa [List.getElem?_take_of_lt (by omega)] at hbyte
      · intro p hp hbyte
        rw [hoff] at hp
        exact hended.wrote.bytes p (Or.inl hp) hbyte
  · have hmax : off + buffer.length ≤ maxFileSize := by omega
    rw [and_iff_left (Or.inl hmax), ← entriesUsed_below hl hoff hbuffer hword (by omega)]
    exact ⟨fun hwithin => hwithin.entries,
      fun hentries => ⟨hentries, fun hlt => absurd hlt (by rw [hoff]; exact hpast)⟩⟩

/-- The state in which file 1 has the blocks 1 to 10, the indirect block 11 and in it block 12, and
handle 0 is open behind three bytes of the last one. -/
def indirectFile : FS where
  inodeTable := Function.update initialFS.inodeTable 1
    ⟨.tFile, maxDirectBlocks * blockSize + 3, fun i => ((i : Nat) : Int) + 1, 11⟩
  freeinodeTs := Function.update initialFS.freeinodeTs 1 .taken
  fsData := Memory.store (fun _ => 0xFF) (11 * blockSize) (intBytes 4 12)
  freeBlocks := fun b => if (b : Nat) ≤ 12 then .taken else .free
  openFileTable := Function.update initialFS.openFileTable 0 ⟨1, maxDirectBlocks * blockSize + 3⟩
  freeOpenFileEntries := Function.update initialFS.freeOpenFileEntries 0 .taken
  openFilesCount := 1

theorem indirectFile_entry (k : Fin tableSize) :
    indirectFile.ref 1 (.entry k) = if (k : Nat) = 0 then 12 else -1 := by
  revert k
  decide +kernel

theorem indirectFile_layout : FileLayout indirectFile 1 where
  taken := by
    intro r hr
    cases r with
    | direct i =>
        have hi := i.isLt
        simp only [maxDirectBlocks] at hi
        refine ⟨⟨i + 1, by simp only [dataBlocks]; omega⟩, rfl, ?_⟩
        simp only [indirectFile]
        exact if_pos (by omega)
    | table => exact ⟨11, rfl, rfl⟩
    | entry k =>
        rw [indirectFile_entry] at hr ⊢
        split at hr
        · exact ⟨12, if_pos ‹_›, rfl⟩
        · exact absurd rfl hr
  distinct := by
    have hdirect : ∀ i, indirectFile.ref 1 (.direct i) = ((i : Nat) : Int) + 1 := fun _ => rfl
    have htable : indirectFile.ref 1 .table = 11 := rfl
    intro r r' hr heq
    cases r with
    | direct i =>
        have hi := i.isLt
        simp only [maxDirectBlocks] at hi
        cases r' with
        | direct j =>
            rw [hdirect, hdirect] at heq
            rw [Fin.ext (show (i : Nat) = j by omega)]
        | table =>
            rw [hdirect, htable] at heq
            omega
        | entry k =>
            rw [hdirect, indirectFile_entry] at heq
            split at heq <;> omega
    | table =>
        cases r' with
        | direct j =>
            have hj := j.isLt
            simp only [maxDirectBlocks] at hj
            rw [hdirect, htable] at heq
            omega
        | table => rfl
        | entry k =>
            rw [htable, indirectFile_entry] at heq
            split at heq <;> omega
    | entry k =>
        rw [indirectFile_entry] at hr heq
        rw [if_pos (by by_contra hk; exact hr (if_neg hk))] at heq
        cases r' with
        | direct j =>
            have hj := j.isLt
            simp only [maxDirectBlocks] at hj
            rw [hdirect] at heq
            omega
        | table =>
            rw [htable] at heq
            omega
        | entry k' =>
            have hk : (k : Nat) = 0 := by by_contra hk; exact hr (if_neg hk)
            rw [indirectFile_entry] at heq
            split at heq
            · rw [Fin.ext (show (k : Nat) = k' by omega)]
            · omega

/-- Two bytes written behind the three that a file has in a block of its indirect block. -/
theorem within_limit_two : WithinLimit indirectFile 0 1 [1, 2] := by
  have hopen : Opens indirectFile 0 1 := by
    refine ⟨by simp [indirectFile], by simp [indirectFile], ?_, ?_⟩
    · simp [indirectFile]
    · simp [indirectFile]
  have hoff : (indirectFile.openFileTable 0).ofOffset = maxDirectBlocks * blockSize + 3 := by
    simp [indirectFile]
  refine (within_limit_iff indirectFile_layout hopen hoff (by decide)).mpr
    (Or.inr ⟨if_neg fun hneeds => ?_, Or.inl (by decide)⟩)
  exact absurd hneeds.1 (by decide)

/-- A write of one byte more than fits into a new file does not return the number of bytes that
fit. -/
theorem past_limit_not_within : ∃ (fs : FS) (h : Fin maxOpenFiles) (n : Fin inodeTableSize)
    (buffer : List UInt8), machine.run machine.init [.open pathA 1] = some ([⟨0, []⟩], fs) ∧
      Opens fs h n ∧ ¬ WithinLimit fs h n buffer := by
  have hrun : (machine.run initialFS [.open pathA 1]).map (fun out : List Ret × FS =>
      decide (out.1 = [⟨0, []⟩] ∧ out.2.freeOpenFileEntries 0 = .taken ∧
        out.2.openFileTable 0 = ⟨1, 0⟩ ∧ out.2.freeinodeTs 1 = .taken ∧
        (out.2.inodeTable 1).iNodeType = .tFile)) = some true := by
    decide +kernel
  rcases Option.map_eq_some_iff.mp hrun with ⟨⟨results, fs⟩, hrun, hfacts⟩
  rcases of_decide_eq_true hfacts with ⟨rfl, htaken, hentry, hinode, htype⟩
  have hlen : (List.replicate (maxFileSize + 1) (0 : UInt8)).length = maxFileSize + 1 :=
    List.length_replicate
  have hbuffer : List.replicate (maxFileSize + 1) (0 : UInt8) ≠ [] := by
    rw [← List.length_pos_iff, hlen]
    exact Nat.succ_pos _
  have hoff : (fs.openFileTable 0).ofOffset = 0 := by rw [hentry]
  have hn : (fs.openFileTable 0).ofInumber = (((1 : Fin inodeTableSize) : Nat) : Int) := by
    rw [hentry]
    rfl
  refine ⟨fs, 0, 1, List.replicate (maxFileSize + 1) 0, ?_, ⟨htaken, hn, hinode, htype⟩, ?_⟩
  · rw [machine_init]
    exact hrun
  · intro hwithin
    have hpast : maxFileSize < 0 + (List.replicate (maxFileSize + 1) (0 : UInt8)).length := by
      rw [hlen]
      omega
    rcases hwithin.past (by rw [hoff]; exact hpast) with ⟨fs', heval, -⟩
    rw [hoff] at heval
    have hvalue := tfsWrite_value hn hoff hbuffer (by rw [hlen]; decide) hpast heval
    rw [hlen] at hvalue
    exact absurd hvalue.1 (by decide)

end TecnicoFS.Part1
