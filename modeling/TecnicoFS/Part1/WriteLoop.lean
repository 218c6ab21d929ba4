import TecnicoFS.Part1.WriteBlocks

/-!
# Part 1: the loop of `tfs_write`

The loop copies one block after the other. Each iteration copies up to the next block boundary,
so from the second one on the offset is aligned. The number of the last block comes from
separate divisions of the end and of the length: where the length is a multiple of the block
size and the offset is not, it is one too small. Then the loop stops before the last bytes
(`planned`), or, with a length of one block, copies past the end of its block. `Fits` excludes
the latter.
-/

namespace TecnicoFS.Part1

open Threads Threads.Prog
open Part2 (blockSize dataBlocks inodeTableSize maxOpenFiles blockAddr dataBlockGet
  getOpenFileEntry inodeGet)

variable {fs fs' : FS} {n : Fin inodeTableSize} {h : Fin maxOpenFiles} {off : Nat}
  {b : Fin dataBlocks} {buffer : List UInt8}

/-- How many of the bytes that are left the loop copies before it reaches block `last`. -/
def plannedTo (last off count : Nat) : Nat := min count (last * blockSize - off)

/-- How many of its bytes `tfs_write` copies if the blocks suffice. -/
def planned (off count : Nat) : Nat := plannedTo (endBlock off count) off count

/-- The number of the first block that a write up to a position does not reach. -/
def stopBlock (position : Nat) : Nat := (position + (blockSize - 1)) / blockSize

/-- No iteration copies past the end of its block. -/
def Fits (off count : Nat) : Prop := count = blockSize → off % blockSize = 0

instance (off count : Nat) : Decidable (Fits off count) := inferInstanceAs (Decidable (_ → _))

/-! ## The number of bytes that are copied -/

theorem endBlock_eq {count : Nat} (hword : off + count < wordSize) :
    endBlock off count = (off + count) / blockSize + if 0 < count % blockSize then 1 else 0 := by
  rw [endBlock, wordAdd_of_lt hword]
  split <;> rfl

/-- Where the length is not a multiple of the block size, or the offset is one, all bytes are
copied. -/
theorem planned_eq {count : Nat} (hword : off + count < wordSize)
    (hreg : count % blockSize ≠ 0 ∨ off % blockSize = 0) : planned off count = count := by
  rw [planned, plannedTo, endBlock_eq hword]
  simp only [blockSize] at hreg ⊢
  split <;> omega

/-- Where the length is a multiple of the block size, the bytes behind the last block boundary
are left out. -/
theorem planned_short {count : Nat} (hword : off + count < wordSize)
    (hcount : count % blockSize = 0) (hpos : 0 < count) :
    planned off count = count - off % blockSize := by
  rw [planned, plannedTo, endBlock_eq hword]
  simp only [blockSize] at hcount ⊢
  split <;> omega

theorem planned_pos {count : Nat} (hword : off + count < wordSize) (hpos : 0 < count) :
    0 < planned off count := by
  by_cases hreg : count % blockSize ≠ 0 ∨ off % blockSize = 0
  · rwa [planned_eq hword hreg]
  · have hmul : count % blockSize = 0 := by omega
    rw [planned_short hword hmul hpos]
    simp only [blockSize] at hreg hmul ⊢
    omega

/-- The next block boundary is the start of the next block. -/
theorem next_boundary {i : Nat} (hi : off / blockSize = i) :
    (off + (blockSize - off % blockSize)) / blockSize = i + 1 ∧
      (off + (blockSize - off % blockSize)) % blockSize = 0 := by
  have hrest := Nat.mod_lt off (show 0 < blockSize by decide)
  simp only [blockSize] at hi hrest ⊢
  omega

/-- Going up to it leaves the rest of the bytes to the next iterations. -/
theorem plannedTo_next {last i count : Nat} (hi : off / blockSize = i) (hnext : i + 1 < last)
    (hmore : blockSize - off % blockSize < count) :
    plannedTo last off count = (blockSize - off % blockSize) +
      plannedTo last (off + (blockSize - off % blockSize))
        (count - (blockSize - off % blockSize)) := by
  have hrest := Nat.mod_lt off (show 0 < blockSize by decide)
  simp only [plannedTo, blockSize] at hmore hi hrest ⊢
  omega

/-- What the iteration for block `i` does with `count` bytes that are left: it goes up to the next
block boundary, it copies the last bytes, or the loop stops behind it. -/
inductive Iteration (last left off count i stop : Nat) : Prop
  | next : i + 1 < last → blockSize - off % blockSize < count →
      (off + (blockSize - off % blockSize)) % blockSize = 0 →
      (off + (blockSize - off % blockSize)) / blockSize = i + 1 →
      plannedTo last off count = (blockSize - off % blockSize) +
        plannedTo last (off + (blockSize - off % blockSize))
          (count - (blockSize - off % blockSize)) →
      Iteration last left off count i stop
  | final : stop = i + 1 → off % blockSize + count ≤ blockSize → plannedTo last off count = count →
      Iteration last left off count i stop
  | short : stop = i + 1 → ¬ i + 1 < last → left = 0 → off % blockSize = 0 → blockSize < count →
      plannedTo last off count = blockSize → Iteration last left off count i stop

/-- The offset is inside block `i`, and from the second iteration on it is aligned. -/
theorem iteration_cases {last left count i stop : Nat} (hi : off / blockSize = i)
    (hleft : left + 1 + i = last) (hlast : i < last) (hcount : 0 < count)
    (hgood : off % blockSize = 0 ∨ i + 1 < last ∨ off + count ≤ last * blockSize)
    (hstop : stopBlock (off + plannedTo last off count) = stop) :
    i < stop ∧ 0 < plannedTo last off count ∧ Iteration last left off count i stop := by
  have hrest := Nat.mod_lt off (show 0 < blockSize by decide)
  have hpos : i < stop ∧ 0 < plannedTo last off count := by
    simp only [plannedTo, stopBlock, blockSize] at hi hstop ⊢
    omega
  refine ⟨hpos.1, hpos.2, ?_⟩
  by_cases hmore : blockSize - off % blockSize < plannedTo last off count
  · have hnext : i + 1 < last ∧ blockSize - off % blockSize < count := by
      simp only [plannedTo, blockSize] at hmore hi hrest ⊢
      omega
    rcases next_boundary hi with ⟨hblock, haligned⟩
    exact Iteration.next hnext.1 hnext.2 haligned hblock (plannedTo_next hi hnext.1 hnext.2)
  · have hstop' : stop = i + 1 := by
      simp only [stopBlock, blockSize] at hstop hi hmore hrest ⊢
      omega
    by_cases hall : count ≤ plannedTo last off count
    · apply Iteration.final hstop'
      all_goals simp only [plannedTo, blockSize] at hmore hall hrest ⊢
      all_goals omega
    · apply Iteration.short hstop'
      all_goals simp only [plannedTo, blockSize] at hall hgood hmore hi hrest ⊢
      all_goals omega

/-! ## One iteration -/

/-- Copying bytes into a block and moving behind them. -/
theorem copy_eval {α : Type} {k : Unit → Op α} {bytes : List UInt8}
    (hfit : (fs.openFileTable h).ofOffset % blockSize + bytes.length ≤ blockSize) :
    ((copyIn h b bytes).bind fun _ =>
      (Prog.modify fun fs : FS => fs.advance h n bytes.length).bind k).eval fs =
        (k ()).eval (fs.put h n b bytes) := by
  have hb := b.isLt
  have hsize : blockAddr b + (fs.openFileTable h).ofOffset % blockSize + bytes.length ≤
      fsDataSize := by
    simp only [blockAddr, fsDataSize, blockSize, dataBlocks] at hb hfit ⊢
    omega
  rw [eval_bind, copyIn, modify?, eval_act_of_some (by rw [FS.store?, if_pos hsize]), eval_ret,
    Option.bind_some, eval_modify]
  rfl

theorem leave_eval {α : Type} (value : α) : (leave h n value).eval fs = some (value, fs) := rfl

variable {last left i written stop : Nat}

/-- An iteration that does not copy the last bytes goes up to the next block boundary. -/
theorem writeLoop_step {fs₁ : FS} (hblock : (writeBlock n i).eval fs = some (some b, fs₁))
    (hoff : (fs₁.openFileTable h).ofOffset = off) (hnext : i + 1 < last)
    (hmore : blockSize - off % blockSize < buffer.length) :
    (writeLoop h n last (left + 1) i buffer written).eval fs =
      (writeLoop h n last left (i + 1) (buffer.drop (blockSize - off % blockSize))
        (written + (blockSize - off % blockSize))).eval
          (fs₁.put h n b (buffer.take (blockSize - off % blockSize))) := by
  have hlen : (buffer.take (blockSize - off % blockSize)).length = blockSize - off % blockSize :=
    List.length_take_of_le hmore.le
  have hfit : (fs₁.openFileTable h).ofOffset % blockSize +
      (buffer.take (blockSize - off % blockSize)).length ≤ blockSize := by
    have hlt := Nat.mod_lt off (show 0 < blockSize by decide)
    rw [hlen, hoff]
    omega
  have hcopy := copy_eval (b := b) (n := n)
    (k := fun _ => writeLoop h n last left (i + 1) (buffer.drop (blockSize - off % blockSize))
      (written + (blockSize - off % blockSize))) hfit
  rw [hlen] at hcopy
  rw [writeLoop, bind_eq, eval_bind, hblock, Option.bind_some]
  simp only [bind_eq, eval_read, hoff]
  rw [if_pos ⟨hnext, hmore⟩]
  exact hcopy

/-- The iteration that copies the last bytes, with all of them inside its block. -/
theorem writeLoop_last {fs₁ : FS} (hblock : (writeBlock n i).eval fs = some (some b, fs₁))
    (hoff : (fs₁.openFileTable h).ofOffset = off)
    (hfit : off % blockSize + buffer.length ≤ blockSize) :
    (writeLoop h n last (left + 1) i buffer written).eval fs =
      some (wordToInt (written + buffer.length), fs₁.put h n b buffer) := by
  have hcopy := copy_eval (b := b) (n := n)
    (k := fun _ => leave h n (wordToInt (written + buffer.length))) (hoff ▸ hfit)
  rw [writeLoop, bind_eq, eval_bind, hblock, Option.bind_some]
  simp only [bind_eq, eval_read, hoff]
  rw [if_neg (by omega), if_pos (by omega)]
  exact hcopy.trans (leave_eval _)

/-- The iteration after which the loop stops early. -/
theorem writeLoop_short {fs₁ : FS} (hblock : (writeBlock n i).eval fs = some (some b, fs₁))
    (hoff : (fs₁.openFileTable h).ofOffset = off) (haligned : off % blockSize = 0)
    (hlast : ¬ i + 1 < last) (hlong : blockSize < buffer.length) :
    (writeLoop h n last 1 i buffer written).eval fs =
      some (wordToInt (written + blockSize), fs₁.put h n b (buffer.take blockSize)) := by
  have hlen : (buffer.take blockSize).length = blockSize := List.length_take_of_le hlong.le
  have hfit : (fs₁.openFileTable h).ofOffset % blockSize + (buffer.take blockSize).length ≤
      blockSize := by
    rw [hoff, haligned, hlen, Nat.zero_add]
  have hcopy := copy_eval (b := b) (n := n)
    (k := fun _ => writeLoop h n last 0 (i + 1) (buffer.drop blockSize) (written + blockSize)) hfit
  rw [hlen] at hcopy
  rw [writeLoop, bind_eq, eval_bind, hblock, Option.bind_some]
  simp only [bind_eq, eval_read, hoff]
  rw [if_neg (by omega), if_neg (by omega)]
  exact hcopy.trans (leave_eval _)

/-! ## The loop -/

/-- How a write that starts at block `i` ends: after `count` of the planned bytes. It succeeds
if the free blocks suffice, and it stores nothing if they do not suffice for its first block;
where it fails, no free block is left. -/
structure Ended (h : Fin maxOpenFiles) (n : Fin inodeTableSize) (off i stop planned : Nat)
    (buffer : List UInt8) (count : Nat) (fs fs' : FS) : Prop where
  le : count ≤ planned
  wrote : Wrote h n off (buffer.take count) fs fs'
  layout : FileLayout fs' n
  enough : count = planned ↔ lacks fs n i stop ≤ (freeList fs).length
  nothing : count = 0 ↔ (freeList fs).length < lacks fs n i (i + 1)
  free : count = planned → freeList fs' = (freeList fs).drop (lacks fs n i stop)
  exhausted : count ≠ planned → freeList fs' = []
  table : ∀ t : Fin dataBlocks, fs.ref n .table = -1 → fs'.ref n .table = ((t : Nat) : Int) →
    newTable fs n i stop = some t
  touched : ∀ r, fs'.ref n r ≠ fs.ref n r → Reaches i stop r

theorem blockAt_of_slot {j : Nat} (hl : FileLayout fs n) (hj : fs.slot n j ≠ -1) :
    ∃ b, fs.blockAt n j = some b := by
  rcases blockRef_of_slot hj with ⟨r, -, hr⟩
  rw [hr] at hj
  rcases dataBlockGet_ref hl hj with ⟨b, hb⟩
  exact ⟨b, by rw [FS.blockAt, hr, hb]⟩

theorem Wrote.offset {data : List UInt8} (hw : Wrote h n off data fs fs') :
    (fs'.openFileTable h).ofOffset = off + data.length := by
  rw [hw.handle, Function.update_self]

/-- A block that the loop found in a file without free blocks was there before. -/
theorem Wrote.found_before {data : List UInt8} {j : Nat} (hw : Wrote h n off data fs fs')
    (hfree : freeList fs = []) (hb : fs'.blockAt n j = some b) : fs.slot n j ≠ -1 := by
  intro hslot
  have hslot' := blockAt_eq_some.mp hb
  rcases blockRef_of_slot (hslot' ▸ natCast_ne_absent b) with ⟨r, hplace, hr⟩
  rw [slot_of_ref hplace] at hslot
  have hmem := mem_freeList.mpr (hw.fresh r b hslot (hr.symm.trans hslot'))
  rw [hfree] at hmem
  exact List.not_mem_nil hmem

/-- A file with this block has an indirect block, or needs none for it. -/
theorem not_needsTable (hslot : fs.slot n i ≠ -1) : ¬ NeedsTable fs n (i + 1) := by
  rintro ⟨habsent, hlt⟩
  rcases blockRef_of_slot hslot with ⟨r, hplace, hr⟩
  rw [hr] at hslot
  have hge : ¬ i < maxDirectBlocks := by omega
  rw [blockRef, dif_neg hge] at hplace
  split at hplace
  · cases hplace
    exact hslot (ref_entry_absent habsent _)
  · cases hplace

/-- Behind a block that is there nothing is missing. -/
theorem lacks_end (hslot : fs.slot n i ≠ -1) : lacks fs n (i + 1) (i + 1) = 0 := by
  rw [lacks, if_neg (not_needsTable hslot), Nat.sub_self]
  rfl

/-- One iteration: the block is found and some bytes are stored in it. -/
theorem iteration_wrote {fs₁ : FS} (bytes : List UInt8) (hw : Wrote h n off [] fs fs₁)
    (hl : FileLayout fs₁ n) (hb : fs₁.blockAt n (off / blockSize) = some b)
    (hfit : off % blockSize + bytes.length ≤ blockSize) (hbytes : bytes ≠ [])
    (hword : off + bytes.length < wordSize) :
    Wrote h n off bytes fs (fs₁.put h n b bytes) ∧ FileLayout (fs₁.put h n b bytes) n ∧
      (fs₁.put h n b bytes).ref n = fs₁.ref n := by
  have hoff : (fs₁.openFileTable h).ofOffset = off := hw.offset
  have href : (fs₁.put h n b bytes).ref n = fs₁.ref n := put_ref (hoff ▸ hfit) (hl.ne_table hb)
  refine ⟨hw.trans (put_wrote hl hoff hb hfit hbytes hword), ⟨?_, ?_⟩, href⟩
  · intro r hr
    rw [href] at hr ⊢
    exact hl.taken r hr
  · intro r r' hr heq
    rw [href] at hr heq
    exact hl.distinct r r' hr heq

section

variable {fs₁ fs₂ : FS} {count k : Nat} (hdealt : Dealt fs fs₁ n i stop) (hslot : fs₁.slot n i ≠ -1)
  (href : fs₂.ref n = fs₁.ref n) (hmarks : fs₂.freeBlocks = fs₁.freeBlocks)

include hdealt hslot href hmarks

/-- The write ends behind block `i`. -/
theorem Dealt.ended (hstop : stop = i + 1) (hw : Wrote h n off (buffer.take count) fs fs₂)
    (hl : FileLayout fs₂ n) (hcount : 0 < count) :
    Ended h n off i stop count buffer count fs fs₂ := by
  subst hstop
  have henough : lacks fs n i (i + 1) ≤ (freeList fs).length := hdealt.found.mp hslot
  rcases hdealt.free hslot with ⟨k, hdrop, -, hlacks⟩
  have hused : lacks fs n i (i + 1) = k := by rw [hlacks, lacks_end hslot, Nat.add_zero]
  constructor
  · exact le_refl count
  · exact hw
  · exact hl
  · exact iff_of_true rfl henough
  · exact iff_of_false hcount.ne' (not_lt.mpr henough)
  · intro _
    rw [freeList_congr hmarks, hdrop, hused]
  · exact fun hne => absurd rfl hne
  · rw [href]
    exact hdealt.table
  · rw [href]
    exact hdealt.touched

/-- After block `i` the write goes on. -/
theorem Dealt.ended_next {planned : Nat} (hw : Wrote h n off (buffer.take k) fs fs₂)
    (hlen : (buffer.take k).length = k) (hk : 0 < k) {fs' : FS}
    (hended : Ended h n (off + k) (i + 1) stop planned (buffer.drop k) count fs₂ fs') :
    Ended h n off i stop (k + planned) buffer (k + count) fs fs' := by
  rcases hdealt.free hslot with ⟨used, hdrop, -, hlacks⟩
  have hfree : freeList fs₂ = freeList fs₁ := freeList_congr hmarks
  constructor
  · have hle := hended.le
    omega
  · rw [List.take_add]
    refine hw.trans ?_
    rw [hlen]
    exact hended.wrote
  · exact hended.layout
  · have henough := hended.enough
    rw [lacks_congr href, hfree] at henough
    rw [Nat.add_left_cancel_iff, henough]
    exact (hdealt.rest hslot).symm
  · exact iff_of_false (by omega) (not_lt.mpr (hdealt.found.mp hslot))
  · intro hcount
    rw [Nat.add_left_cancel_iff] at hcount
    rw [hended.free hcount, lacks_congr href, hlacks, ← List.drop_drop, ← hdrop, hfree]
  · intro hcount
    rw [Ne, Nat.add_left_cancel_iff] at hcount
    exact hended.exhausted hcount
  -- the indirect block is new in a later iteration, or in this one
  · intro t habsent ht
    by_cases habsent₁ : fs₁.ref n .table = -1
    · rw [← hdealt.later hslot habsent₁, ← newTable_congr href hmarks (i + 1) stop]
      exact hended.table t (by rw [href]; exact habsent₁) ht
    · refine hdealt.table t habsent ?_
      rw [← href] at habsent₁ ⊢
      exact (hended.wrote.kept .table habsent₁).symm.trans ht
  · intro r hr
    by_cases hfirst : fs₁.ref n r = fs.ref n r
    · rw [← hfirst, ← href] at hr
      exact (hended.touched r hr).of_succ
    · exact hdealt.touched r hfirst

end

/-- The write fails at block `i`. -/
theorem Dealt.ended_none {fs₁ : FS} {planned : Nat} (hdealt : Dealt fs fs₁ n i stop)
    (hslot : fs₁.slot n i = -1) (histop : i < stop) (hw : Wrote h n off [] fs fs₁)
    (hl : FileLayout fs₁ n) (hpos : 0 < planned) :
    Ended h n off i stop planned buffer 0 fs fs₁ := by
  have hnone : (freeList fs).length < lacks fs n i (i + 1) :=
    not_le.mp fun hle => hdealt.found.mpr hle hslot
  constructor
  · exact Nat.zero_le planned
  · exact hw
  · exact hl
  · exact iff_of_false hpos.ne fun henough => hdealt.enough histop henough hslot
  · exact iff_of_true rfl hnone
  · exact fun hzero => absurd hzero hpos.ne
  · exact fun _ => hdealt.exhausted hslot
  · exact hdealt.table
  · exact hdealt.touched

/-- The loop, by induction on the iterations that are left. The offset is inside block `i`, and
from the second iteration on it is aligned. -/
theorem writeLoop_eval (hl : FileLayout fs n) (hoff : (fs.openFileTable h).ofOffset = off)
    (hi : off / blockSize = i) (hleft : left + i = last) (hlast : i < last)
    (hbuffer : buffer ≠ [])
    (hgood : off % blockSize = 0 ∨ i + 1 < last ∨ off + buffer.length ≤ last * blockSize)
    (hstop : stopBlock (off + plannedTo last off buffer.length) = stop)
    (hmax : stop ≤ maxFileBlocks) (hsafe : SafeTable fs n i stop) (written : Nat) :
    ∃ count fs', (writeLoop h n last left i buffer written).eval fs =
        some (if count = plannedTo last off buffer.length
          then wordToInt (written + count) else -1, fs') ∧
      Ended h n off i stop (plannedTo last off buffer.length) buffer count fs fs' := by
  induction left generalizing i fs off buffer written with
  | zero => omega
  | succ left ih =>
      have hlen : 0 < buffer.length := List.length_pos_iff.mpr hbuffer
      have hrest := Nat.mod_lt off (show 0 < blockSize by decide)
      rcases iteration_cases hi (by omega) hlast hlen hgood hstop with ⟨histop, hpos, hcases⟩
      have hword : off + blockSize < wordSize := by
        simp only [maxFileBlocks, maxDirectBlocks, tableSize, blockSize, wordSize] at hmax hi ⊢
        omega
      rcases writeBlock_eval hl hoff histop hmax hsafe with ⟨fs₁, hblock, hw, hl₁, hdealt⟩
      cases hb : fs₁.blockAt n i with
      | none =>
          have hslot : fs₁.slot n i = -1 := by
            by_contra hslot
            rcases blockAt_of_slot hl₁ hslot with ⟨b, hb'⟩
            rw [hb] at hb'
            cases hb'
          refine ⟨0, fs₁, ?_, hdealt.ended_none hslot histop hw hl₁ hpos⟩
          rw [hb] at hblock
          rw [writeLoop, bind_eq, eval_bind, hblock, if_neg hpos.ne]
          rfl
      | some b =>
          rw [hb] at hblock
          have hoff₁ : (fs₁.openFileTable h).ofOffset = off := hw.offset
          have hslot : fs₁.slot n i ≠ -1 := by
            rw [blockAt_eq_some.mp hb]
            exact natCast_ne_absent b
          rw [← hi] at hb
          -- the bytes of this iteration
          have hstored : ∀ bytes : List UInt8, off % blockSize + bytes.length ≤ blockSize →
              0 < bytes.length → Wrote h n off bytes fs (fs₁.put h n b bytes) ∧
                FileLayout (fs₁.put h n b bytes) n ∧ (fs₁.put h n b bytes).ref n = fs₁.ref n :=
            fun bytes hfit hbytes => iteration_wrote bytes hw hl₁ hb hfit
              (List.length_pos_iff.mp hbytes) (by omega)
          cases hcases with
          | next hnext hbuf haligned hblock' hplan =>
              have htake : (buffer.take (blockSize - off % blockSize)).length =
                  blockSize - off % blockSize := List.length_take_of_le hbuf.le
              have hdrop : (buffer.drop (blockSize - off % blockSize)).length =
                  buffer.length - (blockSize - off % blockSize) := List.length_drop
              rcases hstored (buffer.take (blockSize - off % blockSize)) (by omega) (by omega)
                with ⟨hw₂, hl₂, href⟩
              have hoff₂ := hw₂.offset
              rw [htake] at hoff₂
              rw [← hdrop] at hplan
              have hne : buffer.drop (blockSize - off % blockSize) ≠ [] := by
                rw [← List.length_pos_iff, hdrop]
                omega
              rcases ih hl₂ hoff₂ hblock' (by omega) hnext hne (Or.inl haligned)
                (by rw [Nat.add_assoc, ← hplan]; exact hstop) ((hdealt.safe hslot).congr href rfl)
                (written + (blockSize - off % blockSize)) with ⟨count, fs', heval, hended⟩
              refine ⟨(blockSize - off % blockSize) + count, fs', ?_, ?_⟩
              · rw [writeLoop_step hblock hoff₁ hnext hbuf, heval, hplan, Nat.add_assoc]
                simp only [Nat.add_left_cancel_iff]
              · rw [hplan]
                exact hdealt.ended_next hslot href rfl hw₂ htake (by omega) hended
          | final hstop' hfit hplan =>
              rcases hstored buffer hfit hlen with ⟨hw₂, hl₂, href⟩
              refine ⟨buffer.length, fs₁.put h n b buffer, ?_, ?_⟩
              · rw [writeLoop_last hblock hoff₁ hfit, hplan, if_pos rfl]
              · rw [hplan]
                refine hdealt.ended hslot href rfl hstop' ?_ hl₂ hlen
                rwa [List.take_length]
          | short hstop' hend hleft' haligned hlong hplan =>
              subst hleft'
              have htake : (buffer.take blockSize).length = blockSize :=
                List.length_take_of_le hlong.le
              rcases hstored (buffer.take blockSize) (by omega) (by omega) with ⟨hw₂, hl₂, href⟩
              refine ⟨blockSize, fs₁.put h n b (buffer.take blockSize), ?_, ?_⟩
              · rw [writeLoop_short hblock hoff₁ haligned hend hlong, hplan, if_pos rfl]
              · rw [hplan]
                exact hdealt.ended hslot href rfl hstop' hw₂ hl₂ (by decide)

/-! ## The call -/

/-- A write through a handle of the file `n` is the loop from the block of the offset on. -/
theorem tfsWrite_loop (hn : (fs.openFileTable h).ofInumber = ((n : Nat) : Int))
    (hoff : (fs.openFileTable h).ofOffset = off) (hbuffer : buffer ≠ []) :
    (tfsWrite ((h : Nat) : Int) buffer).eval fs =
      (writeLoop h n (endBlock off buffer.length)
        (endBlock off buffer.length - off / blockSize) (off / blockSize) buffer 0).eval fs := by
  have hhandle : getOpenFileEntry ((h : Nat) : Int) = some h := index?_natCast h
  have hinode : inodeGet ((n : Nat) : Int) = some n := index?_natCast n
  have hlen : buffer.length ≠ 0 := by simpa using hbuffer
  rw [tfsWrite, hhandle]
  simp only [bind_eq, eval_lock, eval_read, hn, hinode]
  rw [if_neg hlen, eval_read, hoff]

/-- A write of no bytes. -/
theorem tfsWrite_empty (hn : (fs.openFileTable h).ofInumber = ((n : Nat) : Int)) :
    (tfsWrite ((h : Nat) : Int) []).eval fs = some (0, fs) := by
  have hhandle : getOpenFileEntry ((h : Nat) : Int) = some h := index?_natCast h
  have hinode : inodeGet ((n : Nat) : Int) = some n := index?_natCast n
  rw [tfsWrite, hhandle]
  simp only [bind_eq, pure_eq, eval_lock, eval_read, hn, hinode]
  rfl

/-- `tfs_write` through a handle of a file, where no iteration copies past the end of its
block and the file stays within its largest size: it returns how many bytes it copied, or -1
where it ran out of blocks on the way. -/
theorem tfsWrite_eval (hl : FileLayout fs n)
    (hn : (fs.openFileTable h).ofInumber = ((n : Nat) : Int))
    (hoff : (fs.openFileTable h).ofOffset = off) (hbuffer : buffer ≠ [])
    (hword : off + buffer.length < wordSize) (hfits : Fits off buffer.length)
    (hmax : off + planned off buffer.length ≤ maxFileBlocks * blockSize)
    (hsafe : SafeTable fs n (off / blockSize) (stopBlock (off + planned off buffer.length))) :
    ∃ count fs', (tfsWrite ((h : Nat) : Int) buffer).eval fs =
        some (if count = planned off buffer.length then (count : Int) else -1, fs') ∧
      Ended h n off (off / blockSize) (stopBlock (off + planned off buffer.length))
        (planned off buffer.length) buffer count fs fs' := by
  have hlen : 0 < buffer.length := List.length_pos_iff.mpr hbuffer
  have hlast := endBlock_eq hword
  have hfirst : off / blockSize < endBlock off buffer.length ∧
      (off % blockSize = 0 ∨ off / blockSize + 1 < endBlock off buffer.length ∨
        off + buffer.length ≤ endBlock off buffer.length * blockSize) := by
    rw [hlast]
    simp only [Fits, blockSize] at hfits ⊢
    split <;> omega
  have hstop : stopBlock (off + planned off buffer.length) ≤ maxFileBlocks := by
    simp only [stopBlock, maxFileBlocks, maxDirectBlocks, tableSize, blockSize] at hmax ⊢
    omega
  rcases writeLoop_eval hl hoff rfl (Nat.sub_add_cancel hfirst.1.le) hfirst.1 hbuffer hfirst.2
    rfl hstop hsafe 0 with ⟨count, fs', heval, hended⟩
  refine ⟨count, fs', ?_, hended⟩
  have hle := hended.le
  have hcount : wordToInt (0 + count) = (count : Int) := by
    rw [Nat.zero_add]
    refine wordToInt_of_lt ?_
    simp only [planned, maxFileBlocks, maxDirectBlocks, tableSize, blockSize, wordSize] at hmax hle ⊢
    omega
  rw [tfsWrite_loop hn hoff hbuffer, heval, hcount]
  rfl

end TecnicoFS.Part1
