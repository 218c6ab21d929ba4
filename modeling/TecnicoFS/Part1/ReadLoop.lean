import TecnicoFS.Part1.Runs

/-!
# Part 1: the loop of `tfs_read`

The loop copies one block after the other, with the arithmetic of the write loop: the number of
the last block can be one too small. Then the read stops early, or, with a length of one block,
copies past the end of its block. Where it does neither, it delivers the bytes of the file if all
blocks are there (`readLoop_eval`).
-/

namespace TecnicoFS.Part1

open Threads Threads.Prog
open Part2 (blockSize dataBlocks inodeTableSize maxOpenFiles blockAddr dataBlockGet
  getOpenFileEntry inodeGet)

variable {fs fs' : FS} {n : Fin inodeTableSize} {h : Fin maxOpenFiles} {off : Nat}
  {b : Fin dataBlocks} {bytes : List UInt8}

namespace FS

/-- Only the offset of a handle changes. -/
def seek (fs : FS) (h : Fin maxOpenFiles) (offset : Nat) : FS :=
  fs.setHandle h { fs.openFileTable h with ofOffset := offset }

/-- The bytes of a file from a position on. -/
def fileBytes (fs : FS) (n : Fin inodeTableSize) (off count : Nat) : List (Option UInt8) :=
  (List.range' off count).map (fs.fileByte n)

@[simp] theorem seek_offset (fs : FS) (h : Fin maxOpenFiles) (offset : Nat) :
    ((fs.seek h offset).openFileTable h).ofOffset = offset := by
  simp [seek]

@[simp] theorem seek_seek (fs : FS) (h : Fin maxOpenFiles) (offset offset' : Nat) :
    (fs.seek h offset).seek h offset' = fs.seek h offset' := by
  simp [seek, setHandle]

@[simp] theorem seek_self (fs : FS) (h : Fin maxOpenFiles) :
    fs.seek h (fs.openFileTable h).ofOffset = fs := by
  simp [seek, setHandle]

@[simp] theorem seek_fsData (fs : FS) (h : Fin maxOpenFiles) (offset : Nat) :
    (fs.seek h offset).fsData = fs.fsData := rfl

@[simp] theorem seek_blockAt (fs : FS) (h : Fin maxOpenFiles) (offset : Nat) :
    (fs.seek h offset).blockAt n = fs.blockAt n := rfl

@[simp] theorem seek_fileBytes (fs : FS) (h : Fin maxOpenFiles) (offset : Nat) :
    (fs.seek h offset).fileBytes n = fs.fileBytes n := rfl

@[simp] theorem length_fileBytes (fs : FS) (n : Fin inodeTableSize) (off count : Nat) :
    (fs.fileBytes n off count).length = count := by
  simp [fileBytes]

theorem fileBytes_add (fs : FS) (n : Fin inodeTableSize) (off k l : Nat) :
    fs.fileBytes n off (k + l) = fs.fileBytes n off k ++ fs.fileBytes n (off + k) l := by
  rw [fileBytes, fileBytes, fileBytes, ← List.map_append, List.range'_append_1]

end FS

/-- The bytes of a file inside one of its blocks. -/
theorem load_block {count : Nat} (hb : fs.blockAt n (off / blockSize) = some b)
    (hfit : off % blockSize + count ≤ blockSize) :
    (Memory.load fs.fsData (blockAddr b + off % blockSize) count).map some =
      fs.fileBytes n off count := by
  apply List.ext_getElem?
  intro k
  rw [List.getElem?_map, Memory.getElem?_load, FS.fileBytes, List.getElem?_map]
  by_cases hk : k < count
  · have hcell : (off + k) / blockSize = off / blockSize ∧
        (off + k) % blockSize = off % blockSize + k := by
      simp only [blockSize] at hfit ⊢
      omega
    rw [if_pos hk, List.getElem?_range' hk, Option.map_some, Option.map_some, Nat.one_mul,
      FS.fileByte, hcell.1, hcell.2, hb, Option.map_some, Nat.add_assoc]
  · rw [if_neg hk, List.getElem?_eq_none (by rw [List.length_range']; omega)]
    rfl

/-- A part of the contents. -/
theorem contents_part (len : Nat) : ((fs.contents n).drop off).take len =
    fs.fileBytes n off (min ((fs.inodeTable n).iSize - off) len) := by
  rw [FS.contents, FS.fileBytes, ← List.map_drop, ← List.map_take, List.range_eq_range',
    List.drop_range', Nat.mul_one, Nat.zero_add]
  rcases Nat.le_total ((fs.inodeTable n).iSize - off) len with hle | hle
  · rw [List.take_range'_of_length_le hle, Nat.min_eq_left hle]
  · rw [List.take_range'_of_length_ge hle, Nat.min_eq_right hle]

/-! ## One block -/

/-- A read finds the blocks of the block map. -/
theorem readBlock_eval {i : Nat} (hi : i < maxFileBlocks) :
    (readBlock n i).eval fs = some (fs.blockAt n i, fs) := by
  rw [readBlock]
  split
  · next hdirect =>
      rw [FS.blockAt, slot_of_ref (blockRef_direct hdirect)]
      rfl
  · next hdirect =>
      rcases blockRef_entry (by omega) hi with ⟨k, hk, hplace⟩
      simp only [bind_eq, pure_eq, eval_read]
      rw [FS.blockAt, slot_of_ref hplace, FS.ref]
      cases dataBlockGet (fs.inodeTable n).iIndirectDataBlock with
      | none => exact congrArg (fun block => some (block, fs)) dataBlockGet_absent.symm
      | some t =>
          have ht := t.isLt
          have hlt := k.isLt
          have haddr : slotAddr t i = some (tableAddr t k) := by
            rw [slotAddr, ← hk, if_pos]
            · rfl
            · simp only [blockAddr, fsDataSize, dataBlocks, tableSize, blockSize] at ht hlt ⊢
              omega
          simp only [haddr]
          rfl

theorem inside_block {count : Nat} (hfit : off % blockSize + count ≤ blockSize) :
    blockAddr b + off % blockSize + count ≤ fsDataSize := by
  have hb := b.isLt
  simp only [blockAddr, fsDataSize, blockSize, dataBlocks] at hb hfit ⊢
  omega

theorem copyOut_eval {α : Type} {k : List UInt8 → Op α} {count : Nat}
    (hoff : (fs.openFileTable h).ofOffset = off)
    (hin : blockAddr b + off % blockSize + count ≤ fsDataSize) :
    ((copyOut h b off count).bind k).eval fs =
      (k (Memory.load fs.fsData (blockAddr b + off % blockSize) count)).eval
        (fs.seek h (wordAdd off count)) := by
  rw [copyOut, if_pos hin, FS.seek, ← hoff]
  rfl

theorem copyOut_crash {α : Type} {k : List UInt8 → Op α} {count : Nat}
    (hin : ¬ blockAddr b + off % blockSize + count ≤ fsDataSize) :
    ((copyOut h b off count).bind k).eval fs = none := by
  rw [copyOut, if_neg hin]
  rfl

/-! ## One iteration -/

section

variable {last left i toRead : Nat} (hoff : (fs.openFileTable h).ofOffset = off)
  (hblock : (readBlock n i).eval fs = some (some b, fs))

include hoff hblock

/-- An iteration that does not copy the last bytes goes up to the next block boundary. -/
theorem readLoop_step (hnext : i + 1 < last) (hmore : blockSize - off % blockSize < toRead) :
    (readLoop h n last (left + 1) i toRead bytes).eval fs =
      (readLoop h n last left (i + 1) (toRead - (blockSize - off % blockSize))
        (bytes ++ Memory.load fs.fsData (blockAddr b + off % blockSize)
          (blockSize - off % blockSize))).eval
        (fs.seek h (wordAdd off (blockSize - off % blockSize))) := by
  have hrest := Nat.mod_lt off (show 0 < blockSize by decide)
  rw [readLoop, bind_eq, eval_bind, hblock, Option.bind_some]
  simp only [bind_eq, eval_read, hoff]
  rw [if_pos ⟨hnext, hmore⟩]
  exact copyOut_eval hoff (inside_block (by omega))

/-- The iteration that copies the last bytes, perhaps past the end of its block. -/
theorem readLoop_last (hend : ¬ (i + 1 < last ∧ blockSize - off % blockSize < toRead))
    (hle : toRead ≤ blockSize) :
    (readLoop h n last (left + 1) i toRead bytes).eval fs =
      if blockAddr b + off % blockSize + toRead ≤ fsDataSize then
        some ((wordToInt (bytes ++ Memory.load fs.fsData (blockAddr b + off % blockSize)
            toRead).length,
          bytes ++ Memory.load fs.fsData (blockAddr b + off % blockSize) toRead),
            fs.seek h (wordAdd off toRead))
      else none := by
  rw [readLoop, bind_eq, eval_bind, hblock, Option.bind_some]
  simp only [bind_eq, eval_read, hoff]
  rw [if_neg hend, if_pos hle]
  split
  · next hin => exact copyOut_eval hoff hin
  · next hin => exact copyOut_crash hin

/-- The iteration after which the loop stops early, perhaps past the end of its block. -/
theorem readLoop_short (hlast : ¬ i + 1 < last) (hlong : blockSize < toRead)
    (hin : blockAddr b + off % blockSize + blockSize ≤ fsDataSize) :
    (readLoop h n last 1 i toRead bytes).eval fs =
      some ((wordToInt (bytes ++ Memory.load fs.fsData (blockAddr b + off % blockSize)
          blockSize).length,
        bytes ++ Memory.load fs.fsData (blockAddr b + off % blockSize) blockSize),
          fs.seek h (wordAdd off blockSize)) := by
  rw [readLoop, bind_eq, eval_bind, hblock, Option.bind_some]
  simp only [bind_eq, eval_read, hoff]
  rw [if_neg (by omega), if_neg (by omega)]
  exact copyOut_eval hoff hin

end

theorem copyOut_length {count offset : Nat} {more : List UInt8}
    (heval : (copyOut h b offset count).eval fs = some (more, fs')) : more.length = count := by
  rw [copyOut] at heval
  split at heval
  · cases heval
    exact Memory.length_load
  · cases heval

/-! ## The loop -/

/-- How the loop ends from block `i` on, with `count` bytes to deliver: with these bytes if all
blocks below `stop` are there, and with -1 otherwise. -/
inductive Delivered (fs : FS) (h : Fin maxOpenFiles) (n : Fin inodeTableSize)
    (off count i stop : Nat) (bytes : List UInt8) : Int × List UInt8 → FS → Prop
  | all {more : List UInt8} : (∀ j, i ≤ j → j < stop → fs.blockAt n j ≠ none) →
      more.map some = fs.fileBytes n off count → Delivered fs h n off count i stop bytes
        (wordToInt (bytes ++ more).length, bytes ++ more) (fs.seek h (off + count))
  | missing {j : Nat} {out : List UInt8} {fs' : FS} : i ≤ j → j < stop →
      fs.blockAt n j = none → Delivered fs h n off count i stop bytes (-1, out) fs'

/-- The bytes of one block, then the rest. -/
theorem Delivered.next {i stop k count : Nat} {more : List UInt8} {r : Int × List UInt8}
    (hb : fs.blockAt n i = some b) (hmore : more.map some = fs.fileBytes n off k)
    (hd : Delivered (fs.seek h (off + k)) h n (off + k) count (i + 1) stop (bytes ++ more) r fs') :
    Delivered fs h n off (k + count) i stop bytes r fs' := by
  cases hd with
  | @all more' hblocks hbytes =>
      rw [FS.seek_seek, Nat.add_assoc, List.append_assoc]
      refine .all (fun j hij hj => ?_) ?_
      · rcases Nat.eq_or_lt_of_le hij with rfl | hlt
        · rw [hb]
          simp
        · exact hblocks j hlt hj
      · rw [List.map_append, hmore, hbytes, FS.seek_fileBytes, FS.fileBytes_add]
  | missing hij hj hnone => exact .missing (by omega) hj hnone

/-- The loop, by induction on the iterations that are left. The offset is inside block `i`, and
from the second iteration on it is aligned. -/
theorem readLoop_eval {last left i stop toRead : Nat}
    (hoff : (fs.openFileTable h).ofOffset = off) (hi : off / blockSize = i)
    (hleft : left + i = last) (hlast : i < last) (hread : 0 < toRead)
    (hgood : off % blockSize = 0 ∨ i + 1 < last ∨ off + toRead ≤ last * blockSize)
    (hstop : stopBlock (off + plannedTo last off toRead) = stop) (hmax : stop ≤ maxFileBlocks) :
    ∃ r fs', (readLoop h n last left i toRead bytes).eval fs = some (r, fs') ∧
      Delivered fs h n off (plannedTo last off toRead) i stop bytes r fs' := by
  induction left generalizing i fs off toRead bytes with
  | zero => omega
  | succ left ih =>
      rcases iteration_cases hi (by omega) hlast hread hgood hstop with ⟨histop, -, hcases⟩
      have hrest := Nat.mod_lt off (show 0 < blockSize by decide)
      have hword : off + blockSize < wordSize := by
        simp only [maxFileBlocks, maxDirectBlocks, tableSize, blockSize, wordSize] at hmax hi ⊢
        omega
      have hblock : (readBlock n i).eval fs = some (fs.blockAt n i, fs) :=
        readBlock_eval (lt_of_lt_of_le histop hmax)
      cases hb : fs.blockAt n i with
      | none =>
          rw [hb] at hblock
          refine ⟨(-1, bytes), fs, ?_, .missing (le_refl i) histop hb⟩
          rw [readLoop, bind_eq, eval_bind, hblock]
          rfl
      | some b =>
          rw [hb] at hblock
          have hpart : ∀ count, off % blockSize + count ≤ blockSize →
              (Memory.load fs.fsData (blockAddr b + off % blockSize) count).map some =
                fs.fileBytes n off count := fun count hfit => load_block (hi ▸ hb) hfit
          -- the only block that is left is there
          have honly : stop = i + 1 → ∀ j, i ≤ j → j < stop → fs.blockAt n j ≠ none := by
            intro hstop' j hij hj
            have hji : j = i := by omega
            rw [hji, hb]
            simp
          cases hcases with
          | next hnext hmore haligned hnumber hplan =>
              have hfit : off % blockSize + (blockSize - off % blockSize) ≤ blockSize := by omega
              rw [readLoop_step hoff hblock hnext hmore, wordAdd_of_lt (by omega)]
              have hread' : 0 < toRead - (blockSize - off % blockSize) := by omega
              rcases ih (FS.seek_offset _ _ _) hnumber (by omega) hnext hread'
                (Or.inl haligned) (by rw [Nat.add_assoc, ← hplan]; exact hstop) with
                ⟨r, fs', heval, hdelivered⟩
              refine ⟨r, fs', heval, ?_⟩
              rw [hplan]
              exact Delivered.next hb (hpart _ hfit) hdelivered
          | final hstop' hfit hplan =>
              rw [readLoop_last hoff hblock (by omega) (by omega), if_pos (inside_block hfit),
                wordAdd_of_lt (by omega), hplan]
              exact ⟨_, _, rfl, .all (honly hstop') (hpart _ hfit)⟩
          | short hstop' hend hleft' haligned hlong hplan =>
              subst hleft'
              have hfit : off % blockSize + blockSize ≤ blockSize := by omega
              rw [readLoop_short hoff hblock hend hlong (inside_block hfit),
                wordAdd_of_lt (by omega), hplan]
              exact ⟨_, _, rfl, .all (honly hstop') (hpart _ hfit)⟩

/-- A loop that is entered fails or delivers something. -/
theorem readLoop_delivers {last left i toRead : Nat} {r : Int × List UInt8} (hread : 0 < toRead)
    (heval : (readLoop h n last left i toRead bytes).eval fs = some (r, fs')) :
    r.1 = -1 ∨ bytes.length ≤ r.2.length ∧ (0 < left → bytes.length < r.2.length) := by
  induction left generalizing i fs toRead bytes with
  | zero =>
      cases heval
      exact Or.inr ⟨le_refl _, fun hlt => absurd hlt (lt_irrefl 0)⟩
  | succ left ih =>
      rw [readLoop, bind_eq, eval_bind] at heval
      rcases Option.bind_eq_some_iff.mp heval with ⟨⟨block, fs₁⟩, -, heval⟩
      cases block with
      | none =>
          cases heval
          exact Or.inl rfl
      | some b =>
          simp only [bind_eq, eval_read] at heval
          -- what one iteration adds
          have hcopied : ∀ {more fs₂ count}, 0 < count →
              (copyOut h b (fs₁.openFileTable h).ofOffset count).eval fs₁ = some (more, fs₂) →
              bytes.length < (bytes ++ more).length := by
            intro more fs₂ count hcount hcopy
            rw [List.length_append, copyOut_length hcopy]
            omega
          split at heval
          · next hcond =>
              have hrest := Nat.mod_lt (fs₁.openFileTable h).ofOffset (show 0 < blockSize by decide)
              rw [eval_bind] at heval
              rcases Option.bind_eq_some_iff.mp heval with ⟨⟨more, fs₂⟩, hcopy, heval⟩
              have hlonger := hcopied (by omega) hcopy
              refine (ih (by omega) heval).imp id fun hle => ?_
              exact ⟨hlonger.le.trans hle.1, fun _ => lt_of_lt_of_le hlonger hle.1⟩
          · split at heval
            · rw [eval_bind] at heval
              rcases Option.bind_eq_some_iff.mp heval with ⟨⟨more, fs₂⟩, hcopy, heval⟩
              cases heval
              have hlonger := hcopied hread hcopy
              exact Or.inr ⟨hlonger.le, fun _ => hlonger⟩
            · rw [eval_bind] at heval
              rcases Option.bind_eq_some_iff.mp heval with ⟨⟨more, fs₂⟩, hcopy, heval⟩
              have hlonger := hcopied (by decide) hcopy
              refine (ih (by omega) heval).imp id fun hle => ?_
              exact ⟨hlonger.le.trans hle.1, fun _ => lt_of_lt_of_le hlonger hle.1⟩

/-! ## The call -/

/-- How many bytes a read is about to deliver: the bytes up to the size of the file, or all that
are asked for where the offset lies past it. -/
def FS.toRead (fs : FS) (h : Fin maxOpenFiles) (n : Fin inodeTableSize) (len : Nat) : Nat :=
  min (wordSub (fs.inodeTable n).iSize (fs.openFileTable h).ofOffset) len

/-- A read through a handle of the file `n` is the loop from the block of the offset on. -/
theorem tfsRead_loop {len : Nat} (hn : (fs.openFileTable h).ofInumber = ((n : Nat) : Int)) :
    (tfsRead ((h : Nat) : Int) len).eval fs =
      if fs.toRead h n len = 0 then some ((0, []), fs)
      else
        (readLoop h n (endBlock (fs.openFileTable h).ofOffset (fs.toRead h n len))
          (endBlock (fs.openFileTable h).ofOffset (fs.toRead h n len) -
            (fs.openFileTable h).ofOffset / blockSize)
          ((fs.openFileTable h).ofOffset / blockSize) (fs.toRead h n len) []).eval fs := by
  have hhandle : getOpenFileEntry ((h : Nat) : Int) = some h := index?_natCast h
  have hinode : inodeGet ((n : Nat) : Int) = some n := index?_natCast n
  rw [tfsRead, hhandle]
  simp only [bind_eq, eval_lock, eval_read, hn, hinode]
  rw [FS.toRead]
  split <;> rfl

end TecnicoFS.Part1
