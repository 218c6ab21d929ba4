import TecnicoFS.Part1.FileRead

/-!
# Part 1: `tfs_copy_to_external_fs`

A file is copied to a file outside: `tfs_read` of one block at a time, and `fwrite` of what it
delivered, until less than a block comes. `Outside` says how the calls outside the file system
end. The loop is given the number of iterations that it may take and answers `none` where that is
not enough.

All its reads start at a block boundary, so each delivers the rest of the file or a whole block of
it (`tfsRead_aligned`), and the copy is exact wherever the blocks of the file are there.
-/

namespace TecnicoFS.Part1

open Threads Threads.Prog
open Part2 (Call Ret hasFlag tfsOTrunc validPathname blockSize dataBlocks inodeTableSize
  maxOpenFiles blockAddr dataBlockGet getOpenFileEntry inodeGet)

/-! ## The program -/

/-- How the calls outside the file system end: whether `fopen` and `malloc` succeed and how many
bytes each `fwrite` takes at most. -/
structure Outside where
  fopen : Bool
  malloc : Bool
  fwrite : Nat → Nat

/-- The loop of `tfs_copy_to_external_fs`, before its iteration `call`: whether all was copied,
and the bytes that `fwrite` took. -/
def copyLoop (env : Outside) (sourceHandle : Int) : (fuel call : Nat) → (copied : List UInt8) →
    Op (Option (Bool × List UInt8))
  | 0, _, _ => pure none
  | fuel + 1, call, copied => do
      let (bytesRead, bytes) ← tfsRead sourceHandle blockSize
      if bytesRead = -1 then pure (some (false, copied))
      else
        let buffer := bytes ++ List.replicate (blockSize - bytes.length) 0
        let bytesToBeWritten := (bytesRead % wordSize).toNat
        let bytesWritten := min bytesToBeWritten (env.fwrite call)
        let copied := copied ++ buffer.take bytesWritten
        if bytesWritten ≠ bytesToBeWritten then pure (some (false, copied))
        else if bytesRead = blockSize then copyLoop env sourceHandle fuel (call + 1) copied
        else pure (some (true, copied))

/-- `tfs_copy_to_external_fs`: the returned value and the bytes in the file outside. -/
def tfsCopyToExternalFs (env : Outside) (sourcePath : CString) (fuel : Nat) :
    Op (Option (Int × List UInt8)) := do
  let sourceHandle ← tfsOpen sourcePath 0
  if sourceHandle = -1 then pure (some (-1, []))
  else
    match getOpenFileEntry sourceHandle with
    | none => pure (some (-1, []))
    | some h => do
        let sourceInum ← read fun fs => (fs.openFileTable h).ofInumber
        match inodeGet sourceInum with
        | none => pure (some (-1, []))
        | some _ =>
            if env.fopen then
              if env.malloc then do
                let outcome ← copyLoop env sourceHandle fuel 0 []
                match outcome with
                | none => pure none
                | some (false, copied) => pure (some (-1, copied))
                | some (true, copied) => do
                    let r ← tfsClose sourceHandle
                    if r = -1 then pure (some (-1, copied)) else pure (some (0, copied))
              else pure (some (-1, []))
            else pure (some (-1, []))

variable {fs fs' : FS} {n : Fin inodeTableSize} {h : Fin maxOpenFiles} {i : Nat}
  {b : Fin dataBlocks} {env : Outside} {name : CString}

/-! ## A read of one block from a block boundary -/

/-- How many bytes of the file are in block `i`. -/
def FS.inBlock (fs : FS) (n : Fin inodeTableSize) (i : Nat) : Nat :=
  min ((fs.inodeTable n).iSize - i * blockSize) blockSize

/-- Looking for a block changes nothing. -/
theorem readBlock_state {block : Option (Fin dataBlocks)}
    (heval : (readBlock n i).eval fs = some (block, fs')) : fs' = fs :=
  (readBlock_keeps (I := fun s => s = fs) (g := .openFilesMutex) i).eval rfl heval

theorem inBlock_le : fs.inBlock n i ≤ (fs.inodeTable n).iSize - i * blockSize ∧
    fs.inBlock n i ≤ blockSize := ⟨Nat.min_le_left .., Nat.min_le_right ..⟩

theorem endBlock_aligned {count : Nat} (hpos : 0 < count) (hle : count ≤ blockSize)
    (hword : i * blockSize + count < wordSize) : endBlock (i * blockSize) count = i + 1 := by
  rw [endBlock_eq hword]
  simp only [blockSize] at hle ⊢
  split <;> omega

section

variable (hn : (fs.openFileTable h).ofInumber = ((n : Nat) : Int))
  (hoff : (fs.openFileTable h).ofOffset = i * blockSize)
  (hle : i * blockSize ≤ (fs.inodeTable n).iSize) (hsize : (fs.inodeTable n).iSize < wordSize)

include hn hoff hle hsize

/-- At the end of the file there is nothing to read. -/
theorem tfsRead_end (hend : fs.inBlock n i = 0) :
    (tfsRead ((h : Nat) : Int) blockSize).eval fs = some ((0, []), fs) := by
  have hread : fs.toRead h n blockSize = 0 := by
    rw [FS.toRead, hoff, wordSub_of_le hle hsize]
    exact hend
  rw [tfsRead_loop hn, if_pos hread]

/-- Before it the loop makes one iteration. -/
theorem tfsRead_aligned (hpos : 0 < fs.inBlock n i) :
    (tfsRead ((h : Nat) : Int) blockSize).eval fs =
      (readLoop h n (i + 1) 1 i (fs.inBlock n i) []).eval fs := by
  have hread : fs.toRead h n blockSize = fs.inBlock n i := by
    rw [FS.toRead, hoff, wordSub_of_le hle hsize]
    rfl
  have hfirst : i * blockSize / blockSize = i := Nat.mul_div_cancel i (by decide)
  rcases @inBlock_le fs n i with ⟨hrest, hblock⟩
  have hlast : endBlock (i * blockSize) (fs.inBlock n i) = i + 1 :=
    endBlock_aligned hpos hblock (by omega)
  rw [tfsRead_loop hn, hread, if_neg hpos.ne', hoff, hfirst, hlast, Nat.add_sub_cancel_left]

theorem tfsRead_missing (hpos : 0 < fs.inBlock n i)
    (hblock : (readBlock n i).eval fs = some (none, fs)) :
    (tfsRead ((h : Nat) : Int) blockSize).eval fs = some ((-1, []), fs) := by
  rw [tfsRead_aligned hn hoff hle hsize hpos, readLoop, bind_eq, eval_bind, hblock]
  rfl

theorem tfsRead_block (hpos : 0 < fs.inBlock n i)
    (hblock : (readBlock n i).eval fs = some (some b, fs)) :
    (tfsRead ((h : Nat) : Int) blockSize).eval fs =
      some (((fs.inBlock n i : Int), Memory.load fs.fsData (blockAddr b) (fs.inBlock n i)),
        fs.seek h (i * blockSize + fs.inBlock n i)) := by
  rcases @inBlock_le fs n i with ⟨hrest, hle'⟩
  have hmod : i * blockSize % blockSize = 0 := Nat.mul_mod_left i blockSize
  have hvalue : wordToInt (fs.inBlock n i) = fs.inBlock n i := by
    refine wordToInt_of_lt ?_
    simp only [blockSize, wordSize] at hle' ⊢
    omega
  rw [tfsRead_aligned hn hoff hle hsize hpos,
    readLoop_last hoff hblock (by omega) hle', if_pos (inside_block (by omega)),
    wordAdd_of_lt (by omega), hmod, List.nil_append, Memory.length_load, hvalue, Nat.add_zero]

end

/-! ## One iteration of the loop -/

/-- What an iteration does with the bytes that `tfs_read` delivered. -/
theorem copyLoop_read {fhandle : Int} {fuel call count : Nat} {copied bytes : List UInt8}
    (hread : (tfsRead fhandle blockSize).eval fs = some (((count : Int), bytes), fs'))
    (hlen : bytes.length = count) (hle : count ≤ blockSize) :
    (copyLoop env fhandle (fuel + 1) call copied).eval fs =
      if env.fwrite call < count then
        some (some (false, copied ++ bytes.take (env.fwrite call)), fs')
      else if count = blockSize then
        (copyLoop env fhandle fuel (call + 1) (copied ++ bytes)).eval fs'
      else some (some (true, copied ++ bytes), fs') := by
  have hvalue : ((count : Int) % wordSize).toNat = count := by
    simp only [blockSize, wordSize] at hle ⊢
    omega
  have hminus : ¬ (count : Int) = -1 := by omega
  have hwhole : (count : Int) = (blockSize : Int) ↔ count = blockSize := Nat.cast_inj
  -- the zeros behind the bytes are not written
  have hbuffer : ∀ zeros : List UInt8, ∀ k ≤ count, (bytes ++ zeros).take k = bytes.take k :=
    fun zeros k hk => List.take_append_of_le_length (hlen ▸ hk)
  rw [copyLoop, bind_eq, eval_bind, hread, Option.bind_some]
  simp only [hvalue, if_neg hminus, hbuffer _ _ (Nat.min_le_left ..), hwhole]
  by_cases hshort : env.fwrite call < count
  · rw [if_pos hshort, Nat.min_eq_right hshort.le, if_pos hshort.ne]
    rfl
  · rw [if_neg hshort, Nat.min_eq_left (not_lt.mp hshort), if_neg (not_not.mpr rfl),
      List.take_of_length_le hlen.le]
    split <;> rfl

section

variable (hn : (fs.openFileTable h).ofInumber = ((n : Nat) : Int))
  (hoff : (fs.openFileTable h).ofOffset = i * blockSize)
  (hle : i * blockSize ≤ (fs.inodeTable n).iSize) (hsize : (fs.inodeTable n).iSize < wordSize)
  {fuel call : Nat} {copied : List UInt8}

include hn hoff hle hsize

theorem copyLoop_end (hend : fs.inBlock n i = 0) :
    (copyLoop env ((h : Nat) : Int) (fuel + 1) call copied).eval fs =
      some (some (true, copied), fs) := by
  rw [copyLoop_read (tfsRead_end hn hoff hle hsize hend) rfl (Nat.zero_le _),
    if_neg (Nat.not_lt_zero _), if_neg (by decide), List.append_nil]

theorem copyLoop_missing (hpos : 0 < fs.inBlock n i)
    (hblock : (readBlock n i).eval fs = some (none, fs)) :
    (copyLoop env ((h : Nat) : Int) (fuel + 1) call copied).eval fs =
      some (some (false, copied), fs) := by
  rw [copyLoop, bind_eq, eval_bind, tfsRead_missing hn hoff hle hsize hpos hblock]
  rfl

/-- An iteration that finds its block copies it as far as `fwrite` takes it, and the loop goes on
after a whole block. -/
theorem copyLoop_block (hpos : 0 < fs.inBlock n i)
    (hblock : (readBlock n i).eval fs = some (some b, fs)) :
    (copyLoop env ((h : Nat) : Int) (fuel + 1) call copied).eval fs =
      if env.fwrite call < fs.inBlock n i then
        some (some (false, copied ++ Memory.load fs.fsData (blockAddr b) (env.fwrite call)),
          fs.seek h (i * blockSize + fs.inBlock n i))
      else if fs.inBlock n i = blockSize then
        (copyLoop env ((h : Nat) : Int) fuel (call + 1)
          (copied ++ Memory.load fs.fsData (blockAddr b) (fs.inBlock n i))).eval
            (fs.seek h (i * blockSize + fs.inBlock n i))
      else
        some (some (true, copied ++ Memory.load fs.fsData (blockAddr b) (fs.inBlock n i)),
          fs.seek h (i * blockSize + fs.inBlock n i)) := by
  rcases @inBlock_le fs n i with ⟨-, hle'⟩
  rw [copyLoop_read (tfsRead_block hn hoff hle hsize hpos hblock) Memory.length_load hle']
  split
  · next hshort => rw [Memory.take_load hshort.le]
  · rfl

end

/-- After a whole block the loop is at the next one. -/
theorem seek_next (hn : (fs.openFileTable h).ofInumber = ((n : Nat) : Int))
    (hle : i * blockSize ≤ (fs.inodeTable n).iSize) (hwhole : fs.inBlock n i = blockSize) :
    i * blockSize + blockSize = (i + 1) * blockSize ∧
      (i + 1) * blockSize ≤ (fs.inodeTable n).iSize ∧
        ((fs.seek h ((i + 1) * blockSize)).openFileTable h).ofInumber = ((n : Nat) : Int) := by
  have hnext : i * blockSize + blockSize = (i + 1) * blockSize := by ring
  refine ⟨hnext, ?_, ?_⟩
  · have hrest := (@inBlock_le fs n i).1
    rw [hwhole] at hrest
    rw [← hnext]
    exact Nat.add_le_of_le_sub' hle hrest
  · rw [← hn]
    simp [FS.seek]

/-- The loop copies the rest of a file whose blocks are all there. -/
theorem copyLoop_all {fuel call : Nat} {copied : List UInt8}
    (hfwrite : ∀ call, blockSize ≤ env.fwrite call)
    (hn : (fs.openFileTable h).ofInumber = ((n : Nat) : Int))
    (hoff : (fs.openFileTable h).ofOffset = i * blockSize)
    (hle : i * blockSize ≤ (fs.inodeTable n).iSize) (hmax : (fs.inodeTable n).iSize ≤ maxFileSize)
    (hblocks : ∀ j, j < stopBlock (fs.inodeTable n).iSize → fs.blockAt n j ≠ none)
    (hfuel : (fs.inodeTable n).iSize < (i + fuel) * blockSize) :
    ∃ bytes : List UInt8, (copyLoop env ((h : Nat) : Int) fuel call copied).eval fs =
        some (some (true, copied ++ bytes), fs.seek h (fs.inodeTable n).iSize) ∧
      bytes.map some = fs.fileBytes n (i * blockSize) ((fs.inodeTable n).iSize - i * blockSize) := by
  induction fuel generalizing i fs call copied with
  | zero =>
      rw [Nat.add_zero] at hfuel
      omega
  | succ fuel ih =>
      have hsize : (fs.inodeTable n).iSize < wordSize := by
        simp only [maxFileSize, maxFileBlocks, maxDirectBlocks, tableSize, blockSize] at hmax
        simp only [wordSize]
        omega
      -- a file of whole blocks ends with a read of nothing
      by_cases hend : fs.inBlock n i = 0
      · have hrest : (fs.inodeTable n).iSize = i * blockSize := by
          simp only [FS.inBlock, blockSize] at hend hle ⊢
          omega
        refine ⟨[], ?_, ?_⟩
        · rw [copyLoop_end hn hoff hle hsize hend, List.append_nil, hrest, ← hoff, FS.seek_self]
        · rw [hrest, Nat.sub_self]
          rfl
      · have hpos : 0 < fs.inBlock n i := Nat.pos_of_ne_zero hend
        rcases @inBlock_le fs n i with ⟨hrest, hle'⟩
        have hi : i < stopBlock (fs.inodeTable n).iSize := by
          simp only [stopBlock, blockSize] at hrest hpos ⊢
          omega
        obtain ⟨b, hb⟩ := Option.ne_none_iff_exists'.mp (hblocks i hi)
        have hblock : (readBlock n i).eval fs = some (some b, fs) := by
          rw [readBlock_eval, hb]
          simp only [maxFileSize, stopBlock, blockSize] at hmax hi ⊢
          omega
        -- the bytes delivered are those of the file
        have hbytes : (Memory.load fs.fsData (blockAddr b) (fs.inBlock n i)).map some =
            fs.fileBytes n (i * blockSize) (fs.inBlock n i) := by
          have hcell : i * blockSize / blockSize = i := Nat.mul_div_cancel i (by decide)
          have hmod : i * blockSize % blockSize = 0 := Nat.mul_mod_left i blockSize
          have hload : (Memory.load fs.fsData (blockAddr b + i * blockSize % blockSize)
              (fs.inBlock n i)).map some = fs.fileBytes n (i * blockSize) (fs.inBlock n i) :=
            load_block (by rw [hcell, hb]) (by rw [hmod, Nat.zero_add]; exact hle')
          rw [hmod, Nat.add_zero] at hload
          exact hload
        have htaken : ¬ env.fwrite call < fs.inBlock n i := not_lt.mpr (hle'.trans (hfwrite call))
        rw [copyLoop_block hn hoff hle hsize hpos hblock, if_neg htaken]
        by_cases hwhole : fs.inBlock n i = blockSize
        · rcases seek_next hn hle hwhole with ⟨hnext, hle₁, hn₁⟩
          rw [if_pos hwhole, hwhole, hnext]
          rw [hwhole] at hbytes
          have hfuel₁ : (fs.inodeTable n).iSize < (i + 1 + fuel) * blockSize := by
            rw [show i + 1 + fuel = i + (fuel + 1) by omega]
            exact hfuel
          rcases @ih _ _ (call + 1) (copied ++ Memory.load fs.fsData (blockAddr b) blockSize) hn₁
            (FS.seek_offset _ _ _) hle₁ hmax hblocks hfuel₁ with ⟨bytes, heval, hmore⟩
          refine ⟨Memory.load fs.fsData (blockAddr b) blockSize ++ bytes, ?_, ?_⟩
          · rw [heval, List.append_assoc, FS.seek_seek]
            rfl
          · have hsplit : (fs.inodeTable n).iSize - i * blockSize =
                blockSize + ((fs.inodeTable n).iSize - (i + 1) * blockSize) := by omega
            rw [List.map_append, hbytes, hmore, hsplit, FS.fileBytes_add, hnext]
            rfl
        · have hlast : fs.inBlock n i = (fs.inodeTable n).iSize - i * blockSize := by
            simp only [FS.inBlock] at hwhole ⊢
            omega
          rw [if_neg hwhole]
          refine ⟨_, ?_, hlast ▸ hbytes⟩
          rw [hlast, Nat.add_sub_cancel' hle]

/-! ## The call -/

/-- Opening a file that is there, with neither `TFS_O_TRUNC` nor a failure, gives out a handle. -/
theorem tfsOpen_found {flags : BitVec 32}
    (hlookup : (tfsLookup name).eval fs = some (((n : Nat) : Int), fs))
    (hflag : hasFlag flags tfsOTrunc = false) : (tfsOpen name flags).eval fs =
      (addToOpenFileTable ((n : Nat) : Int) (startOffset fs n flags)).eval fs := by
  rw [tfsOpen_existing hlookup, eval_bind, openExisting_keep hflag, Option.bind_some]

/-- Closing a handle that is taken. -/
theorem tfsClose_taken (htaken : fs.freeOpenFileEntries h = .taken) :
    (tfsClose ((h : Nat) : Int)).eval fs =
      some (0, (fs.setCount (fs.openFilesCount - 1)).setHandleState h .free) := by
  rw [tfsClose, removeFromOpenFileTable, index?_natCast]
  simp only [bind_eq, pure_eq, eval_readLock, eval_read]
  rw [if_neg (not_not.mpr htaken), eval_lock, eval_modify, eval_read]
  split <;> rfl

/-- The end of the call, after the loop. -/
def finishCopy (sourceHandle : Int) : Option (Bool × List UInt8) → Op (Option (Int × List UInt8))
  | none => pure none
  | some (false, copied) => pure (some (-1, copied))
  | some (true, copied) => do
      let r ← tfsClose sourceHandle
      if r = -1 then pure (some (-1, copied)) else pure (some (0, copied))

/-- The call once the source is open. -/
theorem copy_opened {fuel : Nat}
    (hopen : (tfsOpen name 0).eval fs = some (((h : Nat) : Int), fs.give h ((n : Nat) : Int) 0)) :
    (tfsCopyToExternalFs env name fuel).eval fs =
      if env.fopen ∧ env.malloc then
        ((copyLoop env ((h : Nat) : Int) fuel 0 []).bind (finishCopy ((h : Nat) : Int))).eval
          (fs.give h ((n : Nat) : Int) 0)
      else some (some (-1, []), fs.give h ((n : Nat) : Int) 0) := by
  have hhandle : getOpenFileEntry ((h : Nat) : Int) = some h := index?_natCast h
  have hinode : inodeGet ((n : Nat) : Int) = some n := index?_natCast n
  have hminus : ¬ ((h : Nat) : Int) = -1 := by omega
  have hinumber :
      ((fs.give h ((n : Nat) : Int) 0).openFileTable h).ofInumber = ((n : Nat) : Int) := by
    simp [FS.give]
  rw [tfsCopyToExternalFs, bind_eq, eval_bind, hopen, Option.bind_some, if_neg hminus]
  simp only [hhandle, bind_eq, eval_read, hinumber, hinode]
  cases env.fopen <;> cases env.malloc <;> rfl

/-- Opening a source that is there gives out a handle, unless all are taken. -/
theorem tfsOpen_source (hlookup : (tfsLookup name).eval fs = some (((n : Nat) : Int), fs)) :
    (∃ h, fs.freeOpenFileEntries h = .free ∧
      (tfsOpen name 0).eval fs = some (((h : Nat) : Int), fs.give h ((n : Nat) : Int) 0)) ∨
    (∀ h, fs.freeOpenFileEntries h = .taken) ∧ (tfsOpen name 0).eval fs = some (-1, fs) := by
  have hstart : startOffset fs n 0 = 0 := if_neg (by decide)
  rw [tfsOpen_found hlookup (by decide), hstart]
  rcases addToOpenFileTable_eval fs ((n : Nat) : Int) 0 with ⟨r, fs₁, hadd, hgiven⟩
  rw [hadd]
  cases hgiven with
  | full hfull => exact Or.inr ⟨hfull, rfl⟩
  | handle h hfree => exact Or.inl ⟨h, hfree, rfl⟩

/-- The state after the copy: the handle was given out, moved and given back. -/
def FS.giveBack (fs : FS) (h : Fin maxOpenFiles) (n : Fin inodeTableSize) (offset : Nat) : FS :=
  let last := (fs.give h ((n : Nat) : Int) 0).seek h offset
  (last.setCount (last.openFilesCount - 1)).setHandleState h .free

theorem giveBack_sameStore (offset : Nat) : SameStore fs (fs.giveBack h n offset) := by
  constructor <;> funext x <;> simp [FS.giveBack, FS.give, FS.seek]

theorem giveBack_marks (hfree : fs.freeOpenFileEntries h = .free) (offset : Nat) :
    (fs.giveBack h n offset).freeOpenFileEntries = fs.freeOpenFileEntries ∧
      (fs.giveBack h n offset).openFilesCount = fs.openFilesCount := by
  constructor
  · funext k
    by_cases hk : k = h
    · subst hk
      simp [FS.giveBack, hfree]
    · simp [FS.giveBack, FS.give, FS.seek, hk]
  · simp [FS.giveBack, FS.give, FS.seek]

/-- After a loop that copied all, the handle is given back. -/
theorem finishCopy_all (offset : Nat) (copied : List UInt8) :
    (finishCopy ((h : Nat) : Int) (some (true, copied))).eval
        ((fs.give h ((n : Nat) : Int) 0).seek h offset) =
      some (some (0, copied), fs.giveBack h n offset) := by
  have htaken : ((fs.give h ((n : Nat) : Int) 0).seek h offset).freeOpenFileEntries h = .taken := by
    simp [FS.give, FS.seek]
  have hclose := tfsClose_taken htaken
  rw [finishCopy, bind_eq, eval_bind, hclose, Option.bind_some]
  dsimp only
  rw [if_neg (by decide), pure_eq, eval_ret, FS.giveBack]

/-- What is needed outside and inside: `fopen`, `malloc` and each `fwrite` succeed, the source is
there with a size within the limit and all the blocks up to it, and a handle is free. -/
structure Copyable (env : Outside) (fs : FS) (name : CString) (n : Fin inodeTableSize) : Prop where
  fopen : env.fopen = true
  malloc : env.malloc = true
  fwrite : ∀ call, blockSize ≤ env.fwrite call
  lookup : (tfsLookup name).eval fs = some (((n : Nat) : Int), fs)
  size : (fs.inodeTable n).iSize ≤ maxFileSize
  blocks : ∀ j, j < stopBlock (fs.inodeTable n).iSize → fs.blockAt n j ≠ none
  handle : ∃ h, fs.freeOpenFileEntries h = .free

/-- With all locks free, a file of any size whose blocks are all there is copied exactly, and
nothing is left behind. -/
theorem Copyable.eval (hcopy : Copyable env fs name n) :
    ∃ (copied : List UInt8) (fs' : FS) (enough : Nat),
      (∀ fuel, enough ≤ fuel →
        (tfsCopyToExternalFs env name fuel).eval fs = some (some (0, copied), fs')) ∧
      copied.map some = fs.contents n ∧ SameStore fs fs' ∧
      fs'.freeOpenFileEntries = fs.freeOpenFileEntries ∧ fs'.openFilesCount = fs.openFilesCount := by
  rcases tfsOpen_source hcopy.lookup with ⟨h, hfreeh, hopen⟩ | ⟨hfull, -⟩
  -- one iteration for each block and one for the end are enough
  · have hloop : ∀ fuel, (fs.inodeTable n).iSize / blockSize + 1 ≤ fuel → ∃ bytes : List UInt8,
        (copyLoop env ((h : Nat) : Int) fuel 0 []).eval (fs.give h ((n : Nat) : Int) 0) =
          some (some (true, bytes),
            (fs.give h ((n : Nat) : Int) 0).seek h (fs.inodeTable n).iSize) ∧
        bytes.map some = fs.contents n := by
      intro fuel hfuel
      have hfuel' : (fs.inodeTable n).iSize < (0 + fuel) * blockSize := by
        simp only [blockSize] at hfuel ⊢
        omega
      rcases @copyLoop_all (fs.give h ((n : Nat) : Int) 0) n h 0 env fuel 0 []
        hcopy.fwrite
        (by simp [FS.give]) (by simp [FS.give]) (by rw [Nat.zero_mul]; exact Nat.zero_le _)
        hcopy.size hcopy.blocks hfuel' with ⟨bytes, heval, hbytes⟩
      refine ⟨bytes, heval, hbytes.trans ?_⟩
      rw [FS.contents, FS.fileBytes, List.range_eq_range', Nat.zero_mul, Nat.sub_zero]
      rfl
    rcases hloop _ (le_refl _) with ⟨copied, -, hcopied⟩
    refine ⟨copied, fs.giveBack h n (fs.inodeTable n).iSize,
      (fs.inodeTable n).iSize / blockSize + 1, fun fuel hfuel => ?_, hcopied,
      giveBack_sameStore _, giveBack_marks hfreeh _⟩
    rcases hloop fuel hfuel with ⟨bytes, heval, hbytes⟩
    have hsame : bytes = copied :=
      List.map_injective_iff.mpr (Option.some_injective _) (hbytes.trans hcopied.symm)
    rw [copy_opened hopen, if_pos ⟨hcopy.fopen, hcopy.malloc⟩, eval_bind, heval, hsame,
      Option.bind_some, finishCopy_all]
  · rcases hcopy.handle with ⟨h, hfree⟩
    rw [hfull h] at hfree
    cases hfree

end TecnicoFS.Part1
