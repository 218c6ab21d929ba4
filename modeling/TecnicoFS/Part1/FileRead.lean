import TecnicoFS.Part1.ReadLoop
import TecnicoFS.Part1.LockedRuns

/-!
# Part 1: what `tfs_read` delivers

A read through an open handle delivers the part of the file's contents that it asks for, with
four exceptions. Behind the end of the file the unsigned difference of size and offset is huge,
and the loop reads on; a block that is missing makes it fail; a length that is a multiple of the
block size, from an offset that is not, ends it early; and a length of one block makes it read
over the end of its block, into the next one of `fs_data`.
-/

namespace TecnicoFS.Part1

open Threads Threads.Prog
open Part2 (Call Ret blockSize dataBlocks inodeTableSize maxOpenFiles blockAddr dataBlockGet
  getOpenFileEntry inodeGet)

variable {fs fs' : FS} {n : Fin inodeTableSize} {h : Fin maxOpenFiles} {off len : Nat}
  {b c : Fin dataBlocks} {tr : Machine.Trace Call Ret}

/-- The read delivers the bytes of the file from the offset of the handle on, up to `len` of
them, returns their number and moves the offset by it; nothing else changes. -/
def ReadsContents (fs : FS) (h : Fin maxOpenFiles) (n : Fin inodeTableSize) (len : Nat) : Prop :=
  ∃ bytes : List UInt8, (tfsRead ((h : Nat) : Int) len).eval fs =
      some (((bytes.length : Int), bytes),
        fs.seek h ((fs.openFileTable h).ofOffset + bytes.length)) ∧
    bytes.map some = ((fs.contents n).drop (fs.openFileTable h).ofOffset).take len

/-- A read that runs into none of the defects of `tfs_read`, with `count` bytes to read: there
are none, or the loop is not entered; or the offset is not behind the end and either the blocks
are all there and the loop gets as far as the last of them, or it reads over the end of a block
and finds the same bytes there as in the next block of the file. -/
inductive ReadOk (fs : FS) (n : Fin inodeTableSize) (off count : Nat) : Prop
  | nothing : count = 0 → ReadOk fs n off count
  | notEntered : endBlock off count ≤ off / blockSize → ReadOk fs n off count
  | blocks : off ≤ (fs.inodeTable n).iSize → (count % blockSize ≠ 0 ∨ off % blockSize = 0) →
      (∀ j, off / blockSize ≤ j → j < stopBlock (off + count) → fs.blockAt n j ≠ none) →
      ReadOk fs n off count
  | overrun {b c : Fin dataBlocks} : off ≤ (fs.inodeTable n).iSize → count = blockSize →
      off % blockSize ≠ 0 → fs.blockAt n (off / blockSize) = some b → (b : Nat) + 1 < dataBlocks →
      fs.blockAt n (off / blockSize + 1) = some c →
      Memory.load fs.fsData (blockAddr b + blockSize) (off % blockSize) =
        Memory.load fs.fsData (blockAddr c) (off % blockSize) →
      ReadOk fs n off count

/-! ## How many bytes there are -/

theorem toRead_of_le (hoff : (fs.openFileTable h).ofOffset = off)
    (hle : off ≤ (fs.inodeTable n).iSize) (hsize : (fs.inodeTable n).iSize ≤ maxFileSize) :
    fs.toRead h n len = min ((fs.inodeTable n).iSize - off) len := by
  have hword : (fs.inodeTable n).iSize < wordSize := by
    simp only [maxFileSize, maxFileBlocks, maxDirectBlocks, tableSize, blockSize] at hsize
    simp only [wordSize]
    omega
  rw [FS.toRead, hoff, wordSub_of_le hle hword]

/-- From an offset inside the file the loop is entered. -/
theorem entered_of_le {count : Nat} (hpos : 0 < count) (hword : off + count < wordSize) :
    off / blockSize < endBlock off count := by
  rw [endBlock_eq hword]
  simp only [blockSize]
  split <;> omega

/-- Nothing is there to be read. -/
theorem part_nil (hnone : (fs.inodeTable n).iSize ≤ off ∨ len = 0) :
    ((fs.contents n).drop off).take len = [] := by
  rw [contents_part, Nat.eq_zero_of_le_zero (show min ((fs.inodeTable n).iSize - off) len ≤ 0 by
    omega)]
  rfl

/-! ## A read of one block that runs over the end of its block -/

/-- The bytes that such a read copies are those of the file exactly where the bytes behind the
block are those of the file's next block. -/
theorem overrun_bytes (hmis : off % blockSize ≠ 0) (hb : fs.blockAt n (off / blockSize) = some b) :
    (Memory.load fs.fsData (blockAddr b + off % blockSize) blockSize).map some =
        fs.fileBytes n off blockSize ↔
      ∃ c, fs.blockAt n (off / blockSize + 1) = some c ∧
        Memory.load fs.fsData (blockAddr b + blockSize) (off % blockSize) =
          Memory.load fs.fsData (blockAddr c) (off % blockSize) := by
  have hmod := Nat.mod_lt off (show 0 < blockSize by decide)
  have hsplit : blockSize = (blockSize - off % blockSize) + off % blockSize := by omega
  have hnext : (off + (blockSize - off % blockSize)) / blockSize = off / blockSize + 1 ∧
      (off + (blockSize - off % blockSize)) % blockSize = 0 := by
    simp only [blockSize] at hmod ⊢
    omega
  have haddr : blockAddr b + off % blockSize + (blockSize - off % blockSize) =
      blockAddr b + blockSize := by omega
  have hfirst := load_block hb (show off % blockSize + (blockSize - off % blockSize) ≤ blockSize by
    omega)
  have hsecond : ∀ c, fs.blockAt n (off / blockSize + 1) = some c →
      (Memory.load fs.fsData (blockAddr c) (off % blockSize)).map some =
        fs.fileBytes n (off + (blockSize - off % blockSize)) (off % blockSize) := by
    intro c hc
    rw [← hnext.1] at hc
    have hload := load_block hc (show (off + (blockSize - off % blockSize)) % blockSize +
      off % blockSize ≤ blockSize by rw [hnext.2]; omega)
    rwa [hnext.2, Nat.add_zero] at hload
  have hiff : (Memory.load fs.fsData (blockAddr b + off % blockSize) blockSize).map some =
        fs.fileBytes n off blockSize ↔
      (Memory.load fs.fsData (blockAddr b + blockSize) (off % blockSize)).map some =
        fs.fileBytes n (off + (blockSize - off % blockSize)) (off % blockSize) := by
    have hload := Memory.load_add (m := fs.fsData) (a := blockAddr b + off % blockSize)
      (n := blockSize - off % blockSize) (k := off % blockSize)
    have hbytes := FS.fileBytes_add fs n off (blockSize - off % blockSize) (off % blockSize)
    rw [← hsplit] at hload hbytes
    rw [hload, hbytes, List.map_append, hfirst, haddr]
    exact List.append_right_inj _
  rw [hiff]
  constructor
  · intro hbytes
    cases hc : fs.blockAt n (off / blockSize + 1) with
    | none =>
        -- the first byte behind the block would be none of the file
        have hhead := congrArg (fun l => l[0]?) hbytes
        simp only [FS.fileBytes, List.getElem?_map, Memory.getElem?_load] at hhead
        rw [if_pos (by omega), List.getElem?_range' (by omega)] at hhead
        simp only [Option.map_some, FS.fileByte, Nat.mul_zero, Nat.add_zero, hnext.1, hc] at hhead
        cases hhead
    | some c =>
        refine ⟨c, rfl, ?_⟩
        rw [← hsecond c hc] at hbytes
        exact List.map_injective_iff.mpr (Option.some_injective _) hbytes
  · rintro ⟨c, hc, hsame⟩
    rw [hsame, hsecond c hc]

/-- The one iteration of such a read. -/
theorem overrun_read (hn : (fs.openFileTable h).ofInumber = ((n : Nat) : Int))
    (hoff : (fs.openFileTable h).ofOffset = off) (hread : fs.toRead h n len = blockSize)
    (hmis : off % blockSize ≠ 0) (hmax : off + blockSize ≤ maxFileSize)
    (hb : fs.blockAt n (off / blockSize) = some b) :
    (tfsRead ((h : Nat) : Int) len).eval fs =
      if (b : Nat) + 1 < dataBlocks then
        some (((blockSize : Int),
          Memory.load fs.fsData (blockAddr b + off % blockSize) blockSize),
            fs.seek h (off + blockSize))
      else none := by
  have hmod := Nat.mod_lt off (show 0 < blockSize by decide)
  simp only [maxFileSize, maxFileBlocks, maxDirectBlocks, tableSize, blockSize] at hmax
  have hword : off + blockSize < wordSize := by
    simp only [blockSize, wordSize]
    omega
  have hend : endBlock off blockSize = off / blockSize + 1 := by
    rw [endBlock_eq hword, Nat.add_div_right _ (by decide), Nat.mod_self, if_neg (lt_irrefl 0),
      Nat.add_zero]
  have hblock : (readBlock n (off / blockSize)).eval fs =
      some (fs.blockAt n (off / blockSize), fs) := readBlock_eval (by
    simp only [maxFileBlocks, maxDirectBlocks, tableSize, blockSize]
    omega)
  rw [hb] at hblock
  have hbound : blockAddr b + off % blockSize + blockSize ≤ fsDataSize ↔
      (b : Nat) + 1 < dataBlocks := by
    simp only [blockAddr, fsDataSize, blockSize, dataBlocks] at hmod hmis ⊢
    omega
  rw [tfsRead_loop hn, hread, if_neg (by decide), hoff, hend, Nat.add_sub_cancel_left,
    readLoop_last hoff hblock (by omega) (le_refl _), if_congr hbound rfl rfl, wordAdd_of_lt hword,
    List.nil_append, Memory.length_load]
  rfl

/-! ## The read -/

/-- How a read ends that enters its loop and gets as far as `planned` bytes. -/
theorem tfsRead_delivered {count : Nat} (hn : (fs.openFileTable h).ofInumber = ((n : Nat) : Int))
    (hoff : (fs.openFileTable h).ofOffset = off) (hread : fs.toRead h n len = count)
    (hpos : 0 < count) (hmax : off + count ≤ maxFileSize) (hfits : Fits off count) :
    ∃ r fs', (tfsRead ((h : Nat) : Int) len).eval fs = some (r, fs') ∧
      Delivered fs h n off (planned off count) (off / blockSize)
        (stopBlock (off + planned off count)) [] r fs' := by
  have hword : off + count < wordSize := by
    simp only [maxFileSize, maxFileBlocks, maxDirectBlocks, tableSize, blockSize] at hmax
    simp only [wordSize]
    omega
  have hplan : planned off count ≤ count := Nat.min_le_left ..
  have hlast := entered_of_le hpos hword
  have hstop : stopBlock (off + planned off count) ≤ maxFileBlocks := by
    simp only [maxFileSize, maxFileBlocks, maxDirectBlocks, tableSize, stopBlock, blockSize]
      at hmax ⊢
    omega
  have hgood : off % blockSize = 0 ∨ off / blockSize + 1 < endBlock off count ∨
      off + count ≤ endBlock off count * blockSize := by
    rw [endBlock_eq hword]
    simp only [Fits, blockSize] at hfits ⊢
    split <;> omega
  rw [tfsRead_loop hn, hread, if_neg hpos.ne', hoff]
  exact readLoop_eval hoff rfl (Nat.sub_add_cancel hlast.le) hlast hpos hgood rfl hstop

theorem ReadOk.readsContents (hn : (fs.openFileTable h).ofInumber = ((n : Nat) : Int))
    (hoff : (fs.openFileTable h).ofOffset = off) (hsize : (fs.inodeTable n).iSize ≤ maxFileSize)
    (hok : ReadOk fs n off (fs.toRead h n len)) : ReadsContents fs h n len := by
  rw [ReadsContents, hoff]
  -- nothing to deliver
  have hempty : (tfsRead ((h : Nat) : Int) len).eval fs = some ((0, []), fs) →
      ((fs.inodeTable n).iSize ≤ off ∨ len = 0) → ∃ bytes : List UInt8,
        (tfsRead ((h : Nat) : Int) len).eval fs =
            some (((bytes.length : Int), bytes), fs.seek h (off + bytes.length)) ∧
          bytes.map some = ((fs.contents n).drop off).take len := by
    intro heval hnone
    refine ⟨[], ?_, (part_nil hnone).symm⟩
    rw [heval, List.length_nil, Nat.add_zero, ← hoff, FS.seek_self]
    rfl
  have hinside : off ≤ (fs.inodeTable n).iSize →
      fs.toRead h n len = min ((fs.inodeTable n).iSize - off) len :=
    fun hle => toRead_of_le hoff hle hsize
  have hbehind : (fs.inodeTable n).iSize ≤ off ∨ off ≤ (fs.inodeTable n).iSize := Nat.le_total _ _
  by_cases hzero : fs.toRead h n len = 0
  · refine hempty ?_ ?_
    · rw [tfsRead_loop hn, if_pos hzero]
    · rcases hbehind with hle | hle
      · exact Or.inl hle
      · rw [hinside hle] at hzero
        omega
  have hpos : 0 < fs.toRead h n len := Nat.pos_of_ne_zero hzero
  cases hok with
  | nothing h0 => exact absurd h0 hzero
  | notEntered hend =>
      refine hempty ?_ ?_
      · rw [tfsRead_loop hn, if_neg hzero, hoff, Nat.sub_eq_zero_of_le hend]
        rfl
      · rcases hbehind with hle | hle
        · exact Or.inl hle
        · have hcount := hinside hle
          refine absurd (entered_of_le hpos ?_) (not_lt.mpr hend)
          simp only [maxFileSize, maxFileBlocks, maxDirectBlocks, tableSize, blockSize] at hsize
          simp only [wordSize]
          omega
  | blocks hle hreg hblocks =>
      have hcount := hinside hle
      have hmax : off + fs.toRead h n len ≤ maxFileSize := by omega
      have hword : off + fs.toRead h n len < wordSize := by
        simp only [maxFileSize, maxFileBlocks, maxDirectBlocks, tableSize, blockSize] at hmax
        simp only [wordSize]
        omega
      have hfits : Fits off (fs.toRead h n len) := fun heq => hreg.resolve_left (by rw [heq]; decide)
      rcases tfsRead_delivered hn hoff rfl hpos hmax hfits with ⟨r, fs', heval, hdelivered⟩
      rw [planned_eq hword hreg] at hdelivered
      cases hdelivered with
      | @all more _ hbytes =>
          have hlen : more.length = fs.toRead h n len := by
            rw [← List.length_map, hbytes, FS.length_fileBytes]
          refine ⟨more, ?_, ?_⟩
          · rw [heval, List.nil_append, hlen, wordToInt_of_lt]
            simp only [maxFileSize, maxFileBlocks, maxDirectBlocks, tableSize, blockSize] at hmax
            simp only [wordSize]
            omega
          · rw [hbytes, contents_part, hcount]
      | missing hij hj hnone => exact absurd hnone (hblocks _ hij hj)
  | @overrun b c hle hcount hmis hb hlast hc hsame =>
      have hmax : off + blockSize ≤ maxFileSize := by
        rw [hinside hle] at hcount
        omega
      refine ⟨Memory.load fs.fsData (blockAddr b + off % blockSize) blockSize, ?_, ?_⟩
      · rw [overrun_read hn hoff hcount hmis hmax hb, if_pos hlast, Memory.length_load]
      · rw [(overrun_bytes hmis hb).mpr ⟨c, hc, hsame⟩, contents_part, ← hinside hle, hcount]

theorem ReadsContents.readOk (hn : (fs.openFileTable h).ofInumber = ((n : Nat) : Int))
    (hoff : (fs.openFileTable h).ofOffset = off) (hsize : (fs.inodeTable n).iSize ≤ maxFileSize)
    (hreads : ReadsContents fs h n len) : ReadOk fs n off (fs.toRead h n len) := by
  rcases hreads with ⟨bytes, heval, hbytes⟩
  rw [hoff] at heval hbytes
  by_cases hzero : fs.toRead h n len = 0
  · exact .nothing hzero
  by_cases hend : endBlock off (fs.toRead h n len) ≤ off / blockSize
  · exact .notEntered hend
  have hpos : 0 < fs.toRead h n len := Nat.pos_of_ne_zero hzero
  -- the loop delivers something, so the offset is inside the file
  have hnonempty : 0 < bytes.length := by
    rw [tfsRead_loop hn, if_neg hzero, hoff] at heval
    rcases readLoop_delivers hpos heval with hfailed | ⟨-, hlonger⟩
    · change (bytes.length : Int) = -1 at hfailed
      omega
    · exact hlonger (by omega)
  have hlength : bytes.length = min ((fs.inodeTable n).iSize - off) len := by
    rw [← List.length_map, hbytes, contents_part, FS.length_fileBytes]
  have hle : off ≤ (fs.inodeTable n).iSize := by omega
  have hcount : fs.toRead h n len = bytes.length := by
    rw [toRead_of_le hoff hle hsize, hlength]
  have hmax : off + fs.toRead h n len ≤ maxFileSize := by omega
  have hword : off + fs.toRead h n len < wordSize := by
    simp only [maxFileSize, maxFileBlocks, maxDirectBlocks, tableSize, blockSize] at hmax
    simp only [wordSize]
    omega
  have hvalue : ∀ {r : Int × List UInt8} {fs'}, (tfsRead ((h : Nat) : Int) len).eval fs =
      some (r, fs') → r = ((bytes.length : Int), bytes) := by
    intro r fs' heval'
    rw [heval] at heval'
    exact (Prod.mk.inj (Option.some.inj heval')).1.symm
  by_cases hfits : Fits off (fs.toRead h n len)
  · rcases tfsRead_delivered hn hoff rfl hpos hmax hfits with ⟨r, fs', heval', hdelivered⟩
    have hr := hvalue heval'
    cases hdelivered with
    | @all more hblocks hmore =>
        have hplan : planned off (fs.toRead h n len) = fs.toRead h n len := by
          have hlen := congrArg List.length hmore
          have hsame : more = bytes := (Prod.mk.inj hr).2
          rw [List.length_map, FS.length_fileBytes, hsame, ← hcount] at hlen
          exact hlen.symm
        rw [hplan] at hblocks
        refine .blocks hle ?_ hblocks
        by_contra hirregular
        rw [not_or, not_not] at hirregular
        rw [planned_short hword hirregular.1 hpos] at hplan
        omega
    | missing =>
        have hminus : (-1 : Int) = (bytes.length : Int) := (Prod.mk.inj hr).1
        omega
  · rw [Fits, Classical.not_imp] at hfits
    rcases hfits with ⟨hone, hmis⟩
    cases hb : fs.blockAt n (off / blockSize) with
    | none =>
        have hblock : (readBlock n (off / blockSize)).eval fs =
            some (fs.blockAt n (off / blockSize), fs) := readBlock_eval (by
          simp only [maxFileSize, maxFileBlocks, maxDirectBlocks, tableSize, blockSize]
            at hmax hpos ⊢
          omega)
        obtain ⟨left, hleft⟩ : ∃ left, endBlock off (fs.toRead h n len) - off / blockSize =
            left + 1 := ⟨_, (Nat.succ_pred_eq_of_pos (by omega)).symm⟩
        have heval' : (tfsRead ((h : Nat) : Int) len).eval fs = some ((-1, []), fs) := by
          rw [tfsRead_loop hn, if_neg hzero, hoff, hleft, readLoop, bind_eq, eval_bind, hblock, hb]
          rfl
        have hminus : (-1 : Int) = (bytes.length : Int) := (Prod.mk.inj (hvalue heval')).1
        omega
    | some b =>
        have hread := overrun_read hn hoff hone hmis (hone ▸ hmax) hb
        split at hread
        · next hlast =>
            have hsame : _ = bytes := (Prod.mk.inj (hvalue hread)).2
            rw [← hsame, contents_part, ← toRead_of_le hoff hle hsize, hone,
              overrun_bytes hmis hb] at hbytes
            rcases hbytes with ⟨c, hc, hnext⟩
            exact .overrun hle hone hmis hb hlast hc hnext
        · rw [heval] at hread
          cases hread

/-- A read through a handle of a file of a consistent state. -/
theorem Consistent.reads_iff (hc : Consistent fs) (hopen : Opens fs h n) (len : Nat) :
    ReadsContents fs h n len ↔
      ReadOk fs n (fs.openFileTable h).ofOffset (fs.toRead h n len) :=
  ⟨ReadsContents.readOk hopen.refers rfl (hc.sizes n hopen.isFile),
    ReadOk.readsContents hopen.refers rfl (hc.sizes n hopen.isFile)⟩

/-- In every state of a run of opens, closes, reads and writes that write something and run into
none of the defects of `tfs_write`, no lock is left. There, for every open handle, `tfs_read`
delivers the bytes of the file that it is asked for exactly where it runs into none of its own. -/
theorem reads_contents_iff {held : List (Lock × Mode)}
    (hreach : lockMachine.Reach (Returning (Writes WriteOk)) (tr, fs, held))
    (hopen : Opens fs h n) (len : Nat) : held = [] ∧ (ReadsContents fs h n len ↔
      ReadOk fs n (fs.openFileTable h).ofOffset (fs.toRead h n len)) := by
  rcases Reach.unlocked hreach with ⟨hheld, hreach⟩
  exact ⟨hheld, (Reach.consistent hreach fun _ _ _ _ hok => hok).reads_iff hopen len⟩

/-- The three bytes of a file are read through a second handle. -/
theorem reads_contents_three : ∃ tr fs,
    lockMachine.Reach (Returning (Writes WriteOk)) (tr, fs, []) ∧ Opens fs 1 1 ∧
      (fs.inodeTable 1).iSize = 3 ∧ ReadsContents fs 1 1 5 := by
  have hplay : (lockMachine.play (fun tr s c => Writes DirectOk tr s.1 c ∧ NonEmptyWrite c)
      ([], initialFS, []) [.open pathA 1, .write 0 [1, 2, 3], .open pathA 0]).map
      (fun cfg : Machine.Trace Call Ret × Left => decide (
        cfg.2.1.freeOpenFileEntries 1 = .taken ∧ cfg.2.1.openFileTable 1 = ⟨1, 0⟩ ∧
        IsFile cfg.2.1 1 ∧ (cfg.2.1.inodeTable 1).iSize = 3 ∧
        cfg.2.1.blockAt 1 0 ≠ none ∧ cfg.2.2 = [])) = some true := by
    decide +kernel
  rcases Option.map_eq_some_iff.mp hplay with ⟨⟨tr, fs, held⟩, hplay, hfacts⟩
  rcases of_decide_eq_true hfacts with ⟨htaken, hentry, hfile, hsize, hblock, hheld⟩
  cases hheld
  have hreach := reach_locked hplay
  have hopen : Opens fs 1 1 := ⟨htaken, by rw [hentry]; rfl, hfile⟩
  have hread : fs.toRead 1 1 5 = 3 := by
    rw [FS.toRead, hentry, hsize]
    decide
  refine ⟨tr, fs, hreach, hopen, hsize, (reads_contents_iff hreach hopen 5).2.mpr ?_⟩
  rw [hread, hentry]
  refine .blocks (Nat.zero_le _) (Or.inl (by decide)) fun j _ hj => ?_
  have hzero : j = 0 := by
    rw [show stopBlock (0 + 3) = 1 from rfl] at hj
    omega
  rw [hzero]
  exact hblock

/-- The file `/a` of three bytes is emptied through a second handle. The offset of the first one
lies behind the end then, and a read through it fails. -/
theorem emptied_file_read : ∃ tr fs, lockMachine.Reach (Returning (Writes WriteOk)) (tr, fs, []) ∧
    Opens fs 0 1 ∧ ¬ ReadsContents fs 0 1 5 := by
  have hplay : (lockMachine.play (fun tr s c => Writes DirectOk tr s.1 c ∧ NonEmptyWrite c)
      ([], initialFS, []) [.open pathA 1, .write 0 [1, 2, 3], .open pathA 2]).map
      (fun cfg : Machine.Trace Call Ret × Left => decide (
        cfg.2.1.freeOpenFileEntries 0 = .taken ∧ cfg.2.1.openFileTable 0 = ⟨1, 3⟩ ∧
        IsFile cfg.2.1 1 ∧ (cfg.2.1.inodeTable 1).iSize = 0 ∧ cfg.2.2 = [])) = some true := by
    decide +kernel
  rcases Option.map_eq_some_iff.mp hplay with ⟨⟨tr, fs, held⟩, hplay, hfacts⟩
  rcases of_decide_eq_true hfacts with ⟨htaken, hentry, hfile, hsize, hheld⟩
  cases hheld
  have hopen : Opens fs 0 1 := ⟨htaken, by rw [hentry]; rfl, hfile⟩
  have hreach := reach_locked hplay
  refine ⟨tr, fs, hreach, hopen, ?_⟩
  have hread : fs.toRead 0 1 5 = 5 := by
    rw [FS.toRead, hentry, hsize]
    decide
  have hc : Consistent fs := Reach.consistent (Reach.unlocked hreach).2 fun _ _ _ _ hok => hok
  rw [hc.reads_iff hopen, hread, hentry]
  rintro (hzero | hend | ⟨hle, -, -⟩ | ⟨hle, -⟩)
  · exact absurd hzero (by decide)
  · exact absurd hend (by decide)
  · rw [hsize] at hle
    exact absurd hle (by decide)
  · rw [hsize] at hle
    exact absurd hle (by decide)

end TecnicoFS.Part1
