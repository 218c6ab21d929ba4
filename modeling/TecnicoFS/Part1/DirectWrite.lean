import TecnicoFS.Part1.Layout

/-!
# Part 1: writes within the direct blocks

A write of several blocks within the direct blocks stores its bytes where they belong, unless
its length is a multiple of the block size and its offset is not. There a write of more than one
block returns early, and a write of one block runs over the end of the block it starts in,
which is right only where the next block of the file is the next block of `fs_data`.
-/

namespace TecnicoFS.Part1

open Threads Threads.Prog
open Part2 (AllocationState blockSize dataBlocks inodeTableSize maxOpenFiles blockAddr
  dataBlockGet)

variable {fs fs' : FS} {n : Fin inodeTableSize} {h : Fin maxOpenFiles} {off : Nat}
  {buffer : List UInt8} {b c : Fin dataBlocks}

/-- The blocks of every file are the ones its size calls for. -/
structure BlocksInPlace (fs : FS) : Prop extends Layout fs where
  held : ∀ n j, IsFile fs n → (fs.slot n j ≠ -1 ↔ j < stopBlock (fs.inodeTable n).iSize)

/-- The effect of a write that stores all its bytes at the offset of the handle. -/
structure StoredAt (h : Fin maxOpenFiles) (n : Fin inodeTableSize) (buffer : List UInt8)
    (fs fs' : FS) : Prop where
  contents : fs'.contents n =
    Memory.overwrite (fs.contents n) (fs.openFileTable h).ofOffset (buffer.map some)
  offset : (fs'.openFileTable h).ofOffset = (fs.openFileTable h).ofOffset + buffer.length
  size : (fs'.inodeTable n).iSize =
    max (fs.inodeTable n).iSize ((fs.openFileTable h).ofOffset + buffer.length)
  frame : ∀ b, ¬ fs'.Owns n b → SameBlock fs fs' b

/-- `tfs_write` returns the length of the buffer and stores all of it at the offset of the
handle. -/
def StoresAll (fs : FS) (h : Fin maxOpenFiles) (n : Fin inodeTableSize)
    (buffer : List UInt8) : Prop :=
  ∃ fs', (tfsWrite ((h : Nat) : Int) buffer).eval fs = some ((buffer.length : Int), fs') ∧
    StoredAt h n buffer fs fs'

theorem BlocksInPlace.mapped (hs : BlocksInPlace fs) (hn : IsFile fs n) : Mapped fs n :=
  fun j hj => (hs.held n j hn).mpr hj

theorem Wrote.storedAt (hw : Wrote h n off buffer fs fs') (hl : FileLayout fs n)
    (hm : Mapped fs n) (hoff : (fs.openFileTable h).ofOffset = off)
    (hle : off ≤ (fs.inodeTable n).iSize) (hbuffer : buffer ≠ [])
    (hspill : ∀ b, ¬ Spilled fs fs' n b) : StoredAt h n buffer fs fs' where
  contents := hoff ▸ hw.contents hl hm hle hbuffer
  offset := hoff ▸ hw.offset
  size := by
    rw [hw.size, grown, if_neg (by simpa using hbuffer), hoff]
  frame b hb := hw.frame b hb (hspill b)

/-- A write within the direct blocks needs no indirect block. -/
theorem Ended.not_spilled {i stop planned count : Nat} (he : Ended h n off i stop planned buffer
    count fs fs') (hstop : stop ≤ maxDirectBlocks) : ∀ b, ¬ Spilled fs fs' n b := by
  rintro b ⟨habsent, t, ht, -⟩
  have hnew := he.table t habsent ht
  rw [newTable, if_neg (fun hneeds => absurd hneeds.2 (by omega))] at hnew
  cases hnew

theorem safeTable_direct {i stop : Nat} (hstop : stop ≤ maxDirectBlocks) :
    SafeTable fs n i stop := by
  intro t ht
  rw [newTable, if_neg (fun hneeds => absurd hneeds.2 (by omega))] at ht
  cases ht

/-- How a write within the direct blocks ends, unless it runs over the end of a block. -/
theorem direct_write_eval (hl : FileLayout fs n)
    (hn : (fs.openFileTable h).ofInumber = ((n : Nat) : Int))
    (hoff : (fs.openFileTable h).ofOffset = off) (hbuffer : buffer ≠ [])
    (hdirect : off + buffer.length ≤ maxDirectBlocks * blockSize)
    (hfits : Fits off buffer.length) :
    ∃ count fs', (tfsWrite ((h : Nat) : Int) buffer).eval fs =
        some (if count = planned off buffer.length then (count : Int) else -1, fs') ∧
      Ended h n off (off / blockSize) (stopBlock (off + planned off buffer.length))
        (planned off buffer.length) buffer count fs fs' := by
  have hle : planned off buffer.length ≤ buffer.length := Nat.min_le_left ..
  have hstop : stopBlock (off + planned off buffer.length) ≤ maxDirectBlocks := by
    simp only [stopBlock, maxDirectBlocks, blockSize] at hdirect ⊢
    omega
  refine tfsWrite_eval hl hn hoff hbuffer ?_ hfits ?_ (safeTable_direct hstop)
  · simp only [maxDirectBlocks, blockSize, wordSize] at hdirect ⊢
    omega
  · simp only [maxFileBlocks, maxDirectBlocks, tableSize, blockSize] at hdirect ⊢
    omega

/-! ## Where the length or the offset are regular -/

theorem stores_regular (hl : FileLayout fs n) (hm : Mapped fs n)
    (hn : (fs.openFileTable h).ofInumber = ((n : Nat) : Int))
    (hoff : (fs.openFileTable h).ofOffset = off) (hle : off ≤ (fs.inodeTable n).iSize)
    (hbuffer : buffer ≠ []) (hdirect : off + buffer.length ≤ maxDirectBlocks * blockSize)
    (hfree : missing fs n (off / blockSize) (stopBlock (off + buffer.length) - off / blockSize) ≤
      (freeList fs).length)
    (hreg : buffer.length % blockSize ≠ 0 ∨ off % blockSize = 0) :
    StoresAll fs h n buffer := by
  have hword : off + buffer.length < wordSize := by
    simp only [maxDirectBlocks, blockSize, wordSize] at hdirect ⊢
    omega
  have hfits : Fits off buffer.length := by
    intro hlen
    rw [hlen] at hreg
    exact hreg.resolve_left (by decide)
  have hplan := planned_eq hword hreg
  have hstop : stopBlock (off + buffer.length) ≤ maxDirectBlocks := by
    simp only [stopBlock, maxDirectBlocks, blockSize] at hdirect ⊢
    omega
  rcases direct_write_eval hl hn hoff hbuffer hdirect hfits with ⟨count, fs', heval, hended⟩
  rw [hplan] at heval hended
  have hcount : count = buffer.length := by
    rw [hended.enough, lacks, if_neg (fun hneeds => absurd hneeds.2 (by omega)), Nat.add_zero]
    exact hfree
  subst hcount
  have hwrote := hended.wrote
  rw [List.take_length] at hwrote
  rw [if_pos rfl] at heval
  exact ⟨fs', heval, hwrote.storedAt hl hm hoff hle hbuffer (hended.not_spilled hstop)⟩

/-! ## A write of more than one block that returns early -/

theorem short_not_stored (hl : FileLayout fs n)
    (hn : (fs.openFileTable h).ofInumber = ((n : Nat) : Int))
    (hoff : (fs.openFileTable h).ofOffset = off) (hbuffer : buffer ≠ [])
    (hdirect : off + buffer.length ≤ maxDirectBlocks * blockSize)
    (hcount : buffer.length % blockSize = 0) (hne : buffer.length ≠ blockSize)
    (hmis : off % blockSize ≠ 0) : ¬ StoresAll fs h n buffer := by
  have hlen : 0 < buffer.length := List.length_pos_iff.mpr hbuffer
  have hword : off + buffer.length < wordSize := by
    simp only [maxDirectBlocks, blockSize, wordSize] at hdirect ⊢
    omega
  have hplan := planned_short hword hcount hlen
  rcases direct_write_eval hl hn hoff hbuffer hdirect (fun heq => absurd heq hne)
    with ⟨count, fs', heval, hended⟩
  rintro ⟨fs'', heval', -⟩
  rw [heval, hplan] at heval'
  have hvalue := (Prod.mk.inj (Option.some.inj heval')).1
  split at hvalue <;> omega

/-! ## A write of one block that runs over the end of its block -/

theorem writeBlock_present {i : Nat} (hi : i < maxDirectBlocks) (hb : fs.blockAt n i = some b) :
    (writeBlock n i).eval fs = some (some b, fs) := by
  have hplace := blockRef_direct hi
  have hslot := blockAt_eq_some.mp hb
  rw [slot_of_ref hplace] at hslot
  rw [writeBlock, dif_pos hi]
  rcases writeDirect_eval fs n ⟨i, hi⟩ with ⟨fs', heval, hf⟩ | ⟨-, habsent, -⟩
  · rcases hf with ⟨-, rfl⟩ | ⟨_, _, _, ht⟩
    · rw [heval, hslot, dataBlockGet_natCast]
    · exact absurd (hslot.symm.trans ht.absent) (natCast_ne_absent b)
  · exact absurd (hslot.symm.trans habsent) (natCast_ne_absent b)

/-- The one iteration of such a write copies the whole buffer. -/
theorem overrun_eval (hn : (fs.openFileTable h).ofInumber = ((n : Nat) : Int))
    (hoff : (fs.openFileTable h).ofOffset = off) (hlen : buffer.length = blockSize)
    (hdirect : off + blockSize ≤ maxDirectBlocks * blockSize) (hmis : off % blockSize ≠ 0)
    (hb : fs.blockAt n (off / blockSize) = some b) :
    (tfsWrite ((h : Nat) : Int) buffer).eval fs =
      if (b : Nat) + 1 < dataBlocks then some ((blockSize : Int), fs.put h n b buffer)
      else none := by
  have hpos : buffer ≠ [] := by
    rw [← List.length_pos_iff, hlen]
    decide
  have hmod := Nat.mod_lt off (show 0 < blockSize by decide)
  have hend : endBlock off blockSize = off / blockSize + 1 := by
    rw [endBlock_eq (by simp only [maxDirectBlocks, blockSize, wordSize] at hdirect ⊢; omega),
      Nat.add_div_right _ (by decide), Nat.mod_self, if_neg (lt_irrefl 0), Nat.add_zero]
  have hfirst : off / blockSize < maxDirectBlocks := by
    simp only [maxDirectBlocks, blockSize] at hdirect ⊢
    omega
  have hstore : fs.store? (blockAddr b + off % blockSize) buffer =
      if (b : Nat) + 1 < dataBlocks then
        some (fs.setData (Memory.store fs.fsData (blockAddr b + off % blockSize) buffer))
      else none := by
    have hbound : blockAddr b + off % blockSize + buffer.length ≤ fsDataSize ↔
        (b : Nat) + 1 < dataBlocks := by
      rw [hlen]
      simp only [blockAddr, fsDataSize, blockSize, dataBlocks] at hmod hmis ⊢
      omega
    rw [FS.store?, if_congr hbound rfl rfl]
  have hvalue : wordToInt (0 + blockSize) = (blockSize : Int) := by decide
  rw [tfsWrite_loop hn hoff hpos, hlen, hend, Nat.add_sub_cancel_left, writeLoop, bind_eq,
    eval_bind, writeBlock_present hfirst hb, Option.bind_some]
  simp only [bind_eq, eval_read, hoff]
  rw [if_neg (fun hcond => absurd hcond.1 (lt_irrefl _)), if_pos hlen.le, eval_bind, copyIn,
    modify?]
  split
  · next hbound =>
      rw [if_pos hbound] at hstore
      rw [eval_act_of_some (by rw [hoff]; exact hstore), eval_ret, Option.bind_some, eval_modify,
        hlen, hvalue, leave_eval, FS.put, hoff, hlen]
  · next hbound =>
      rw [if_neg hbound] at hstore
      rw [eval_act_of_none (by rw [hoff]; exact hstore), Option.bind_none]

/-- Bytes stored over the end of a block are bytes stored in two blocks, where these lie next
to each other. -/
theorem put_append {xs ys : List UInt8} (hoff : (fs.openFileTable h).ofOffset = off)
    (haddr : blockAddr c + (off + xs.length) % blockSize =
      blockAddr b + off % blockSize + xs.length)
    (hword : off + xs.length + ys.length < wordSize) :
    fs.put h n b (xs ++ ys) = (fs.put h n b xs).put h n c ys := by
  have hoff₁ : ((fs.put h n b xs).openFileTable h).ofOffset = off + xs.length := by
    rw [put_openFileTable, Function.update_self, hoff, wordAdd_of_lt (by omega)]
  have hdata : (fs.put h n b xs).fsData = Memory.store fs.fsData
      (blockAddr b + off % blockSize) xs := by
    rw [← hoff]
    rfl
  have hput : (fs.put h n b xs).put h n c ys = ((fs.put h n b xs).setData
      (Memory.store fs.fsData (blockAddr b + off % blockSize) (xs ++ ys))).advance h n
        ys.length := by
    rw [← Memory.store_append, ← haddr, ← hdata, ← hoff₁]
    rfl
  rw [hput]
  simp [FS.put, FS.advance, FS.setData, FS.setHandle, FS.setInode, hoff,
    wordAdd_of_lt hword, wordAdd_of_lt (show off + xs.length < wordSize by omega),
    wordAdd_of_lt (show off + (xs.length + ys.length) < wordSize by omega), Nat.add_assoc]

theorem stores_adjacent (hl : FileLayout fs n) (hm : Mapped fs n)
    (hn : (fs.openFileTable h).ofInumber = ((n : Nat) : Int))
    (hoff : (fs.openFileTable h).ofOffset = off) (hle : off ≤ (fs.inodeTable n).iSize)
    (hlen : buffer.length = blockSize) (hdirect : off + blockSize ≤ maxDirectBlocks * blockSize)
    (hmis : off % blockSize ≠ 0) (hb : fs.blockAt n (off / blockSize) = some b)
    (hc : fs.blockAt n (off / blockSize + 1) = some c) (hnext : (c : Nat) = b + 1) :
    StoresAll fs h n buffer := by
  have hmod := Nat.mod_lt off (show 0 < blockSize by decide)
  have hbuffer : buffer ≠ [] := by
    rw [← List.length_pos_iff, hlen]
    decide
  obtain ⟨xs, ys, rfl, hxs⟩ : ∃ xs ys, buffer = xs ++ ys ∧
      xs.length = blockSize - off % blockSize :=
    ⟨_, _, (List.take_append_drop (blockSize - off % blockSize) buffer).symm,
      List.length_take_of_le (by omega)⟩
  have hys : ys.length = off % blockSize := by
    rw [List.length_append] at hlen
    omega
  have hnext₁ : (off + xs.length) / blockSize = off / blockSize + 1 ∧
      (off + xs.length) % blockSize = 0 := by
    rw [hxs]
    simp only [blockSize] at hmod ⊢
    omega
  have hword : off + xs.length + ys.length < wordSize := by
    rw [hxs, hys]
    simp only [maxDirectBlocks, blockSize, wordSize] at hdirect hmod ⊢
    omega
  have hne : xs ≠ [] ∧ ys ≠ [] := by
    rw [← List.length_pos_iff, ← List.length_pos_iff]
    omega
  have haddr : blockAddr c + (off + xs.length) % blockSize =
      blockAddr b + off % blockSize + xs.length := by
    rw [hnext₁.2, hxs, blockAddr, blockAddr, hnext]
    simp only [blockSize] at hmod ⊢
    omega
  rcases iteration_wrote xs (Wrote.refl hl hoff) hl hb (by omega) hne.1 (by omega)
    with ⟨hw₁, hl₁, href₁⟩
  have hc₁ : (fs.put h n b xs).blockAt n ((off + xs.length) / blockSize) = some c := by
    rw [blockAt_congr href₁, hnext₁.1, hc]
  rcases iteration_wrote ys (Wrote.refl hl₁ hw₁.offset) hl₁ hc₁ (by omega) hne.2 hword
    with ⟨hw₂, -, href₂⟩
  have hwrote := hw₁.trans hw₂
  have hbound : (b : Nat) + 1 < dataBlocks := hnext ▸ c.isLt
  have htable : ((fs.put h n b xs).put h n c ys).ref n .table = fs.ref n .table := by
    rw [href₂, href₁]
  refine ⟨_, ?_, hwrote.storedAt hl hm hoff hle hbuffer fun b => not_spilled_of_table htable⟩
  rw [overrun_eval hn hoff hlen hdirect hmis hb, if_pos hbound, put_append hoff haddr hword, hlen]

/-- A write of one block that runs over its end leaves the next block of the file as it is,
unless that is the next one of `fs_data`. -/
theorem adjacent_of_stores (hl : FileLayout fs n)
    (hn : (fs.openFileTable h).ofInumber = ((n : Nat) : Int))
    (hoff : (fs.openFileTable h).ofOffset = off) (hle : off ≤ (fs.inodeTable n).iSize)
    (hdirect : off + blockSize ≤ maxDirectBlocks * blockSize) (hmis : off % blockSize ≠ 0)
    (hb : fs.blockAt n (off / blockSize) = some b)
    (hstores : ∀ buffer : List UInt8, buffer.length = blockSize → StoresAll fs h n buffer) :
    ∃ c : Fin dataBlocks, (c : Nat) = b + 1 ∧ fs.blockAt n (off / blockSize + 1) = some c := by
  have hmod := Nat.mod_lt off (show 0 < blockSize by decide)
  have hfirst : off / blockSize + 1 < maxDirectBlocks := by
    simp only [maxDirectBlocks, blockSize] at hdirect hmis ⊢
    omega
  -- the bytes that were stored, at the first position of the next block
  have hbyte : ∀ x : UInt8, (fs.put h n b (List.replicate blockSize x)).fileByte n
      ((off / blockSize + 1) * blockSize) = some x := by
    intro x
    have hlen : (List.replicate blockSize x).length = blockSize := List.length_replicate
    rcases hstores _ hlen with ⟨fs', heval, hstored⟩
    rw [overrun_eval hn hoff hlen hdirect hmis hb] at heval
    split at heval
    · have hfs := (Prod.mk.inj (Option.some.inj heval)).2
      have hcontents := congrArg (fun l => l[(off / blockSize + 1) * blockSize]?) hstored.contents
      have hp : (off / blockSize + 1) * blockSize < (fs'.inodeTable n).iSize := by
        rw [hstored.size, hoff, hlen]
        simp only [blockSize] at hmod hmis ⊢
        omega
      simp only [contents_getElem?, if_pos hp] at hcontents
      rw [Memory.getElem?_overwrite (by rw [contents_length, hoff]; exact hle), hoff,
        List.length_map, hlen, if_pos (by simp only [blockSize] at hmod hmis ⊢; omega),
        List.getElem?_map, List.getElem?_replicate,
        if_pos (by simp only [blockSize] at hmod hmis ⊢; omega)] at hcontents
      rw [hfs]
      exact Option.some.inj hcontents
    · cases heval
  have hslot : ∀ x : UInt8, (fs.put h n b (List.replicate blockSize x)).blockAt n
      (off / blockSize + 1) = fs.blockAt n (off / blockSize + 1) := by
    intro x
    rw [FS.blockAt, FS.blockAt, slot_of_ref (blockRef_direct hfirst),
      slot_of_ref (blockRef_direct hfirst)]
    simp [FS.ref, FS.put, FS.advance]
  have hpos : (off / blockSize + 1) * blockSize / blockSize = off / blockSize + 1 ∧
      (off / blockSize + 1) * blockSize % blockSize = 0 := by
    simp only [blockSize]
    omega
  cases hc : fs.blockAt n (off / blockSize + 1) with
  | none =>
      have hnone := hbyte 0
      rw [FS.fileByte, hpos.1, hslot, hc] at hnone
      cases hnone
  | some c =>
      refine ⟨c, ?_, rfl⟩
      by_contra hne
      have hcb : (c : Nat) ≠ b := by
        intro heq
        have hcb := Fin.ext heq
        subst hcb
        have hsame := hl.blockAt_inj hb hc
        omega
      -- the byte is out of reach of the store, whatever is stored
      have hkept : ∀ x : UInt8, some (fs.fsData (blockAddr c)) = some x := by
        intro x
        have hx := hbyte x
        rw [FS.fileByte, hpos.1, hpos.2, hslot, hc, Option.map_some, Nat.add_zero] at hx
        rw [← hx]
        have hdata : (fs.put h n b (List.replicate blockSize x)).fsData =
            Memory.store fs.fsData (blockAddr b + off % blockSize) (List.replicate blockSize x) := by
          rw [← hoff]
          rfl
        rw [hdata]
        congr 1
        symm
        simp only [blockAddr, blockSize] at hmod ⊢
        rcases Nat.lt_or_gt_of_ne hcb with hlt | hgt
        · exact Memory.store_of_lt (by omega)
        · exact Memory.store_of_ge (by rw [List.length_replicate]; omega)
      exact absurd ((hkept 0).symm.trans (hkept 1)) (by decide)

/-! ## When a write is right -/

/-- For a thread alone that finds every lock free: for every state whose files have the blocks that
their sizes call for, every open handle inside its file, every length that stays within the direct
blocks and enough free blocks: `tfs_write` returns the length and stores every buffer of that length
at the offset, with no byte changed outside the blocks of the file, exactly where the length is not
a multiple of the block size, or the offset is one, or the length is one block and the next block of
the file is the next block of `fs_data`. -/
theorem direct_write_stores_iff {count : Nat} (hs : BlocksInPlace fs) (hopen : Opens fs h n)
    (hoff : (fs.openFileTable h).ofOffset = off) (hle : off ≤ (fs.inodeTable n).iSize)
    (hpos : 0 < count) (hdirect : off + count ≤ maxDirectBlocks * blockSize)
    (hfree : missing fs n (off / blockSize) (stopBlock (off + count) - off / blockSize) ≤
      (freeList fs).length) :
    (∀ buffer : List UInt8, buffer.length = count → StoresAll fs h n buffer) ↔
      count % blockSize ≠ 0 ∨ off % blockSize = 0 ∨
        count = blockSize ∧ fs.slot n (off / blockSize + 1) = fs.slot n (off / blockSize) + 1 := by
  have hl := hs.toLayout.file hopen.isFile
  have hm := hs.mapped hopen.isFile
  have hne : ∀ buffer : List UInt8, buffer.length = count → buffer ≠ [] := by
    rintro buffer hlen rfl
    exact absurd hlen hpos.ne
  constructor
  · intro hstores
    by_contra hcond
    simp only [not_or, not_and, ne_eq, not_not] at hcond
    rcases hcond with ⟨hmul, hmis, hadj⟩
    by_cases hone : count = blockSize
    · subst hone
      -- the block the offset points into is there
      have hfirst : fs.slot n (off / blockSize) ≠ -1 := by
        refine hm _ (lt_of_lt_of_le (div_lt_stopBlock (Nat.lt_succ_self off)) ?_)
        simp only [stopBlock, blockSize] at hmis ⊢
        omega
      rcases blockAt_of_slot hl hfirst with ⟨b, hb⟩
      rcases adjacent_of_stores hl hopen.refers hoff hle hdirect hmis hb hstores with ⟨c, hc, hcb⟩
      refine hadj rfl ?_
      rw [blockAt_eq_some.mp hb, blockAt_eq_some.mp hcb, hc]
      rfl
    · have hlen : (List.replicate count (0 : UInt8)).length = count := List.length_replicate
      exact short_not_stored hl hopen.refers hoff (hne _ hlen) (hlen.symm ▸ hdirect)
        (hlen.symm ▸ hmul) (hlen.symm ▸ hone) hmis (hstores _ hlen)
  · rintro (hcount | halign | ⟨rfl, hadj⟩) buffer hlen
    · subst hlen
      exact stores_regular hl hm hopen.refers hoff hle (hne _ rfl) hdirect hfree (Or.inl hcount)
    · subst hlen
      exact stores_regular hl hm hopen.refers hoff hle (hne _ rfl) hdirect hfree (Or.inr halign)
    · by_cases halign : off % blockSize = 0
      · exact stores_regular hl hm hopen.refers hoff hle (hne _ hlen) (by rw [hlen]; exact hdirect)
          (by rw [hlen]; exact hfree) (Or.inr halign)
      · have hfirst : fs.slot n (off / blockSize) ≠ -1 := by
          refine hm _ (lt_of_lt_of_le (div_lt_stopBlock (Nat.lt_succ_self off)) ?_)
          simp only [stopBlock, blockSize] at halign ⊢
          omega
        rcases blockAt_of_slot hl hfirst with ⟨b, hb⟩
        have hbslot := blockAt_eq_some.mp hb
        have hsecond : fs.slot n (off / blockSize + 1) ≠ -1 := by
          rw [hadj, hbslot]
          omega
        rcases blockAt_of_slot hl hsecond with ⟨c, hc⟩
        have hcslot := blockAt_eq_some.mp hc
        have hcb : (c : Nat) = b + 1 := by
          rw [hadj, hbslot] at hcslot
          omega
        exact stores_adjacent hl hm hopen.refers hoff hle hlen hdirect halign hb hc hcb

/-- The state in which file 1, of this size, has block 1 only, and handle 0 is open on it. -/
def oneBlockFile (size off : Nat) : FS where
  inodeTable := Function.update initialFS.inodeTable 1
    ⟨.tFile, size, Function.update (fun _ => -1) 0 1, -1⟩
  freeinodeTs := Function.update initialFS.freeinodeTs 1 .taken
  fsData := initialFS.fsData
  freeBlocks := Function.update initialFS.freeBlocks 1 .taken
  openFileTable := Function.update initialFS.openFileTable 0 ⟨1, off⟩
  freeOpenFileEntries := Function.update initialFS.freeOpenFileEntries 0 .taken
  openFilesCount := 1

theorem oneBlockFile_isFile {size : Nat} {m : Fin inodeTableSize} :
    IsFile (oneBlockFile size off) m ↔ m = 1 := by
  constructor
  · rintro ⟨htaken, htype⟩
    by_contra hm
    by_cases hroot : m = 0
    · subst hroot
      simp [oneBlockFile, initialFS, rootInode] at htype
    · simp [oneBlockFile, initialFS, boot, hm, hroot] at htaken
  · rintro rfl
    exact ⟨by simp [oneBlockFile], by simp [oneBlockFile]⟩

theorem oneBlockFile_ref {size : Nat} {r : Ref} (hr : (oneBlockFile size off).ref 1 r ≠ -1) :
    r = .direct 0 ∧ (oneBlockFile size off).ref 1 r = 1 := by
  have htable : (oneBlockFile size off).ref 1 .table = -1 := by
    simp [FS.ref, oneBlockFile]
  cases r with
  | direct i =>
      by_cases hi : i = 0
      · subst hi
        exact ⟨rfl, by simp [FS.ref, oneBlockFile]⟩
      · simp [FS.ref, oneBlockFile, hi] at hr
  | table => exact absurd htable hr
  | entry k => exact absurd (ref_entry_absent htable k) hr

theorem oneBlockFile_inPlace {size : Nat} (hpos : 0 < size) (hsize : size ≤ blockSize) :
    BlocksInPlace (oneBlockFile size off) where
  taken := by
    intro m r hm hr
    rw [oneBlockFile_isFile] at hm
    subst hm
    exact ⟨1, (oneBlockFile_ref hr).2, by simp [oneBlockFile]⟩
  distinct := by
    intro m m' r r' hm hm' hr heq
    rw [oneBlockFile_isFile] at hm hm'
    subst hm hm'
    have hr' := hr
    rw [heq] at hr'
    exact ⟨rfl, (oneBlockFile_ref hr).1.trans (oneBlockFile_ref hr').1.symm⟩
  root := by
    intro m r hm hr
    rw [oneBlockFile_isFile] at hm
    subst hm
    rw [(oneBlockFile_ref hr).2]
    simp [FS.rootRef, oneBlockFile, initialFS, rootInode]
  held := by
    intro m j hm
    rw [oneBlockFile_isFile] at hm
    subst hm
    have hstop : stopBlock ((oneBlockFile size off).inodeTable 1).iSize = 1 := by
      simp only [oneBlockFile, Function.update_self, stopBlock, blockSize] at hsize ⊢
      omega
    rw [hstop]
    constructor
    · intro hslot
      rcases blockRef_of_slot hslot with ⟨r, hplace, hr⟩
      rw [hr] at hslot
      have hfirst : r = .direct 0 := (oneBlockFile_ref hslot).1
      subst hfirst
      rw [blockRef_inj hplace (blockRef_direct (show 0 < maxDirectBlocks by decide))]
      exact Nat.one_pos
    · intro hj
      rw [Nat.lt_one_iff.mp hj, slot_of_ref (blockRef_direct (show 0 < maxDirectBlocks by decide))]
      simp [FS.ref, oneBlockFile]

theorem oneBlockFile_opens {size : Nat} : Opens (oneBlockFile size off) 0 1 :=
  ⟨by simp [oneBlockFile], by simp [oneBlockFile], oneBlockFile_isFile.mpr rfl⟩

theorem missing_le (fs : FS) (n : Fin inodeTableSize) (i count : Nat) :
    missing fs n i count ≤ count := by
  have hle := List.countP_le_length (p := fun j => decide (fs.slot n j = -1))
    (l := List.range' i count)
  rwa [List.length_range'] at hle

/-- Five bytes behind the three of a file. -/
theorem direct_write_stores_five : StoresAll (oneBlockFile 3 3) 0 1 [1, 2, 3, 4, 5] := by
  have hin : BlocksInPlace (oneBlockFile 3 3) := oneBlockFile_inPlace (by decide) (by decide)
  have hoff : ((oneBlockFile 3 3).openFileTable 0).ofOffset = 3 := by simp [oneBlockFile]
  have hfree : stopBlock (3 + 5) - 3 / blockSize ≤ (freeList (oneBlockFile 3 3)).length := by
    decide +kernel
  exact (direct_write_stores_iff hin oneBlockFile_opens hoff (by simp [oneBlockFile]) (by decide)
    (by decide) ((missing_le ..).trans hfree)).mpr (Or.inl (by decide)) [1, 2, 3, 4, 5] rfl

/-- Two blocks written behind the first byte of a file: `tfs_write` does not return their
length. -/
theorem two_blocks_not_stored : ∃ (fs : FS) (h : Fin maxOpenFiles) (n : Fin inodeTableSize)
    (buffer : List UInt8), BlocksInPlace fs ∧ Opens fs h n ∧
      (fs.openFileTable h).ofOffset ≤ (fs.inodeTable n).iSize ∧ buffer ≠ [] ∧
      (fs.openFileTable h).ofOffset + buffer.length ≤ maxDirectBlocks * blockSize ∧
      stopBlock ((fs.openFileTable h).ofOffset + buffer.length) ≤ (freeList fs).length ∧
      ¬ StoresAll fs h n buffer := by
  have hin : BlocksInPlace (oneBlockFile 1 1) := oneBlockFile_inPlace (by decide) (by decide)
  have hfree : 3 ≤ (freeList (oneBlockFile 1 1)).length := by decide +kernel
  have hlen : (List.replicate 2048 (0 : UInt8)).length = 2048 := List.length_replicate
  have hne : List.replicate 2048 (0 : UInt8) ≠ [] := by
    rw [← List.length_pos_iff, hlen]
    decide
  have hoff : ((oneBlockFile 1 1).openFileTable 0).ofOffset = 1 := by simp [oneBlockFile]
  have hsize : ((oneBlockFile 1 1).inodeTable 1).iSize = 1 := by simp [oneBlockFile]
  refine ⟨oneBlockFile 1 1, 0, 1, List.replicate 2048 0, hin, oneBlockFile_opens,
    by rw [hoff, hsize], hne, by rw [hoff, hlen]; decide, by rw [hoff, hlen]; exact hfree, ?_⟩
  exact short_not_stored (hin.toLayout.file oneBlockFile_opens.isFile) oneBlockFile_opens.refers
    hoff hne (by rw [hlen]; decide) (by rw [hlen]; decide) (by rw [hlen]; decide) (by decide)

end TecnicoFS.Part1
