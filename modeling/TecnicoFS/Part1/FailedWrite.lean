import TecnicoFS.Part1.LockedRuns

/-!
# Part 1: writes that fail

A write that runs out of blocks on the way returns -1 and undoes nothing: the blocks it took, the
bytes it stored and the offset it reached stay. So -1 means that nothing happened only where
there was no free block at all and the first block of the write was missing.
-/

namespace TecnicoFS.Part1

open Threads Threads.Prog
open Part2 (Call Ret blockSize dataBlocks inodeTableSize maxOpenFiles blockAddr dataBlockGet
  getOpenFileEntry)

variable {fs fs' : FS} {n m : Fin inodeTableSize} {h : Fin maxOpenFiles} {buffer : List UInt8}
  {off count : Nat} {tr : Machine.Trace Call Ret}

/-- The file, the offset and the marks of the blocks are as before. -/
structure Unchanged (h : Fin maxOpenFiles) (n : Fin inodeTableSize) (fs fs' : FS) : Prop where
  contents : fs'.contents n = fs.contents n
  size : (fs'.inodeTable n).iSize = (fs.inodeTable n).iSize
  offset : (fs'.openFileTable h).ofOffset = (fs.openFileTable h).ofOffset
  taken : fs'.freeBlocks = fs.freeBlocks

/-- The first `count` bytes of the buffer are stored at the offset, and no others. -/
structure StoresFirst (h : Fin maxOpenFiles) (n : Fin inodeTableSize) (buffer : List UInt8)
    (count : Nat) (fs fs' : FS) : Prop where
  le : count ≤ buffer.length
  written : ∀ p, (fs.openFileTable h).ofOffset ≤ p → p < (fs.openFileTable h).ofOffset + count →
    fs'.fileByte n p = buffer[p - (fs.openFileTable h).ofOffset]?
  others : ∀ p, p < (fs.openFileTable h).ofOffset ∨ (fs.openFileTable h).ofOffset + count ≤ p →
    fs.fileByte n p ≠ none → fs'.fileByte n p = fs.fileByte n p
  offset : (fs'.openFileTable h).ofOffset = (fs.openFileTable h).ofOffset + count

/-- A write returns -1 and changes nothing, or it returns the number of bytes it stored. -/
def AllOrNothing (fs : FS) (h : Fin maxOpenFiles) (n : Fin inodeTableSize)
    (buffer : List UInt8) : Prop :=
  ∃ r fs', (tfsWrite ((h : Nat) : Int) buffer).eval fs = some (r, fs') ∧
    (r = -1 → Unchanged h n fs fs') ∧
    (r ≠ -1 → ∃ count : Nat, r = (count : Int) ∧ StoresFirst h n buffer count fs fs')

/-- The free blocks suffice for the write, or there is none and the first block of the write is
missing. -/
def Suffices (fs : FS) (h : Fin maxOpenFiles) (n : Fin inodeTableSize)
    (buffer : List UInt8) : Prop :=
  let off := (fs.openFileTable h).ofOffset
  lacks fs n (off / blockSize) (stopBlock (off + planned off buffer.length)) ≤
      (freeList fs).length ∨
    freeList fs = [] ∧ fs.slot n (off / blockSize) = -1

/-! ## The write -/

/-- Without free blocks a write that stores nothing changes nothing. -/
theorem Wrote.unchanged (hw : Wrote h n off [] fs fs') (hl' : FileLayout fs' n)
    (hoff : (fs.openFileTable h).ofOffset = off)
    (hfree : freeList fs = []) : Unchanged h n fs fs' := by
  have hnone : ∀ b, fs.freeBlocks b ≠ .free := by
    intro b hb
    have hmem := mem_freeList.mpr hb
    rw [hfree] at hmem
    exact List.not_mem_nil hmem
  -- no block is free, so no place of the file has got one
  have href : fs'.ref n = fs.ref n := by
    funext r
    by_cases hr : fs.ref n r = -1
    · by_contra hne
      rcases hl'.taken r (fun heq => hne (heq.trans hr.symm)) with ⟨b, hb, -⟩
      exact hnone b (hw.fresh r b hr hb)
    · exact hw.kept r hr
  have hsize : (fs'.inodeTable n).iSize = (fs.inodeTable n).iSize := hw.size
  constructor
  · rw [FS.contents, FS.contents, hsize]
    apply List.map_congr_left
    intro p _
    cases hbyte : fs.fileByte n p with
    | none =>
        rw [FS.fileByte, Option.map_eq_none_iff] at hbyte
        rw [FS.fileByte, blockAt_congr href, hbyte]
        rfl
    | some x =>
        have hsame := hw.bytes p (by rw [List.length_nil]; omega) (by rw [hbyte]; simp)
        rw [hsame, hbyte]
  · exact hsize
  · rw [hw.offset, hoff]
    rfl
  · funext b
    have htaken : fs.freeBlocks b = .taken := by
      have hb := hnone b
      rwa [Ne, eq_free_iff, not_not] at hb
    rw [htaken, hw.marks]
    exact Or.inl htaken

theorem Ended.storesFirst {i stop planned : Nat}
    (he : Ended h n off i stop planned buffer count fs fs') (hle : planned ≤ buffer.length)
    (hoff : (fs.openFileTable h).ofOffset = off) : StoresFirst h n buffer count fs fs' := by
  have hcount := he.le
  have hlen : (buffer.take count).length = count := List.length_take_of_le (by omega)
  constructor
  · omega
  · intro p hlo hhi
    rw [hoff] at hlo hhi ⊢
    have hbyte := he.wrote.written p hlo (by rw [hlen]; exact hhi)
    rwa [List.getElem?_take_of_lt (by omega)] at hbyte
  · intro p hp hbyte
    rw [hoff] at hp
    exact he.wrote.bytes p (by rw [hlen]; exact hp) hbyte
  · rw [he.wrote.offset, hlen, hoff]

theorem WriteOk.word (hok : WriteOk fs h n buffer) :
    (fs.openFileTable h).ofOffset + buffer.length < wordSize := by
  have hlimit := hok.limit
  simp only [maxFileSize, maxFileBlocks, maxDirectBlocks, tableSize, blockSize] at hlimit
  simp only [wordSize]
  omega

/-- A write of no bytes stores none. -/
theorem allOrNothing_nil (hn : (fs.openFileTable h).ofInumber = ((n : Nat) : Int)) :
    AllOrNothing fs h n [] := by
  refine ⟨0, fs, tfsWrite_empty hn, fun heq => absurd heq (by decide), fun _ => ⟨0, rfl, ?_⟩⟩
  refine ⟨le_refl _, fun p hlo hhi => ?_, fun p _ _ => rfl, rfl⟩
  omega

/-- A write that runs into none of the other defects. -/
theorem WriteOk.allOrNothing (hc : Consistent fs)
    (hn : (fs.openFileTable h).ofInumber = ((n : Nat) : Int)) (hfile : IsFile fs n)
    (hok : WriteOk fs h n buffer) : AllOrNothing fs h n buffer ↔ Suffices fs h n buffer := by
  rcases hok.eval hc hn hfile rfl with ⟨count, fs', heval, hended, -, -⟩
  rw [AllOrNothing, Suffices]
  generalize hoff : (fs.openFileTable h).ofOffset = off at heval hended ⊢
  have hword := hok.word
  rw [hoff] at hword
  have hpos : 0 < planned off buffer.length :=
    planned_pos hword (List.length_pos_iff.mpr hok.nonempty)
  have hle : planned off buffer.length ≤ buffer.length := Nat.min_le_left ..
  have hcount := hended.le
  constructor
  · rintro ⟨r, fs'', heval', hfailed, -⟩
    rw [heval] at heval'
    cases heval'
    by_contra hnot
    rw [not_or] at hnot
    -- the write failed, and nothing was stored
    have hshort : count ≠ planned off buffer.length := fun heq => hnot.1 (hended.enough.mp heq)
    have hsame := hfailed (if_neg hshort)
    have hzero : count = 0 := by
      have hoffset := hended.wrote.offset
      rw [hsame.offset, List.length_take_of_le (by omega), hoff] at hoffset
      omega
    have hlacks := hended.nothing.mp hzero
    have hempty : freeList fs = [] := by
      rw [← freeList_congr hsame.taken]
      exact hended.exhausted hshort
    refine hnot.2 ⟨hempty, ?_⟩
    by_contra hslot
    rw [lacks_one, if_neg hslot, if_neg (not_needsTable hslot)] at hlacks
    omega
  · rintro (henough | ⟨hempty, hmissing⟩)
    · have hfull := hended.enough.mpr henough
      refine ⟨_, fs', heval, fun hminus => ?_, fun _ => ⟨count, if_pos hfull, ?_⟩⟩
      · rw [if_pos hfull] at hminus
        omega
      · exact hended.storesFirst hle hoff
    · have hzero : count = 0 := by
        rw [hended.nothing, lacks_one, if_pos hmissing, hempty, List.length_nil]
        omega
      have hfailed : count ≠ planned off buffer.length := by omega
      have hwrote := hended.wrote
      rw [hzero, List.take_zero] at hwrote
      refine ⟨_, fs', heval, fun _ => hwrote.unchanged hended.layout hoff hempty, fun hvalue => ?_⟩
      exact absurd (if_neg hfailed) hvalue

/-- In every run of opens, closes, reads and writes that write something and run into none of the
other defects, no lock is left. There a write that is none of these defects' either, or of nothing,
leaves the file, the offset and the marks of the blocks as they were where it fails, and otherwise
returns the number of bytes it stored, exactly where the free blocks suffice for it, or there is
none and its first block is missing. -/
theorem all_or_nothing_iff {held : List (Lock × Mode)}
    (hreach : lockMachine.Reach (Returning (Writes WriteOk)) (tr, fs, held))
    (hn : (fs.openFileTable h).ofInumber = ((n : Nat) : Int)) (hfile : IsFile fs n)
    (hok : buffer = [] ∨ WriteOk fs h n buffer) :
    held = [] ∧ (AllOrNothing fs h n buffer ↔ buffer = [] ∨ Suffices fs h n buffer) := by
  rcases Reach.unlocked hreach with ⟨hheld, hreach⟩
  refine ⟨hheld, ?_⟩
  by_cases hbuffer : buffer = []
  · subst hbuffer
    exact iff_of_true (allOrNothing_nil hn) (Or.inl rfl)
  · have hc := Reach.consistent hreach fun _ _ _ _ hok => hok
    rw [or_iff_right hbuffer]
    exact (hok.resolve_left hbuffer).allOrNothing hc hn hfile

/-- Two bytes behind the three of a file. -/
theorem all_or_nothing_two : ∃ tr fs,
    lockMachine.Reach (Returning (Writes WriteOk)) (tr, fs, []) ∧
      (fs.openFileTable 0).ofOffset = 3 ∧ AllOrNothing fs 0 1 [4, 5] := by
  have hplay : (lockMachine.play (fun tr s c => Writes DirectOk tr s.1 c ∧ NonEmptyWrite c)
      ([], initialFS, []) [.open pathA 1, .write 0 [1, 2, 3]]).map
      (fun cfg : Machine.Trace Call Ret × Left => decide (
        cfg.2.1.openFileTable 0 = ⟨1, 3⟩ ∧ IsFile cfg.2.1 1 ∧ lacks cfg.2.1 1 0 1 = 0 ∧
        cfg.2.2 = [])) = some true := by
    decide +kernel
  rcases Option.map_eq_some_iff.mp hplay with ⟨⟨tr, fs, held⟩, hplay, hfacts⟩
  rcases of_decide_eq_true hfacts with ⟨hentry, hfile, hlacks, hheld⟩
  cases hheld
  have hreach := reach_locked hplay
  have hok : DirectOk fs 0 1 [4, 5] := by
    refine ⟨List.cons_ne_nil _ _, ?_, ?_⟩
    · rw [hentry]
      decide
    · rw [hentry]
      decide
  refine ⟨tr, fs, hreach, by rw [hentry], ?_⟩
  refine (all_or_nothing_iff hreach (by rw [hentry]; rfl) hfile (Or.inr hok.writeOk)).2.mpr ?_
  refine Or.inr (Or.inl ?_)
  rw [hentry]
  exact (le_of_eq hlacks).trans (Nat.zero_le _)

/-! ## A run out of blocks -/

/-- The contents of a file of the largest size. -/
def wholeFile : List UInt8 := List.replicate maxFileSize 0

theorem wholeFile_length : wholeFile.length = maxFileSize := List.length_replicate

theorem planned_wholeFile : planned 0 wholeFile.length = maxFileSize := by
  rw [wholeFile_length, planned_eq (by decide) (Or.inr (by decide))]

theorem stopBlock_wholeFile : stopBlock (0 + planned 0 wholeFile.length) = maxFileBlocks := by
  rw [planned_wholeFile]
  rfl

section

variable {k : Nat} (hfree : freeList fs = (List.finRange dataBlocks).drop k)
  (habsent : ∀ r, fs.ref n r = -1)

include habsent

/-- A file of the largest size takes 267 blocks. -/
theorem lacks_wholeFile : lacks fs n 0 maxFileBlocks = maxFileBlocks + 1 := by
  rw [lacks, missing_all habsent, if_pos ⟨habsent .table, by decide⟩, Nat.sub_zero]

include hfree

/-- Where only the first blocks are taken, a new file can be written to the largest size. -/
theorem wholeFile_ok (hc : Consistent fs) (hoff : (fs.openFileTable h).ofOffset = 0)
    (hk : k + 13 < dataBlocks) : WriteOk fs h n wholeFile := by
  constructor
  · rw [← List.length_pos_iff, wholeFile_length]
    decide
  · rw [hoff, wholeFile_length]
    decide
  · rw [hoff, wholeFile_length]
    decide
  · rw [hoff, stopBlock_wholeFile]
    refine HarmlessTable.of_free hc fun t ht => ?_
    rw [Nat.zero_div, newTable, if_pos ⟨habsent .table, by decide⟩, missing_all habsent, hfree,
      List.getElem?_drop] at ht
    rcases List.getElem?_eq_some_iff.mp ht with ⟨hlt, heq⟩
    rw [List.getElem_finRange] at heq
    have hval : (t : Nat) = k + 10 := by
      rw [← heq]
      rfl
    refine ⟨by omega, fun c hlt => mem_freeList.mp ?_⟩
    rw [hfree, List.mem_drop_iff_getElem]
    have hc := c.isLt
    have hlt' : (t : Nat) < c := hlt
    refine ⟨c - k, ?_, ?_⟩
    · rw [List.length_finRange]
      omega
    · rw [List.getElem_finRange]
      apply Fin.ext
      simp
      omega

end

/-- The handles and the i-nodes of four files. -/
def handleOf (i : Fin 4) : Fin maxOpenFiles := i.castLE (by decide)
def inodeOf (i : Fin 4) : Fin inodeTableSize := i.succ.castLE (by decide)

/-- Of four open files those from `j` on have no blocks yet, and of the blocks those from `k` on
are free. -/
structure Remaining (fs : FS) (k j : Nat) : Prop where
  free : freeList fs = (List.finRange dataBlocks).drop k
  opens : ∀ i : Fin 4, j ≤ i → Opens fs (handleOf i) (inodeOf i)
  offset : ∀ i : Fin 4, j ≤ i → (fs.openFileTable (handleOf i)).ofOffset = 0
  absent : ∀ i : Fin 4, j ≤ i → ∀ r, fs.ref (inodeOf i) r = -1

theorem handleOf_ne {i i' : Fin 4} (hi : i' ≠ i) : handleOf i' ≠ handleOf i :=
  fun heq => hi (Fin.castLE_injective _ heq)

theorem inodeOf_ne {i i' : Fin 4} (hi : i' ≠ i) : inodeOf i' ≠ inodeOf i :=
  fun heq => hi (Fin.succ_injective _ (Fin.castLE_injective _ heq))

/-- The next of the files is written to the largest size. -/
theorem Remaining.step {k : Nat} {i : Fin 4} (hreach : machine.Reach (Writes WriteOk) (tr, fs))
    (hrem : Remaining fs k i) (hk : k + (maxFileBlocks + 1) ≤ dataBlocks) :
    ∃ tr' fs', machine.Reach (Writes WriteOk) (tr', fs') ∧
      Remaining fs' (k + (maxFileBlocks + 1)) (i + 1) := by
  have hc := Reach.consistent hreach fun _ _ _ _ hok => hok
  have hopen := hrem.opens i (le_refl _)
  have hoff := hrem.offset i (le_refl _)
  have habsent := hrem.absent i (le_refl _)
  have hok : WriteOk fs (handleOf i) (inodeOf i) wholeFile := by
    refine wholeFile_ok hrem.free habsent hc hoff ?_
    simp only [maxFileBlocks, maxDirectBlocks, tableSize, blockSize] at hk
    omega
  rcases hok.eval hc hopen.refers hopen.isFile hoff with ⟨count, fs', heval, hended, hspill, -⟩
  rw [Nat.zero_div, stopBlock_wholeFile] at hended
  have hlacks := lacks_wholeFile habsent
  -- the blocks that are left are enough for one more whole file
  have hfull : count = planned 0 wholeFile.length := by
    rw [hended.enough, hlacks, hrem.free, List.length_drop, List.length_finRange]
    omega
  have hw := hended.wrote
  have hexec : machine.exec fs (.write (((handleOf i : Fin maxOpenFiles) : Nat) : Int) wholeFile) =
      some (⟨(count : Int), []⟩, fs') := by
    rw [if_pos hfull] at heval
    change (exec (.write _ wholeFile)).eval fs = _
    rw [exec, bind_eq, eval_bind, heval]
    rfl
  refine ⟨_, fs', hreach.step ?_ hexec, ?_⟩
  · intro h hh
    have hhandle : getOpenFileEntry (((handleOf i : Fin maxOpenFiles) : Nat) : Int) =
        some (handleOf i) := index?_natCast _
    rw [hhandle] at hh
    cases hh
    exact ⟨inodeOf i, hopen.refers, hopen.isFile, Or.inr hok⟩
  -- the later files are others, with handles of their own
  · have hne : ∀ i' : Fin 4, (i : Nat) + 1 ≤ i' → i' ≠ i := by
      rintro i' hi' rfl
      omega
    constructor
    · rw [hended.free hfull, hlacks, hrem.free, List.drop_drop]
    · intro i' hi'
      have hold := hrem.opens i' (by omega)
      refine ⟨?_, ?_, hw.rest.isFile.mpr hold.isFile⟩
      · rw [hw.rest.handles]
        exact hold.taken
      · rw [hw.handle, Function.update_of_ne (handleOf_ne (hne i' hi'))]
        exact hold.refers
    · intro i' hi'
      rw [hw.handle, Function.update_of_ne (handleOf_ne (hne i' hi'))]
      exact hrem.offset i' (by omega)
    · intro i' hi' r
      have hold := hrem.opens i' (by omega)
      rw [hw.ref_other hc hopen.isFile hspill hold.isFile (inodeOf_ne (hne i' hi'))]
      exact hrem.absent i' (by omega) r

theorem remaining_start : ∃ tr fs, machine.Reach (Writes WriteOk) (tr, fs) ∧
    Remaining fs 1 0 := by
  have hrun : (machine.run initialFS
      [.open pathA 1, .open pathB 1, .open pathC 1, .open pathD 1]).map
      (fun out : List Ret × FS => decide (
        (∀ b : Fin dataBlocks, out.2.freeBlocks b = .free ↔ 1 ≤ (b : Nat)) ∧
        ∀ i, out.2.freeOpenFileEntries (handleOf i) = .taken ∧
          out.2.openFileTable (handleOf i) = ⟨((inodeOf i : Nat) : Int), 0⟩ ∧
          IsFile out.2 (inodeOf i) ∧ (∀ j, (out.2.inodeTable (inodeOf i)).iDataBlock j = -1) ∧
          (out.2.inodeTable (inodeOf i)).iIndirectDataBlock = -1)) = some true := by
    decide +kernel
  rcases Option.map_eq_some_iff.mp hrun with ⟨⟨results, fs⟩, hrun, hfacts⟩
  rcases of_decide_eq_true hfacts with ⟨hfree, hfiles⟩
  have hstart : machine.Reach (Writes WriteOk) ([], initialFS) := by
    rw [← machine_init]
    exact Machine.Reach.start
  rcases hstart.run (fun tr s c hc => by
    simp only [List.mem_cons, List.not_mem_nil, or_false] at hc
    rcases hc with rfl | rfl | rfl | rfl
    all_goals trivial) hrun with ⟨tr, hreach⟩
  refine ⟨tr, fs, hreach, freeList_eq_drop hfree, fun i _ => ?_, fun i _ => ?_, fun i _ => ?_⟩
  · rcases hfiles i with ⟨htaken, hentry, hfile, -⟩
    exact ⟨htaken, by rw [hentry], hfile⟩
  · rw [(hfiles i).2.1]
  · rcases hfiles i with ⟨-, -, -, hdirect, htable⟩
    exact ref_none hdirect htable

/-- Three files of the largest size take 801 of the 1023 blocks. A fourth one gets as far as the
blocks last, and the failed call keeps them. -/
theorem failed_write_keeps_blocks : ∃ (tr : Machine.Trace Call Ret) (fs : FS)
    (h : Fin maxOpenFiles) (n : Fin inodeTableSize) (buffer : List UInt8),
    machine.Reach (Writes WriteOk) (tr, fs) ∧ Opens fs h n ∧ ¬ AllOrNothing fs h n buffer := by
  rcases remaining_start with ⟨tr₀, fs₀, hreach₀, hrem₀⟩
  rcases hrem₀.step (i := 0) hreach₀ (by decide) with ⟨tr₁, fs₁, hreach₁, hrem₁⟩
  rcases hrem₁.step (i := 1) hreach₁ (by decide) with ⟨tr₂, fs₂, hreach₂, hrem₂⟩
  rcases hrem₂.step (i := 2) hreach₂ (by decide) with ⟨tr, fs, hreach, hrem⟩
  have hc := Reach.consistent hreach fun _ _ _ _ hok => hok
  have hopen := hrem.opens 3 (le_refl _)
  have hoff := hrem.offset 3 (le_refl _)
  have habsent := hrem.absent 3 (le_refl _)
  have hok : WriteOk fs (handleOf 3) (inodeOf 3) wholeFile :=
    wholeFile_ok hrem.free habsent hc hoff (by decide)
  refine ⟨tr, fs, handleOf 3, inodeOf 3, wholeFile, hreach, hopen, ?_⟩
  rw [hok.allOrNothing hc hopen.refers hopen.isFile, Suffices, hoff, stopBlock_wholeFile,
    Nat.zero_div, lacks_wholeFile habsent, hrem.free, List.length_drop, List.length_finRange]
  rintro (henough | ⟨hempty, -⟩)
  · exact absurd henough (by decide)
  · have hlen := congrArg List.length hempty
    rw [List.length_drop, List.length_finRange] at hlen
    exact absurd hlen (by decide)

end TecnicoFS.Part1
