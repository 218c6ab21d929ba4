import TecnicoFS.Part1.Runs

/-!
# Part 1: what growing into the indirect block touches

A write changes its own file only, as long as a new indirect block is filled over no block in
use. The loop that fills it counts numbers where it should count bytes, and so runs over the
three blocks behind it.
-/

namespace TecnicoFS.Part1

open Threads Threads.Prog
open Part2 (Call Ret blockSize dataBlocks inodeTableSize maxOpenFiles blockAddr dataBlockGet)

variable {fs fs' : FS} {n : Fin inodeTableSize} {h : Fin maxOpenFiles} {buffer : List UInt8}
  {tr : Machine.Trace Call Ret}

/-- The write starts at a block boundary. -/
def Aligned : WriteCondition := fun fs h _ _ => (fs.openFileTable h).ofOffset % blockSize = 0

/-- The write starts at a block boundary and runs into none of the defects. -/
def AlignedOk : WriteCondition := fun fs h n buffer =>
  Aligned fs h n buffer ∧ WriteOk fs h n buffer

/-- The blocks and the block maps of the other files and the root directory are as before. -/
structure LeavesOthers (n : Fin inodeTableSize) (fs fs' : FS) : Prop where
  inodes : ∀ m, m ≠ n → fs'.inodeTable m = fs.inodeTable m
  maps : ∀ m, IsFile fs m → m ≠ n → fs'.ref m = fs.ref m
  blocks : ∀ m b, IsFile fs m → m ≠ n → fs.Owns m b → SameBlock fs fs' b
  root : ∀ b : Fin dataBlocks, fs.rootRef = ((b : Nat) : Int) → SameBlock fs fs' b

/-- `tfs_write` stays inside `fs_data` and leaves the other files and the root directory
alone. -/
def TouchesItself (fs : FS) (h : Fin maxOpenFiles) (n : Fin inodeTableSize)
    (buffer : List UInt8) : Prop :=
  ∃ r fs', (tfsWrite ((h : Nat) : Int) buffer).eval fs = some (r, fs') ∧ LeavesOthers n fs fs'

/-- In every run of opens, closes, reads and block-aligned writes of which each writes nothing or
stays within the largest size and fills a new indirect block over no block in use: every such
write leaves the blocks and the block maps of the other files and the root directory alone and
stays inside `fs_data`. -/
theorem aligned_write_touches_itself (hreach : machine.Reach (Writes AlignedOk) (tr, fs))
    (hn : (fs.openFileTable h).ofInumber = ((n : Nat) : Int)) (hfile : IsFile fs n)
    (hok : AlignedOk fs h n buffer) : TouchesItself fs h n buffer := by
  have hc := Reach.consistent hreach fun _ _ _ _ hok => hok.2
  rcases hok.2.eval hc hn hfile rfl with ⟨count, fs', heval, hended, hspill, -⟩
  have hw := hended.wrote
  refine ⟨_, fs', heval, ?_⟩
  constructor
  · exact hw.rest.others
  · intro m hm hmn
    exact hw.ref_other hc hfile hspill hm hmn
  · intro m b hm hmn hb
    exact hw.same_other hc hfile hspill hm hmn hb
  · intro b hb
    exact hw.same_root hc hfile hspill hb

/-- A new indirect block is filled over the two blocks behind it, whoever they belong to. -/
theorem growth_fills {off : Nat} {t b c : Fin dataBlocks} {bs : List (Fin dataBlocks)} {x : UInt8}
    (hn : (fs.openFileTable h).ofInumber = ((n : Nat) : Int))
    (hoff : (fs.openFileTable h).ofOffset = off) (haligned : off % blockSize = 0)
    (hfirst : maxDirectBlocks ≤ off / blockSize) (hlast : off / blockSize < maxFileBlocks)
    (habsent : fs.ref n .table = -1) (hfree : freeList fs = t :: b :: bs)
    (hin : (t : Nat) + 3 < dataBlocks) (htc : t < c) (hct : (c : Nat) ≤ t + 2) (hcb : c ≠ b) :
    ∃ r fs', (tfsWrite ((h : Nat) : Int) [x]).eval fs = some (r, fs') ∧
      ∀ y < blockSize, fs'.fsData (blockAddr c + y) = 255 := by
  have hword : off + 1 < wordSize := by
    simp only [maxFileBlocks, maxDirectBlocks, tableSize, blockSize, wordSize] at hlast ⊢
    omega
  have hend : endBlock off 1 = off / blockSize + 1 := by
    rw [endBlock_eq hword]
    simp only [blockSize] at haligned ⊢
    split <;> omega
  have hcount : 4 * tableSize ≤ 4 * (blockSize - maxDirectBlocks) ∧
      4 * (blockSize - maxDirectBlocks) ≤ 4 * blockSize := by decide
  have ht : fs.freeBlocks t = .free := mem_freeList.mp (hfree ▸ List.mem_cons_self)
  have htable := table_takes hcount habsent ht
  -- the indirect block reaches over the two blocks behind it
  have hfill : ∀ y < blockSize,
      (fs.growTable n t (blockSize - maxDirectBlocks)).fsData (blockAddr c + y) = 255 := by
    intro y hy
    have hlen : (List.replicate (4 * (blockSize - maxDirectBlocks)) (255 : UInt8)).length =
        4 * (blockSize - maxDirectBlocks) := List.length_replicate
    have hidx : blockAddr c + y - blockAddr t <
        (List.replicate (4 * (blockSize - maxDirectBlocks)) (255 : UInt8)).length := by
      have htc' : (t : Nat) < c := htc
      rw [hlen]
      simp only [blockAddr, blockSize, maxDirectBlocks] at hy ⊢
      omega
    have hstore := Memory.store_add hidx (m := fs.fsData) (a := blockAddr t)
    rw [List.getElem_replicate] at hstore
    have haddr : blockAddr t + (blockAddr c + y - blockAddr t) = blockAddr c + y := by
      have htc' : (t : Nat) < c := htc
      simp only [blockAddr, blockSize]
      omega
    rw [haddr] at hstore
    exact hstore
  rcases blockRef_entry hfirst hlast with ⟨k, hk, -⟩
  have hnew := writeIndirectTable_new habsent hfree hin
  generalize fs.growTable n t (blockSize - maxDirectBlocks) = fs₁ at htable hfill hnew
  have hentry : fs₁.ref n (.entry k) = -1 := by
    rw [htable.ref_of_ne (by simp), ref_entry_absent habsent]
  have hfree₁ : freeList fs₁ = b :: bs := freeList_take hfree htable.marks
  rcases writeIndirect_eval hk hnew htable.ref_self with ⟨fs₂, hblock, hfilled⟩ | ⟨-, -, hnone⟩
  · rcases hfilled with ⟨hpresent, -⟩ | ⟨b', bs', hfree', htakes⟩
    · exact absurd hentry hpresent
    · rw [hfree₁] at hfree'
      cases hfree'
      rw [htakes.ref_self, dataBlockGet_natCast] at hblock
      have hwrite : (writeBlock n (off / blockSize)).eval fs = some (some b, fs₂) := by
        rw [writeBlock, dif_neg (by omega), hblock]
      have hoff₂ : (fs₂.openFileTable h).ofOffset = off := by
        rw [htakes.handle, htable.handle, hoff]
      have hfit : off % blockSize + [x].length ≤ blockSize := by
        rw [haligned, List.length_singleton]
        decide
      refine ⟨wordToInt (0 + 1), fs₂.put h n b [x], ?_, fun y hy => ?_⟩
      · rw [tfsWrite_loop hn hoff (List.cons_ne_nil x []), List.length_singleton, hend,
          Nat.add_sub_cancel_left, writeLoop_last hwrite hoff₂ hfit,
          List.length_singleton]
      · rw [put_frame (hoff₂.symm ▸ hfit) hcb y hy]
        have hct' : fs₂.ref n .table ≠ ((c : Nat) : Int) := by
          rw [htakes.ref_of_ne (by simp), htable.ref_self]
          intro heq
          have htc' : (t : Nat) < c := htc
          omega
        have hspill : ¬ Spilled fs₁ fs₂ n c :=
          not_spilled_of_table (htakes.ref_of_ne (by simp))
        rw [htakes.same c hct' hspill y hy, hfill y hy]
  · rw [hfree₁] at hnone
    cases hnone

/-- Eleven blocks written to a new file. -/
theorem aligned_write_touches_itself_new : ∃ tr fs, machine.Reach (Writes AlignedOk) (tr, fs) ∧
    newTable fs 1 0 11 = some 11 ∧
      TouchesItself fs 0 1 (List.replicate (11 * blockSize) 7) := by
  rcases reach_opened AlignedOk with ⟨tr, fs, hreach, hopen, hoff, hinode, hfree⟩
  have hc := Reach.consistent hreach fun _ _ _ _ hok => hok.2
  have hlen : (List.replicate (11 * blockSize) (7 : UInt8)).length = 11 * blockSize :=
    List.length_replicate
  have habsent : ∀ r, fs.ref 1 r = -1 :=
    ref_none (fun i => by rw [hinode]) (by rw [hinode])
  have hmarks : ∀ b : Fin dataBlocks, fs.freeBlocks b = .free ↔ 1 ≤ (b : Nat) := by
    intro b
    by_cases hb : b = 0
    · subst hb
      rw [hc.rootBlock]
      simp
    · have hpos : (b : Nat) ≠ 0 := fun heq => hb (Fin.ext heq)
      exact iff_of_true (hfree b hb) (by omega)
  have hnew : newTable fs 1 0 11 = some 11 := by
    rw [newTable, if_pos ⟨habsent .table, by decide⟩, missing_all habsent, freeList_eq_drop hmarks,
      List.getElem?_drop, List.getElem?_eq_getElem (by rw [List.length_finRange]; decide),
      List.getElem_finRange]
    rfl
  have haligned : Aligned fs 0 1 (List.replicate (11 * blockSize) 7) := by
    rw [Aligned, hoff]
    rfl
  refine ⟨tr, fs, hreach, hnew,
    aligned_write_touches_itself hreach hopen.refers hopen.isFile ⟨haligned, ?_⟩⟩
  have hplan : planned 0 (11 * blockSize) = 11 * blockSize :=
    planned_eq (by decide) (Or.inr (by decide))
  constructor
  · rw [← List.length_pos_iff, hlen]
    decide
  · rw [hoff, hlen]
    decide
  · rw [hoff, hlen]
    decide
  · rw [hoff, hlen, hplan]
    refine HarmlessTable.of_free hc fun t ht => ?_
    rw [show 0 / blockSize = 0 from rfl, show stopBlock (0 + 11 * blockSize) = 11 from rfl, hnew]
      at ht
    cases ht
    refine ⟨by decide, fun c hlt => hfree c ?_⟩
    rintro rfl
    exact absurd hlt (Fin.not_lt_zero _)

instance (fs : FS) (h : Fin maxOpenFiles) (n : Fin inodeTableSize) (buffer : List UInt8) :
    Decidable (Aligned fs h n buffer) := inferInstanceAs (Decidable (_ = _))

/-- The file `/b` has blocks 1 to 10, blocks 11 and 12 were those of `/a`, and block 13 is that of
`/c`. When `/b` grows, its indirect block is block 11, and filling it runs over block 13. -/
theorem growth_overwrites : ∃ tr fs, machine.Reach (Writes Aligned) (tr, fs) ∧ Opens fs 1 2 ∧
    Aligned fs 1 2 [7] ∧ ¬ TouchesItself fs 1 2 [7] := by
  have hplay : (machine.play (Writes Aligned) ([], initialFS)
      [.open pathA 1, .open pathB 1, .open pathC 1, .write 1 (List.replicate 10240 1),
        .write 0 (List.replicate 1025 2), .write 2 [3], .open pathA 2]).map
      (fun cfg : Machine.Trace Call Ret × FS => decide (
        cfg.2.freeOpenFileEntries 1 = .taken ∧ cfg.2.openFileTable 1 = ⟨2, 10240⟩ ∧
        IsFile cfg.2 2 ∧ IsFile cfg.2 3 ∧ (cfg.2.inodeTable 3).iDataBlock 0 = 13 ∧
        (cfg.2.inodeTable 2).iIndirectDataBlock = -1 ∧
        (freeList cfg.2).take 2 = [11, 12] ∧ cfg.2.fsData (13 * 1024) = 3)) = some true := by
    decide +kernel
  rcases Option.map_eq_some_iff.mp hplay with ⟨⟨tr, fs⟩, hplay, hfacts⟩
  rcases of_decide_eq_true hfacts with
    ⟨htaken, hentry, hfile, hother, hslot, htable, hfree, hbyte⟩
  have hreach : machine.Reach (Writes Aligned) (tr, fs) := by
    refine Machine.Reach.play ?_ hplay
    rw [← machine_init]
    exact Machine.Reach.start
  have hopen : Opens fs 1 2 := ⟨htaken, by rw [hentry]; rfl, hfile⟩
  have hoff : (fs.openFileTable 1).ofOffset = 10240 := by rw [hentry]
  have haligned : Aligned fs 1 2 [7] := by
    rw [Aligned, hoff]
    rfl
  refine ⟨tr, fs, hreach, hopen, haligned, ?_⟩
  rintro ⟨r, fs', heval, hleaves⟩
  -- the next free block is the new indirect block, and block 13 behind it holds a byte
  have hlist : freeList fs = 11 :: 12 :: (freeList fs).drop 2 := by
    have happend := List.take_append_drop 2 (freeList fs)
    rw [hfree, List.cons_append, List.cons_append, List.nil_append] at happend
    exact happend.symm
  rcases growth_fills (x := 7) hopen.refers hoff (by decide) (by decide) (by decide) htable hlist
    (c := 13) (by decide) (by decide) (by decide) (by decide) with ⟨r', fs'', heval', hfilled⟩
  rw [heval] at heval'
  cases heval'
  have hsame := hleaves.blocks 3 13 hother (by decide) ⟨.direct 0, hslot⟩ 0 (by decide)
  rw [hfilled 0 (by decide)] at hsame
  exact absurd (hsame.trans hbyte) (by decide)

end TecnicoFS.Part1
