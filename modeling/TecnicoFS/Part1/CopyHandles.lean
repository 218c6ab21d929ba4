import TecnicoFS.Part1.CopyOut
import TecnicoFS.Part1.Sizes

/-!
# Part 1: the handle of `tfs_copy_to_external_fs`

The source is opened first, and only the last exit of the function closes it: where `fopen` or
`malloc` fails, a read fails or `fwrite` takes less than it is given, the handle stays taken
(`copy_keeps_handles_iff`).
-/

namespace TecnicoFS.Part1

open Threads Threads.Prog
open Part2 (Call Ret validPathname hasFlag tfsOCreat blockSize dataBlocks inodeTableSize
  maxOpenFiles blockAddr dataBlockGet getOpenFileEntry inodeGet)

variable {fs fs' : FS} {n : Fin inodeTableSize} {h : Fin maxOpenFiles} {i : Nat} {env : Outside}
  {name : CString}

/-- The same handles are taken, and the counter has the same value. -/
def SameHandles (fs fs' : FS) : Prop :=
  fs'.freeOpenFileEntries = fs.freeOpenFileEntries ∧ fs'.openFilesCount = fs.openFilesCount

/-- A read finds block `i` of the file. -/
def FindsBlock (fs : FS) (n : Fin inodeTableSize) (i : Nat) : Prop :=
  ∃ b, ((readBlock n i).eval fs).map Prod.fst = some (some b)

/-- Block `i` of the file is found, and `fwrite` takes all of its bytes. -/
def CopiesBlock (env : Outside) (fs : FS) (n : Fin inodeTableSize) (i : Nat) : Prop :=
  0 < fs.inBlock n i → FindsBlock fs n i ∧ fs.inBlock n i ≤ env.fwrite i

/-- A copy that leaves no handle behind: there is none to open, or nothing fails after the open. -/
inductive LeavesNoHandle (env : Outside) (fs : FS) (name : CString) : Prop
  | absent : (∀ n : Fin inodeTableSize, (tfsLookup name).eval fs ≠ some (((n : Nat) : Int), fs)) →
      LeavesNoHandle env fs name
  | full : (∀ h, fs.freeOpenFileEntries h = .taken) → LeavesNoHandle env fs name
  | copied (n : Fin inodeTableSize) : (tfsLookup name).eval fs = some (((n : Nat) : Int), fs) →
      env.fopen = true → env.malloc = true → (∀ i, CopiesBlock env fs n i) →
      LeavesNoHandle env fs name

/-! ## The loop -/

theorem SameStore.readBlock (hs : SameStore fs fs') :
    ((readBlock n i).eval fs').map Prod.fst = ((readBlock n i).eval fs).map Prod.fst := by
  have hint : fs'.intAt = fs.intAt := by
    funext a
    rw [FS.intAt, FS.intAt, hs.data]
  have hread : ∀ (f : FS → Option (Fin dataBlocks)) (s : FS),
      ((Prog.read f : Op _).eval s).map Prod.fst = some (f s) := fun _ _ => rfl
  rw [Part1.readBlock]
  split
  · rw [hread, hread, hs.inodes]
  · simp only [bind_eq, pure_eq, eval_read, hs.inodes]
    cases dataBlockGet (fs.inodeTable n).iIndirectDataBlock with
    | none => rfl
    | some table =>
        dsimp only
        split
        · rfl
        · rw [hread, hread, hint]

theorem SameStore.copiesBlock (hs : SameStore fs fs') {j : Nat} :
    CopiesBlock env fs' n j ↔ CopiesBlock env fs n j := by
  rw [CopiesBlock, CopiesBlock, FindsBlock, FindsBlock, hs.readBlock, FS.inBlock, FS.inBlock,
    hs.inodes]

theorem seek_sameStore (offset : Nat) : SameStore fs (fs.seek h offset) := ⟨rfl, rfl, rfl, rfl⟩

theorem give_sameStore (inumber : Int) (offset : Nat) :
    SameStore fs (fs.give h inumber offset) := ⟨rfl, rfl, rfl, rfl⟩

/-- Behind the last block there is nothing to copy. -/
theorem inBlock_behind {j : Nat} (hend : fs.inBlock n i < blockSize) (hlt : i < j) :
    fs.inBlock n j = 0 := by
  simp only [FS.inBlock, blockSize] at hend ⊢
  omega

/-- A read outside `fs_data` does not return. -/
theorem copyLoop_crash {fuel call : Nat} {copied : List UInt8}
    (hn : (fs.openFileTable h).ofInumber = ((n : Nat) : Int))
    (hoff : (fs.openFileTable h).ofOffset = i * blockSize)
    (hle : i * blockSize ≤ (fs.inodeTable n).iSize) (hsize : (fs.inodeTable n).iSize < wordSize)
    (hpos : 0 < fs.inBlock n i) (hread : (readBlock n i).eval fs = none) :
    (copyLoop env ((h : Nat) : Int) (fuel + 1) call copied).eval fs = none := by
  rw [copyLoop, bind_eq, eval_bind, tfsRead_aligned hn hoff hle hsize hpos, readLoop, bind_eq,
    eval_bind, hread]
  rfl

/-- The loop copies all exactly if every block from its own on is found and taken by `fwrite`,
and it only moves the handle. -/
theorem copyLoop_outcome {fuel : Nat} {copied out : List UInt8} {all : Bool}
    (hn : (fs.openFileTable h).ofInumber = ((n : Nat) : Int))
    (hoff : (fs.openFileTable h).ofOffset = i * blockSize)
    (hle : i * blockSize ≤ (fs.inodeTable n).iSize) (hsize : (fs.inodeTable n).iSize < wordSize)
    (heval : (copyLoop env ((h : Nat) : Int) fuel i copied).eval fs =
      some (some (all, out), fs')) :
    (all = true ↔ ∀ j, i ≤ j → CopiesBlock env fs n j) ∧ ∃ offset, fs' = fs.seek h offset := by
  induction fuel generalizing i fs copied with
  | zero => cases heval
  | succ fuel ih =>
      have hself : ∃ offset, fs = fs.seek h offset := ⟨_, (FS.seek_self fs h).symm⟩
      by_cases hend : fs.inBlock n i = 0
      -- nothing left: the condition is void from here on
      · rw [copyLoop_end hn hoff hle hsize hend] at heval
        cases heval
        refine ⟨iff_of_true rfl fun j hj hpos => ?_, hself⟩
        rcases Nat.eq_or_lt_of_le hj with rfl | hlt
        · omega
        · rw [inBlock_behind (by rw [hend]; decide) hlt] at hpos
          omega
      · have hpos : 0 < fs.inBlock n i := Nat.pos_of_ne_zero hend
        cases hread : (readBlock n i).eval fs with
        | none =>
            rw [copyLoop_crash hn hoff hle hsize hpos hread] at heval
            cases heval
        | some found =>
            rcases found with ⟨block, fs₁⟩
            cases readBlock_state hread
            cases block with
            | none =>
                rw [copyLoop_missing hn hoff hle hsize hpos hread] at heval
                cases heval
                refine ⟨iff_of_false (by simp) fun hall => ?_, hself⟩
                rcases (hall i (le_refl i) hpos).1 with ⟨b, hb⟩
                rw [hread] at hb
                cases hb
            | some b =>
                have hfinds : FindsBlock fs n i := ⟨b, by rw [hread]; rfl⟩
                rw [copyLoop_block hn hoff hle hsize hpos hread] at heval
                split at heval
                -- `fwrite` takes less than was read
                · next hshort =>
                    cases heval
                    refine ⟨iff_of_false (by simp) fun hall => ?_, _, rfl⟩
                    exact absurd hshort (not_lt.mpr (hall i (le_refl i) hpos).2)
                · next htaken =>
                    have hthis : CopiesBlock env fs n i := fun _ => ⟨hfinds, not_lt.mp htaken⟩
                    split at heval
                    · next hwhole =>
                        rcases seek_next hn hle hwhole with ⟨hnext, hle₁, hn₁⟩
                        rw [hwhole, hnext] at heval
                        rcases ih hn₁ (FS.seek_offset _ _ _) hle₁ hsize heval with
                          ⟨hiff, offset, hseek⟩
                        refine ⟨hiff.trans ⟨fun hall j hj => ?_, fun hall j hj => ?_⟩, offset, ?_⟩
                        · rcases Nat.eq_or_lt_of_le hj with rfl | hlt
                          · exact hthis
                          · exact (seek_sameStore _).copiesBlock.mp (hall j hlt)
                        · exact (seek_sameStore _).copiesBlock.mpr (hall j (Nat.le_of_succ_le hj))
                        · rw [hseek, FS.seek_seek]
                    -- a block that is not whole is the last one
                    · next hpart =>
                        cases heval
                        refine ⟨iff_of_true rfl fun j hj => ?_, _, rfl⟩
                        rcases Nat.eq_or_lt_of_le hj with rfl | hlt
                        · exact hthis
                        · intro hposj
                          have hless := lt_of_le_of_ne inBlock_le.2 hpart
                          rw [inBlock_behind hless hlt] at hposj
                          omega

/-! ## The call -/

/-- A handle that is given out and not given back. -/
theorem not_sameHandles (hfree : fs.freeOpenFileEntries h = .free) (inumber : Int) (offset : Nat) :
    ¬ SameHandles fs ((fs.give h inumber 0).seek h offset) := by
  rintro ⟨hmarks, -⟩
  have hmark := congrFun hmarks h
  rw [hfree] at hmark
  simp [FS.give, FS.seek] at hmark

/-- Where there is nothing to open, nothing is opened. -/
theorem copy_absent {fuel : Nat} {out : Int × List UInt8}
    (hnone : ∀ n : Fin inodeTableSize, (tfsLookup name).eval fs ≠ some (((n : Nat) : Int), fs))
    (heval : (tfsCopyToExternalFs env name fuel).eval fs = some (some out, fs')) : fs' = fs := by
  rw [tfsCopyToExternalFs, bind_eq, eval_bind] at heval
  rcases Option.bind_eq_some_iff.mp heval with ⟨⟨r, fs₁⟩, hopen, hrest⟩
  have hfailed : r = -1 ∧ fs₁ = fs := by
    rw [tfsOpen] at hopen
    split at hopen
    · simp only [bind_eq, pure_eq, eval_lock] at hopen
      rw [eval_bind] at hopen
      rcases Option.bind_eq_some_iff.mp hopen with ⟨⟨inum, fs₂⟩, hlookup, hopen⟩
      cases tfsLookup_state hlookup
      split at hopen
      · next hpos =>
          -- a number that is none of an i-node ends the thread
          have hindex : index? inodeTableSize inum = none := by
            cases hindex : index? inodeTableSize inum with
            | none => rfl
            | some n =>
                rw [index?_eq_some.mp hindex] at hlookup
                exact absurd hlookup (hnone n)
          rw [openExisting, hindex] at hopen
          cases hopen
      · rw [if_neg (by decide)] at hopen
        cases hopen
        exact ⟨rfl, rfl⟩
    · cases hopen
      exact ⟨rfl, rfl⟩
  rcases hfailed with ⟨rfl, rfl⟩
  dsimp only at hrest
  rw [if_pos rfl] at hrest
  cases hrest
  rfl

/-- Once the source is open, the handle is given back exactly where nothing fails. -/
theorem opened_sameHandles_iff {fuel : Nat} {out : Int × List UInt8}
    (hsize : (fs.inodeTable n).iSize < wordSize) (hfree : fs.freeOpenFileEntries h = .free)
    (hopen : (tfsOpen name 0).eval fs = some (((h : Nat) : Int), fs.give h ((n : Nat) : Int) 0))
    (heval : (tfsCopyToExternalFs env name fuel).eval fs = some (some out, fs')) :
    SameHandles fs fs' ↔ (env.fopen = true ∧ env.malloc = true) ∧ ∀ i, CopiesBlock env fs n i := by
  have hn : ((fs.give h ((n : Nat) : Int) 0).openFileTable h).ofInumber = ((n : Nat) : Int) := by
    simp [FS.give]
  have hoff : ((fs.give h ((n : Nat) : Int) 0).openFileTable h).ofOffset = 0 := by
    simp [FS.give]
  rw [copy_opened hopen] at heval
  split at heval
  · next hboth =>
      rw [eval_bind] at heval
      rcases Option.bind_eq_some_iff.mp heval with ⟨⟨outcome, fs₁⟩, hloop, hfinish⟩
      cases outcome with
      | none => cases hfinish
      | some outcome =>
          rcases outcome with ⟨all, copied⟩
          rcases copyLoop_outcome hn (hoff.trans (Nat.zero_mul blockSize).symm)
            (by rw [Nat.zero_mul]; exact Nat.zero_le _) hsize hloop with ⟨hiff, offset, rfl⟩
          have hall : all = true ↔ ∀ i, CopiesBlock env fs n i := by
            rw [hiff]
            simp only [Nat.zero_le, true_implies, (give_sameStore _ _).copiesBlock]
          cases all with
          | false =>
              cases hfinish
              refine iff_of_false (not_sameHandles hfree _ _) fun hleaves => ?_
              cases hall.mpr hleaves.2
          | true =>
              dsimp only at hfinish
              rw [finishCopy_all] at hfinish
              cases hfinish
              exact iff_of_true (giveBack_marks hfree _) ⟨hboth, hall.mp rfl⟩
  -- without `fopen` or `malloc` the handle is never given back
  · next hfails =>
      cases heval
      refine iff_of_false ?_ fun hleaves => hfails hleaves.1
      have hself := FS.seek_self (fs.give h ((n : Nat) : Int) 0) h
      rw [← hself]
      exact not_sameHandles hfree _ _

theorem leavesNoHandle_iff (hlookup : (tfsLookup name).eval fs = some (((n : Nat) : Int), fs))
    (hfree : fs.freeOpenFileEntries h = .free) : LeavesNoHandle env fs name ↔
      (env.fopen = true ∧ env.malloc = true) ∧ ∀ i, CopiesBlock env fs n i := by
  constructor
  · intro hleaves
    cases hleaves with
    | absent hnone => exact absurd hlookup (hnone n)
    | full hfull =>
        rw [hfull h] at hfree
        cases hfree
    | copied n' hlookup' hfopen hmalloc hall =>
        rw [hlookup] at hlookup'
        have hnumber : ((n : Nat) : Int) = ((n' : Nat) : Int) :=
          (Prod.mk.inj (Option.some.inj hlookup')).1
        have hsame : n' = n := Fin.ext (by omega)
        exact ⟨⟨hfopen, hmalloc⟩, hsame ▸ hall⟩
  · rintro ⟨⟨hfopen, hmalloc⟩, hall⟩
    exact .copied n hlookup hfopen hmalloc hall

/-- In every state of every run, and however the calls outside the file system end: where
`tfs_copy_to_external_fs` returns, the handles are as before exactly if there was nothing to open
or nothing failed after the open. -/
theorem copy_keeps_handles_iff {ok : Machine.Guard FS Call Ret} {tr : Machine.Trace Call Ret}
    {fuel : Nat} {out : Int × List UInt8} (hreach : machine.Reach ok (tr, fs))
    (heval : (tfsCopyToExternalFs env name fuel).eval fs = some (some out, fs')) :
    SameHandles fs fs' ↔ LeavesNoHandle env fs name := by
  by_cases hfound :
      ∃ n : Fin inodeTableSize, (tfsLookup name).eval fs = some (((n : Nat) : Int), fs)
  · rcases hfound with ⟨n, hlookup⟩
    rcases tfsOpen_source hlookup with ⟨h, hfree, hopen⟩ | ⟨hfull, hopen⟩
    · rw [leavesNoHandle_iff hlookup hfree]
      exact opened_sameHandles_iff (Reach.sizesFit hreach n) hfree hopen heval
    · rw [tfsCopyToExternalFs, bind_eq, eval_bind, hopen, Option.bind_some, if_pos rfl] at heval
      cases heval
      exact iff_of_true ⟨rfl, rfl⟩ (.full hfull)
  · have hnone : ∀ n : Fin inodeTableSize,
        (tfsLookup name).eval fs ≠ some (((n : Nat) : Int), fs) := fun n hn => hfound ⟨n, hn⟩
    rw [copy_absent hnone heval]
    exact iff_of_true ⟨rfl, rfl⟩ (.absent hnone)

/-- A copy of `/a` to a path that `fopen` refuses. -/
theorem refused_copy (fuel : Nat) : ∃ tr fs fs', machine.Reach (fun _ _ _ => True) (tr, fs) ∧
    fs.freeOpenFileEntries 1 = .free ∧
    (tfsLookup pathA).eval fs = some ((((1 : Fin inodeTableSize) : Nat) : Int), fs) ∧
    (tfsCopyToExternalFs ⟨false, true, fun _ => blockSize⟩ pathA fuel).eval fs =
      some (some (-1, []), fs') := by
  have hrun : (machine.exec initialFS (.open pathA 1)).map
      (fun out : Ret × FS => decide (out.2.freeOpenFileEntries 1 = .free ∧
        ((tfsLookup pathA).eval out.2).map Prod.fst = some 1)) = some true := by
    decide +kernel
  rcases Option.map_eq_some_iff.mp hrun with ⟨⟨r, fs⟩, hexec, hfacts⟩
  rcases of_decide_eq_true hfacts with ⟨hfree, hfound⟩
  rcases Option.map_eq_some_iff.mp hfound with ⟨⟨inum, fs₁⟩, hlookup, rfl⟩
  cases tfsLookup_state hlookup
  rw [← machine_init] at hexec
  have hreach : machine.Reach (fun _ _ _ => True) (_, fs) := Machine.Reach.start.step trivial hexec
  rcases tfsOpen_source (n := 1) hlookup with ⟨h, -, hopen⟩ | ⟨hfull, -⟩
  · exact ⟨_, fs, _, hreach, hfree, hlookup, by rw [copy_opened hopen, if_neg (by decide)]⟩
  · rw [hfull 1] at hfree
    cases hfree

theorem copy_keeps_handles_refused : ∃ tr fs fs', machine.Reach (fun _ _ _ => True) (tr, fs) ∧
    (SameHandles fs fs' ↔ LeavesNoHandle ⟨false, true, fun _ => blockSize⟩ fs pathA) := by
  rcases refused_copy 1 with ⟨tr, fs, fs', hreach, -, -, heval⟩
  exact ⟨tr, fs, fs', hreach, copy_keeps_handles_iff hreach heval⟩

/-- Where `fopen` fails, the handle of the source stays taken. -/
theorem refused_copy_keeps_handle : ¬ ∀ env tr fs name fuel out fs',
    machine.Reach (fun _ _ _ => True) (tr, fs) →
    (tfsCopyToExternalFs env name fuel).eval fs = some (some out, fs') → SameHandles fs fs' := by
  intro hevery
  rcases refused_copy 1 with ⟨tr, fs, fs', hreach, hfree, hlookup, heval⟩
  have hsame := hevery _ tr fs pathA 1 _ fs' hreach heval
  rcases tfsOpen_source (n := 1) hlookup with ⟨h, hfreeh, hopen⟩ | ⟨hfull, -⟩
  · rw [opened_sameHandles_iff (Reach.sizesFit hreach 1) hfreeh hopen heval] at hsame
    cases hsame.1.1
  · rw [hfull 1] at hfree
    cases hfree

end TecnicoFS.Part1
