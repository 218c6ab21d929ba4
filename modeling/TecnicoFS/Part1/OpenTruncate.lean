import TecnicoFS.Part1.TableGrowth
import TecnicoFS.Part1.LockedRuns

/-!
# Part 1: truncation and the free blocks

As long as no file with blocks behind its indirect block is truncated, the blocks that are taken
are exactly those that a file or the root directory refers to (`NoLeak`): a write takes the
blocks it puts in its file, and a truncation gives back what it takes out (`GivesAllBack`).
`tfs_open` with `TFS_O_TRUNC` does what it should exactly for the files it can give back whole.
-/

namespace TecnicoFS.Part1

open Threads Threads.Prog
open Part2 (Call Ret hasFlag tfsOTrunc blockSize dataBlocks inodeTableSize maxOpenFiles)

variable {fs fs' : FS} {n m : Fin inodeTableSize} {h : Fin maxOpenFiles} {name : CString}
  {flags : BitVec 32} {b : Fin dataBlocks} {tr : Machine.Trace Call Ret}

/-- Every block that is taken belongs to a file or to the root directory. -/
def NoLeak (fs : FS) : Prop := ∀ b, fs.freeBlocks b = .taken → InUse fs b

/-- A truncation finds a block in every place that it gives back, and leaves none behind with the
indirect block. -/
structure GivesAllBack (fs : FS) (n : Fin inodeTableSize) : Prop where
  there : Truncates fs n
  nothingBehind : maxDirectBlocks ≤ fs.truncated n → ∀ k, fs.ref n (.entry k) = -1

/-- A file that is truncated can be given back whole. -/
def TruncatesWhole (fs : FS) : Call → Prop
  | .open name flags => hasFlag flags tfsOTrunc = true →
      ∀ n : Fin inodeTableSize, (tfsLookup name).eval fs = some (((n : Nat) : Int), fs) →
        GivesAllBack fs n
  | _ => True

/-- The calls of runs in which no write runs into one of the defects of `tfs_write` and every file
that is truncated can be given back whole. -/
def WholeTruncations : Machine.Guard FS Call Ret := fun tr fs c =>
  Writes WriteOk tr fs c ∧ TruncatesWhole fs c

/-- What a truncating `tfs_open` should do: the handle is at the start of the empty file, the other
files are as before, each block is given back once, and the blocks that are taken are those of the
files and the root directory. -/
structure OpensEmpty (n : Fin inodeTableSize) (h : Fin maxOpenFiles) (fs fs' : FS) : Prop where
  handle : Opens fs' h n
  unused : fs.freeOpenFileEntries h = .free
  offset : (fs'.openFileTable h).ofOffset = 0
  size : (fs'.inodeTable n).iSize = 0
  others : LeavesOthers n fs fs'
  once : ∀ r r', GivenBack (fs.truncated n) r → GivenBack (fs.truncated n) r' →
    fs.ref n r = fs.ref n r' → r = r'
  exact : ∀ b, fs'.freeBlocks b = .taken ↔ InUse fs' b

/-! ## What is taken is in use -/

/-- What the files and the root directory have, they still have. -/
theorem InUse.mono (hfile : ∀ m, IsFile fs m → IsFile fs' m)
    (hmap : ∀ m, IsFile fs m → fs'.ref m = fs.ref m) (hroot : fs'.rootRef = fs.rootRef)
    (hb : InUse fs b) : InUse fs' b := by
  rcases hb with ⟨m, hm, r, hr⟩ | hb
  · refine Or.inl ⟨m, hfile m hm, r, ?_⟩
    rw [hmap m hm, hr]
  · exact Or.inr (hroot.trans hb)

theorem SameStore.ref (hs : SameStore fs fs') (m : Fin inodeTableSize) :
    fs'.ref m = fs.ref m :=
  ref_congr (by rw [hs.inodes]) (by rw [hs.inodes]) fun _ _ _ _ => by rw [hs.data]

theorem SameStore.noLeak (hs : SameStore fs fs') (hl : NoLeak fs) : NoLeak fs' := by
  intro b hb
  rw [hs.marks] at hb
  refine (hl b hb).mono (fun m => hs.isFile.mpr) (fun m _ => hs.ref m) ?_
  rw [FS.rootRef, FS.rootRef, hs.inodes]

/-- A write takes the blocks that it puts in its file. -/
theorem Wrote.noLeak {off : Nat} {data : List UInt8} (hc : Consistent fs) (hn : IsFile fs n)
    (hw : Wrote h n off data fs fs') (hspill : ∀ b, Spilled fs fs' n b → ¬ InUse fs b)
    (hl : NoLeak fs) : NoLeak fs' := by
  intro b hb
  rcases (hw.marks b).mp hb with htaken | hown
  · rcases hl b htaken with ⟨m, hm, hown⟩ | hroot
    · by_cases hmn : m = n
      · subst hmn
        exact Or.inl ⟨m, hw.rest.isFile.mpr hm, hw.owns hown⟩
      · rcases hown with ⟨r, hr⟩
        refine Or.inl ⟨m, hw.rest.isFile.mpr hm, r, ?_⟩
        rw [hw.ref_other hc hn hspill hm hmn, hr]
    · right
      rw [FS.rootRef, hw.rest.others 0 (hn.ne_root hc).symm]
      exact hroot
  · exact Or.inl ⟨n, hw.rest.isFile.mpr hn, hown⟩

theorem Creates.noLeak {o : Option (Int × Nat)} (hc : Consistent fs) (hcreates : Creates fs o fs')
    (hl : NoLeak fs) : NoLeak fs' := by
  -- the i-node that is set up belonged to no file, nor to the root directory
  have hother : ∀ n, fs.freeinodeTs n = .free → (∀ m, IsFile fs m → m ≠ n) ∧ n ≠ 0 := by
    intro n hfree
    constructor
    · rintro m hm rfl
      rw [hm.1] at hfree
      cases hfree
    · rintro rfl
      rw [hc.rootTaken] at hfree
      cases hfree
  cases hcreates with
  | full => exact hl
  | undone n hfree =>
      rcases hother n hfree with ⟨hfiles, hzero⟩
      have hinode : ∀ m, m ≠ n →
          ((fs.newFile n).setInodeState n .free).inodeTable m = fs.inodeTable m :=
        fun m hm => newFile_other hm
      refine fun b hb => (hl b hb).mono (fun m hm => ?_) (fun m hm => ?_) ?_
      · rw [IsFile, newFile_states hfree, hinode m (hfiles m hm)]
        exact hm
      · exact ref_congr (by rw [hinode m (hfiles m hm)]) (by rw [hinode m (hfiles m hm)])
          fun _ _ _ _ => rfl
      · rw [FS.rootRef, FS.rootRef, hinode 0 hzero.symm]
  | created n i subName hfree _ =>
      rcases hother n hfree with ⟨hfiles, hzero⟩
      refine fun b hb => (hl b hb).mono (fun m hm => enter_isFile.mpr (Or.inr hm))
        (fun m hm => enter_ref_other hc hm (hfiles m hm)) ?_
      rw [FS.rootRef, FS.rootRef, enter_inodeTable, newFile_other hzero.symm]

/-! ## A truncation -/

/-- A place that is not given back holds what it held, unless its indirect block is gone. -/
theorem Emptied.ref_kept {r : Ref} (he : Emptied n fs fs') (hr : ¬ GivenBack (fs.truncated n) r)
    (hentry : ∀ k, r = .entry k → ¬ maxDirectBlocks ≤ fs.truncated n) :
    fs'.ref n r = fs.ref n r := by
  cases r with
  | direct i => simp only [FS.ref, he.inode, emptied, if_neg (show ¬ (i : Nat) < _ from hr)]
  | table => simp only [FS.ref, he.inode, emptied, if_neg (show ¬ maxDirectBlocks ≤ _ from hr)]
  | entry k => simp only [FS.ref, he.inode, emptied, if_neg (hentry k rfl), FS.intAt, he.fsData]

/-- The indirect block takes its entries along. -/
theorem Emptied.ref_entry (he : Emptied n fs fs') (hten : maxDirectBlocks ≤ fs.truncated n)
    (k : Fin tableSize) : fs'.ref n (.entry k) = -1 :=
  ref_entry_absent (he.ref_back (r := .table) hten) k

theorem Emptied.rootRef (hc : Consistent fs) (hn : IsFile fs n) (he : Emptied n fs fs') :
    fs'.rootRef = fs.rootRef := by
  rw [FS.rootRef, FS.rootRef, he.other (hn.ne_root hc).symm]

/-- A file that is given back whole leaves no block behind. -/
theorem Emptied.noLeak (hc : Consistent fs) (hn : IsFile fs n) (he : Emptied n fs fs')
    (hback : GivesAllBack fs n) (hl : NoLeak fs) : NoLeak fs' := by
  intro b hb
  rcases (he.marks b).mp hb with ⟨htaken, hkept⟩
  rcases hl b htaken with ⟨m, hm, r, hr⟩ | hroot
  · refine Or.inl ⟨m, he.isFile.mpr hm, r, ?_⟩
    by_cases hmn : m = n
    · subst hmn
      rw [he.ref_kept (fun hgiven => hkept r hgiven hr), hr]
      rintro k rfl hten
      rw [hback.nothingBehind hten k] at hr
      exact natCast_ne_absent b hr.symm
    · rw [he.ref_other hmn, hr]
  · exact Or.inr ((he.rootRef hc hn).trans hroot)

/-- A block behind the indirect block of a truncated file is taken and belongs to nothing. -/
theorem Emptied.leaks (hc : Consistent fs) (hn : IsFile fs n) (he : Emptied n fs fs')
    (hten : maxDirectBlocks ≤ fs.truncated n) {k : Fin tableSize}
    (hk : fs.ref n (.entry k) ≠ -1) : ∃ b, fs'.freeBlocks b = .taken ∧ ¬ InUse fs' b := by
  rcases hc.layout.taken n (.entry k) hn hk with ⟨b, hb, htaken⟩
  have hplace : ∀ r, fs.ref n r = ((b : Nat) : Int) → r = .entry k := fun r hr =>
    ((hc.layout.file hn).distinct (.entry k) r hk (hb.trans hr.symm)).symm
  refine ⟨b, (he.marks b).mpr ⟨htaken, ?_⟩, ?_⟩
  · intro r hgiven hr
    rw [hplace r hr] at hgiven
    exact hgiven
  · rintro (⟨m, hm, r, hr⟩ | hroot)
    · by_cases hmn : m = n
      · subst hmn
        have hsame := he.ref_self.resolve_left (hr ▸ natCast_ne_absent b)
        rw [hplace r (hsame.symm.trans hr), he.ref_entry hten k] at hr
        exact natCast_ne_absent b hr.symm
      · rw [he.ref_other hmn] at hr
        exact hmn (hc.layout.owner_unique (he.isFile.mp hm) hn ⟨r, hr⟩ ⟨.entry k, hb⟩)
    · rw [he.rootRef hc hn] at hroot
      exact hc.layout.not_root hn ⟨.entry k, hb⟩ hroot

/-! ## Runs -/

theorem initialFS_noLeak : NoLeak initialFS := by
  intro b hb
  by_cases hzero : b = 0
  · subst hzero
    exact Or.inr rfl
  · simp [initialFS, boot, hzero] at hb

theorem Given.sameStore {inumber r : Int} {offset : Nat} (hg : Given fs inumber offset r fs') :
    SameStore fs fs' := by
  cases hg with
  | full _ => exact SameStore.refl fs
  | handle h _ => exact ⟨rfl, rfl, rfl, rfl⟩

/-- What `tfs_open` does to the blocks. -/
theorem tfsOpen_noLeak {r : Int} (hc : Consistent fs)
    (hguard : TruncatesWhole fs (.open name flags))
    (heval : (tfsOpen name flags).eval fs = some (r, fs')) (hl : NoLeak fs) : NoLeak fs' := by
  rcases tfsOpen_split hc heval with ⟨-, rfl⟩ | ⟨-, o, fs₁, hopened, hend⟩
  · exact hl
  · have hl₁ : NoLeak fs₁ := by
      cases hopened with
      | «opens» hpos hlookup hexisting =>
          rcases tfsLookup_eval hc name with ⟨inum, hlookup', hfound⟩
          rw [hlookup] at hlookup'
          cases hlookup'
          rcases hfound with rfl | ⟨n, rfl, hn⟩
          · exact absurd hpos (by decide)
          · rcases openExisting_opensFile hc hn hexisting with ⟨offset, -, hfile⟩
            cases hfile with
            | kept _ => exact hl
            | emptied _ hflag _ he => exact he.noLeak hc hn (hguard hflag n hlookup) hl
      | creates _ _ hcreated =>
          rcases openCreated_named hc name with ⟨o', fs₂, hcreated', hnamed⟩
          rw [hcreated] at hcreated'
          cases hcreated'
          exact hnamed.creates.noLeak hc hl
    cases o with
    | none => exact hend.2 ▸ hl₁
    | some file =>
        change Given fs₁ file.1 file.2 r fs' at hend
        exact hend.sameStore.noLeak hl₁

/-- In every state of such a run the blocks that are taken belong to files or to the root
directory. -/
theorem WholeTruncations.noLeak (hreach : machine.Reach WholeTruncations (tr, fs)) :
    Consistent fs ∧ NoLeak fs := by
  refine hreach.invariant (P := fun _ fs => Consistent fs ∧ NoLeak fs) ?_ ?_
  · rw [machine_init]
    exact ⟨initialFS_consistent, initialFS_noLeak⟩
  · rintro tr fs c r fs' ⟨hc, hl⟩ ⟨hguard, hwhole⟩ hexec
    refine ⟨(exec_changes hc hguard hexec).consistent hc fun _ _ _ _ => id, ?_⟩
    rcases open_or_other c with ⟨name, flags, rfl⟩ | hother
    · exact tfsOpen_noLeak hc hwhole (exec_open hexec) hl
    · rcases exec_without_open hc hguard hother hexec with
        ⟨hsame, -⟩ | ⟨h, n, buffer, r', hn, hfile, hok, heval⟩
      · exact hsame.noLeak hl
      · rcases hok.eval hc hn hfile rfl with ⟨count, fs₁, heval', hended, hspill, -⟩
        rw [heval] at heval'
        cases heval'
        exact hended.wrote.noLeak hc hfile hspill hl

/-! ## The truncating open -/

/-- The call where all places that are given back hold a block and a handle is free. -/
theorem tfsOpen_emptied (hc : Consistent fs) (hn : IsFile fs n)
    (hlookup : (tfsLookup name).eval fs = some (((n : Nat) : Int), fs))
    (hflag : hasFlag flags tfsOTrunc = true) (hfree : ∃ h, fs.freeOpenFileEntries h = .free)
    (hok : Truncates fs n) : ∃ h fs₁, fs.freeOpenFileEntries h = .free ∧ Emptied n fs fs₁ ∧
      (tfsOpen name flags).eval fs =
        some (((h : Nat) : Int), fs₁.give h ((n : Nat) : Int) 0) := by
  rcases truncate_ok (hc.layout.file hn) hok with ⟨fs₁, htrunc, he⟩
  rw [tfsOpen_existing hlookup, eval_bind, openExisting_trunc hflag htrunc,
    startOffset_emptied he, Option.bind_some]
  rcases addToOpenFileTable_eval fs₁ ((n : Nat) : Int) 0 with ⟨r, fs₂, hadd, hgiven⟩
  cases hgiven with
  | full hfull =>
      rcases hfree with ⟨h, hh⟩
      rw [← he.handleStates, hfull h] at hh
      cases hh
  | handle h hh =>
      rw [he.handleStates] at hh
      exact ⟨h, fs₁, hh, he, hadd⟩

theorem tfsOpen_trunc_crash (hc : Consistent fs) (hn : IsFile fs n)
    (hlookup : (tfsLookup name).eval fs = some (((n : Nat) : Int), fs))
    (hflag : hasFlag flags tfsOTrunc = true) (hno : ¬ Truncates fs n) :
    (tfsOpen name flags).eval fs = none := by
  rw [tfsOpen_existing hlookup, eval_bind,
    openExisting_crash hflag (truncate_crash (hc.layout.file hn) hno)]
  rfl

theorem give_inUse {inumber : Int} {offset : Nat} :
    InUse (fs.give h inumber offset) b ↔ InUse fs b := Iff.rfl

/-- A file that is given back whole. -/
theorem Emptied.opensEmpty (hc : Consistent fs) (hn : IsFile fs n) (he : Emptied n fs fs')
    (hfree : fs.freeOpenFileEntries h = .free) (hback : GivesAllBack fs n) (hl : NoLeak fs) :
    OpensEmpty n h fs (fs'.give h ((n : Nat) : Int) 0) where
  handle := by
    refine ⟨?_, ?_, he.isFile.mpr hn⟩
    · simp [FS.give]
    · simp [FS.give]
  unused := hfree
  offset := by simp [FS.give]
  size := he.size
  others :=
    { inodes := fun m hm => he.other hm
      maps := fun m _ hm => he.ref_other hm
      blocks := fun _ _ _ _ _ x _ => congrFun he.fsData _
      root := fun _ _ x _ => congrFun he.fsData _ }
  once r r' hr _ heq := (hc.layout.file hn).distinct r r' (hback.there r hr) heq
  exact b := by
    rw [give_inUse]
    exact ⟨he.noLeak hc hn hback hl b, fun hb => hb.taken (he.consistent hc hn)⟩

/-- In every state of a run whose writes write something and run into none of the defects of
`tfs_write`, and whose truncations could give their files back whole, no lock is left. There a
truncating open of an existing file, with a handle free, empties the file and only that, and leaves
exactly the referenced blocks taken, if and only if the file can be given back whole. -/
theorem truncation_exact_iff {held : List (Lock × Mode)}
    (hreach : lockMachine.Reach (Returning WholeTruncations) (tr, fs, held))
    (hlookup : (tfsLookup name).eval fs = some (((n : Nat) : Int), fs))
    (hflag : hasFlag flags tfsOTrunc = true) (hfree : ∃ h, fs.freeOpenFileEntries h = .free) :
    held = [] ∧ ((∃ (h : Fin maxOpenFiles) (fs' : FS), (tfsOpen name flags).eval fs =
      some (((h : Nat) : Int), fs') ∧ OpensEmpty n h fs fs') ↔ GivesAllBack fs n) := by
  rcases Reach.unlocked hreach with ⟨hheld, hreach⟩
  refine ⟨hheld, ?_⟩
  rcases WholeTruncations.noLeak hreach with ⟨hc, hl⟩
  have hn : IsFile fs n := by
    rcases tfsLookup_eval hc name with ⟨inum, hlookup', hfound⟩
    rw [hlookup] at hlookup'
    cases hlookup'
    rcases hfound with hnone | ⟨k, hk, hfile⟩
    · omega
    · have hsame : n = k := Fin.ext (by omega)
      exact hsame ▸ hfile
  constructor
  · rintro ⟨h, fs', heval, hempty⟩
    have hok : Truncates fs n := by
      by_contra hno
      rw [tfsOpen_trunc_crash hc hn hlookup hflag hno] at heval
      cases heval
    refine ⟨hok, fun hten k => ?_⟩
    by_contra hk
    rcases tfsOpen_emptied hc hn hlookup hflag hfree hok with ⟨h', fs₁, -, he, heval'⟩
    have hsame := (Prod.mk.inj (Option.some.inj (heval.symm.trans heval'))).2
    rcases he.leaks hc hn hten hk with ⟨b, htaken, hnot⟩
    rw [hsame] at hempty
    exact hnot ((hempty.exact b).mp htaken)
  · intro hback
    rcases tfsOpen_emptied hc hn hlookup hflag hfree hback.there with ⟨h, fs₁, hh, he, heval⟩
    exact ⟨h, _, heval, he.opensEmpty hc hn hh hback hl⟩

/-- A call that truncates nothing. -/
def KeepsFiles : Call → Prop
  | .open _ flags => hasFlag flags tfsOTrunc = false
  | _ => True

instance : DecidablePred KeepsFiles
  | .lookup _ => isTrue trivial
  | .open _ _ => inferInstanceAs (Decidable (_ = false))
  | .close _ => isTrue trivial
  | .write _ _ => isTrue trivial
  | .read _ _ => isTrue trivial

theorem KeepsFiles.truncatesWhole {c : Call} (hc : KeepsFiles c) : TruncatesWhole fs c := by
  cases c with
  | «open» name flags =>
      intro hflag
      rw [show hasFlag flags tfsOTrunc = false from hc] at hflag
      cases hflag
  | _ => trivial

/-- The handle of the file that is looked up, by its number. -/
theorem tfsLookup_of_number (hc : Consistent fs)
    (hnumber : ((tfsLookup name).eval fs).map Prod.fst = some ((n : Nat) : Int)) :
    (tfsLookup name).eval fs = some (((n : Nat) : Int), fs) := by
  rcases tfsLookup_eval hc name with ⟨r, heval, -⟩
  rw [heval] at hnumber ⊢
  cases hnumber
  rfl

/-- A file of 1500 bytes has two blocks, and both are given back. -/
theorem truncation_exact_two : ∃ tr fs,
    lockMachine.Reach (Returning WholeTruncations) (tr, fs, []) ∧
    (fs.inodeTable 1).iSize = 1500 ∧ ∃ (h : Fin maxOpenFiles) (fs' : FS),
      (tfsOpen pathA 2).eval fs = some (((h : Nat) : Int), fs') ∧ OpensEmpty 1 h fs fs' := by
  have hplay : (lockMachine.play
      (fun tr s c => (Writes DirectOk tr s.1 c ∧ KeepsFiles c) ∧ NonEmptyWrite c)
      ([], initialFS, []) [.open pathA 1, .write 0 (List.replicate 1024 7),
        .write 0 (List.replicate 476 7)]).map
      (fun cfg : Machine.Trace Call Ret × Left => decide (
        (cfg.2.1.inodeTable 1).iSize = 1500 ∧
        (∀ i : Fin maxDirectBlocks, (i : Nat) < 2 → (cfg.2.1.inodeTable 1).iDataBlock i ≠ -1) ∧
        ((tfsLookup pathA).eval cfg.2.1).map Prod.fst = some 1 ∧
        cfg.2.1.freeOpenFileEntries 1 = .free ∧ cfg.2.2 = [])) = some true := by
    decide +kernel
  rcases Option.map_eq_some_iff.mp hplay with ⟨⟨tr, fs, held⟩, hplay, hfacts⟩
  rcases of_decide_eq_true hfacts with ⟨hsize, hslots, hnumber, hfree, hheld⟩
  cases hheld
  have hstart : lockMachine.Reach
      (fun tr s c => (Writes DirectOk tr s.1 c ∧ KeepsFiles c) ∧ NonEmptyWrite c)
      ([], initialFS, []) := by
    rw [← machine_init]
    exact Machine.Reach.start
  have hreach : lockMachine.Reach (Returning WholeTruncations) (tr, fs, []) :=
    (hstart.play hplay).mono fun _ _ _ hw =>
      ⟨⟨hw.1.1.mono fun _ _ _ _ hd => hd.writeOk, hw.1.2.truncatesWhole⟩, hw.2.returns _⟩
  have hcount : fs.truncated 1 = 2 := by
    rw [FS.truncated, hsize]
    rfl
  have hback : GivesAllBack fs 1 := by
    constructor
    · rw [Truncates, hcount, forall_givenBack]
      constructor
      · intro i hi
        exact hslots i (mem_take_finRange.mp hi)
      · intro hten
        exact absurd hten (by decide)
    · intro hten
      rw [hcount] at hten
      exact absurd hten (by decide)
  refine ⟨tr, fs, hreach, hsize, ?_⟩
  exact (truncation_exact_iff hreach
    (tfsLookup_of_number (n := 1) (WholeTruncations.noLeak (Reach.unlocked hreach).2).1 hnumber)
    (by decide) ⟨1, hfree⟩).2.mpr hback

/-- A file of exactly one block is taken to have two. -/
theorem one_block_not_emptied : ¬ ∀ tr fs name flags n, machine.Reach (Writes AlignedOk) (tr, fs) →
    (tfsLookup name).eval fs = some (((n : Fin inodeTableSize) : Int), fs) →
    hasFlag flags tfsOTrunc = true → (∃ h, fs.freeOpenFileEntries h = .free) →
    ∃ (h : Fin maxOpenFiles) (fs' : FS),
      (tfsOpen name flags).eval fs = some (((h : Nat) : Int), fs') ∧ OpensEmpty n h fs fs' := by
  intro hevery
  have hplay : (machine.play
      (Writes fun fs h n buffer => Aligned fs h n buffer ∧ DirectOk fs h n buffer)
      ([], initialFS) [.open pathA 1, .write 0 (List.replicate 1024 7)]).map
      (fun cfg : Machine.Trace Call Ret × FS => decide (
        ((tfsLookup pathA).eval cfg.2).map Prod.fst = some 1 ∧
        cfg.2.freeOpenFileEntries 1 = .free ∧
        ((tfsOpen pathA 2).eval cfg.2).isNone = true)) = some true := by
    decide +kernel
  rcases Option.map_eq_some_iff.mp hplay with ⟨⟨tr, fs⟩, hplay, hfacts⟩
  rcases of_decide_eq_true hfacts with ⟨hnumber, hfree, hcrash⟩
  have hstart : machine.Reach
      (Writes fun fs h n buffer => Aligned fs h n buffer ∧ DirectOk fs h n buffer)
      ([], initialFS) := by
    rw [← machine_init]
    exact Machine.Reach.start
  have hreach : machine.Reach (Writes AlignedOk) (tr, fs) :=
    (hstart.play hplay).mono fun _ _ _ hw =>
      hw.mono fun _ _ _ _ hok => ⟨hok.1, hok.2.writeOk⟩
  have hc := Reach.consistent hreach fun _ _ _ _ hok => hok.2
  rcases hevery tr fs pathA 2 1 hreach (tfsLookup_of_number (n := 1) hc hnumber) (by decide)
    ⟨1, hfree⟩ with ⟨h, fs', heval, -⟩
  rw [heval] at hcrash
  cases hcrash

end TecnicoFS.Part1
