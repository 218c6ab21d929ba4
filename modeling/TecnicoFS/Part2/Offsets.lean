import TecnicoFS.Part2.Runs

/-!
# Part 2: offsets and sizes

The offset of a handle and the size of its file lie in different tables, and
the arithmetic between them is unsigned. The bound `of_offset <= i_size` is
kept by every call but two: `tfs_open` with `TFS_O_TRUNC` resets the size under
the other handles of the file, and `tfs_write` compares a sum that wraps for
lengths near 2^64. `KeepsOffsets` excludes exactly these calls, and the bound
then holds along whole runs, with every copy inside the file's own block.
-/

namespace TecnicoFS.Part2

variable {k : Nat} {fs fs' : FS} {tr : Machine.Trace Call Ret} {r : Int}
  {n : Fin inodeTableSize} {b : Fin dataBlocks} {h : Fin maxOpenFiles}

/-! ## The property -/

/-- Every open handle refers to an i-node and lies within its contents, which
fit in a block. -/
structure OffsetsBounded (fs : FS) : Prop where
  inode : ∀ h, fs.freeOpenFileEntries h = .taken →
    ∃ n : Fin inodeTableSize, (fs.openFileTable h).ofInumber = (n : Nat)
  bound : ∀ h, fs.freeOpenFileEntries h = .taken → ∀ n : Fin inodeTableSize,
    (fs.openFileTable h).ofInumber = (n : Nat) →
      (fs.openFileTable h).ofOffset ≤ (fs.inodeTable n).iSize ∧
        (fs.inodeTable n).iSize ≤ blockSize

/-- I-node `n` owns block `b`: its number is in the i-node, it is marked TAKEN
and no other i-node owns it. -/
def HoldsBlock (fs : FS) (n : Fin inodeTableSize) (b : Fin dataBlocks) : Prop :=
  (fs.inodeTable n).iDataBlock = (b : Nat) ∧ fs.freeBlocks b = .taken ∧
    ∀ m, m ≠ n → ownBlock fs m ≠ some b

/-- The subtractions of `tfs_read` and `tfs_write` do not wrap, and what they
copy lies within the 1024 bytes of a block the file owns at that moment. -/
structure CopiesInside (fs : FS) : Prop where
  read : ∀ h, fs.freeOpenFileEntries h = .taken → ∀ n : Fin inodeTableSize,
    (fs.openFileTable h).ofInumber = (n : Nat) → ∀ len,
      wordSub (fs.inodeTable n).iSize (fs.openFileTable h).ofOffset =
          (fs.inodeTable n).iSize - (fs.openFileTable h).ofOffset ∧
        (0 < clipRead (fs.inodeTable n).iSize (fs.openFileTable h).ofOffset len →
          ∃ b, HoldsBlock fs n b ∧ (fs.openFileTable h).ofOffset +
            clipRead (fs.inodeTable n).iSize (fs.openFileTable h).ofOffset len ≤ blockSize)
  write : ∀ h, fs.freeOpenFileEntries h = .taken → ∀ n : Fin inodeTableSize,
    (fs.openFileTable h).ofInumber = (n : Nat) → ∀ len,
      len + (fs.openFileTable h).ofOffset < wordSize →
        wordSub blockSize (fs.openFileTable h).ofOffset =
            blockSize - (fs.openFileTable h).ofOffset ∧
          (0 < clipWrite len (fs.openFileTable h).ofOffset →
            ∃ b, HoldsBlock (allocIfEmpty fs n) n b ∧
              (fs.openFileTable h).ofOffset + clipWrite len (fs.openFileTable h).ofOffset ≤
                blockSize)

/-- A call a client may make: reads and writes on open handles, with a length
that a `size_t` holds, and no empty path. -/
def Proper (fs : FS) (c : Call) : Prop :=
  (∀ fhandle, c.through = some fhandle → IsOpen fs fhandle) ∧
    (∀ name flags, c = .open name flags → name.bytes ≠ []) ∧
      ∀ fhandle buffer, c = .write fhandle buffer → buffer.length < wordSize

/-- The call truncates no file under a handle that has moved, and writes no
length that wraps around. -/
def KeepsOffsets (fs : FS) : Call → Prop
  | .open name flags => hasFlag flags tfsOTrunc = true →
      ∀ h, fs.freeOpenFileEntries h = .taken →
        (fs.openFileTable h).ofInumber = tfsLookup fs name → (fs.openFileTable h).ofOffset = 0
  | .write fhandle buffer => ∀ h, getOpenFileEntry fhandle = some h →
      buffer.length + (fs.openFileTable h).ofOffset < wordSize
  | _ => True

/-- Runs of such calls. -/
def SafeOffsets : Machine.Guard FS Call Ret := fun _ fs c => Proper fs c ∧ KeepsOffsets fs c

/-! ## The effects keep the bound -/

namespace OffsetsBounded

/-- Nothing that an open handle sees has changed. -/
theorem congr (hb : OffsetsBounded fs) (htable : fs'.openFileTable = fs.openFileTable)
    (hopen : fs'.freeOpenFileEntries = fs.freeOpenFileEntries)
    (hinode : ∀ h, fs.freeOpenFileEntries h = .taken → ∀ n : Fin inodeTableSize,
      (fs.openFileTable h).ofInumber = (n : Nat) → fs'.inodeTable n = fs.inodeTable n) :
    OffsetsBounded fs' := by
  constructor
  · intro h ht
    rw [htable]
    rw [hopen] at ht
    exact hb.inode h ht
  · intro h ht n hn
    rw [hopen] at ht
    rw [htable] at hn ⊢
    rw [hinode h ht n hn]
    exact hb.bound h ht n hn

/-- Truncating a file whose open handles are all at the start. -/
theorem dropBlock (hb : OffsetsBounded fs)
    (hzero : ∀ h, fs.freeOpenFileEntries h = .taken →
      (fs.openFileTable h).ofInumber = (n : Nat) → (fs.openFileTable h).ofOffset = 0) :
    OffsetsBounded (dropBlock fs n b) := by
  constructor
  · exact hb.inode
  · intro h ht m hm
    by_cases hmn : m = n
    · subst hmn
      have hoff : ((Part2.dropBlock fs m b).openFileTable h).ofOffset = 0 := hzero h ht hm
      have hsize : ((Part2.dropBlock fs m b).inodeTable m).iSize = 0 := by
        simp [Part2.dropBlock]
      rw [hoff, hsize]
      exact ⟨Nat.le_refl 0, Nat.zero_le _⟩
    · have hinode : (Part2.dropBlock fs n b).inodeTable m = fs.inodeTable m :=
        Function.update_of_ne hmn _ _
      rw [hinode]
      exact hb.bound h ht m hm

theorem newHandle {offset : Nat} (hb : OffsetsBounded fs)
    (hoff : offset ≤ (fs.inodeTable n).iSize) (hsize : (fs.inodeTable n).iSize ≤ blockSize) :
    OffsetsBounded (newHandle fs h (n : Nat) offset) := by
  have hself : (Part2.newHandle fs h (n : Nat) offset).openFileTable h = ⟨(n : Nat), offset⟩ :=
    Function.update_self h _ _
  have hother : ∀ j, j ≠ h →
      (Part2.newHandle fs h (n : Nat) offset).openFileTable j = fs.openFileTable j ∧
        (Part2.newHandle fs h (n : Nat) offset).freeOpenFileEntries j =
          fs.freeOpenFileEntries j := fun j hj =>
    ⟨Function.update_of_ne hj _ _, Function.update_of_ne hj _ _⟩
  constructor
  · intro j ht
    by_cases hj : j = h
    · rw [hj, hself]
      exact ⟨n, rfl⟩
    · rw [(hother j hj).1]
      rw [(hother j hj).2] at ht
      exact hb.inode j ht
  · intro j ht m hm
    by_cases hj : j = h
    · rw [hj, hself] at hm ⊢
      have hmn : m = n := Fin.ext (Int.ofNat_inj.mp hm).symm
      rw [hmn]
      exact ⟨hoff, hsize⟩
    · rw [(hother j hj).1] at hm ⊢
      rw [(hother j hj).2] at ht
      exact hb.bound j ht m hm

theorem dropHandle (hb : OffsetsBounded fs) : OffsetsBounded (dropHandle fs h) := by
  have hopen : ∀ j, (Part2.dropHandle fs h).freeOpenFileEntries j = .taken →
      fs.freeOpenFileEntries j = .taken := by
    intro j ht
    by_cases hj : j = h
    · simp [Part2.dropHandle, hj] at ht
    · simpa [Part2.dropHandle, hj] using ht
  exact ⟨fun j ht => hb.inode j (hopen j ht), fun j ht m hm => hb.bound j (hopen j ht) m hm⟩

theorem moveHandle {offset : Nat} (hb : OffsetsBounded fs)
    (hnum : (fs.openFileTable h).ofInumber = (n : Nat))
    (hoff : offset ≤ (fs.inodeTable n).iSize) (hsize : (fs.inodeTable n).iSize ≤ blockSize) :
    OffsetsBounded (moveHandle fs h offset) := by
  have hself : (Part2.moveHandle fs h offset).openFileTable h =
      { fs.openFileTable h with ofOffset := offset } := Function.update_self h _ _
  have hother : ∀ j, j ≠ h →
      (Part2.moveHandle fs h offset).openFileTable j = fs.openFileTable j := fun j hj =>
    Function.update_of_ne hj _ _
  constructor
  · intro j ht
    by_cases hj : j = h
    · rw [hj, hself]
      exact ⟨n, hnum⟩
    · rw [hother j hj]
      exact hb.inode j ht
  · intro j ht m hm
    by_cases hj : j = h
    · rw [hj, hself] at hm ⊢
      have hmn : m = n := Fin.ext (Int.ofNat_inj.mp (hm.symm.trans hnum))
      rw [hmn]
      exact ⟨hoff, hsize⟩
    · rw [hother j hj] at hm ⊢
      exact hb.bound j ht m hm

theorem writeAt {data : List UInt8} (hb : OffsetsBounded fs)
    (hnum : (fs.openFileTable h).ofInumber = (n : Nat))
    (hsize : (fs.inodeTable n).iSize ≤ blockSize)
    (hfit : (fs.openFileTable h).ofOffset + data.length ≤ blockSize) :
    OffsetsBounded (writeAt fs h n b data) := by
  have hself : (Part2.writeAt fs h n b data).openFileTable h = { fs.openFileTable h with
      ofOffset := (fs.openFileTable h).ofOffset + data.length } := Function.update_self h _ _
  have hother : ∀ j, j ≠ h →
      (Part2.writeAt fs h n b data).openFileTable j = fs.openFileTable j := fun j hj =>
    Function.update_of_ne hj _ _
  have hfile : ((Part2.writeAt fs h n b data).inodeTable n).iSize =
      max (fs.inodeTable n).iSize ((fs.openFileTable h).ofOffset + data.length) := by
    simp [Part2.writeAt]
  have hfiles : ∀ m, m ≠ n →
      (Part2.writeAt fs h n b data).inodeTable m = fs.inodeTable m := fun m hm =>
    Function.update_of_ne hm _ _
  constructor
  · intro j ht
    by_cases hj : j = h
    · rw [hj, hself]
      exact ⟨n, hnum⟩
    · rw [hother j hj]
      exact hb.inode j ht
  · intro j ht m hm
    by_cases hj : j = h
    · rw [hj, hself] at hm ⊢
      -- the file grows up to the new offset
      have hmn : m = n := Fin.ext (Int.ofNat_inj.mp (hm.symm.trans hnum))
      rw [hmn, hfile]
      exact ⟨le_max_right _ _, max_le hsize hfit⟩
    · rw [hother j hj] at hm ⊢
      have hold := hb.bound j ht m hm
      by_cases hmn : m = n
      · -- another handle of the same file: the size only grows
        rw [hmn] at hold ⊢
        rw [hfile]
        exact ⟨hold.1.trans (le_max_left _ _), max_le hsize hfit⟩
      · rw [hfiles m hmn]
        exact hold

end OffsetsBounded

/-! ## Every call -/

/-- An i-node past the last file is not seen by an open handle. -/
theorem Inv.open_ne (hinv : Inv k fs) (ht : fs.freeOpenFileEntries h = .taken)
    (hn : (n : Nat) = k + 1) {m : Fin inodeTableSize}
    (hm : (fs.openFileTable h).ofInumber = (m : Nat)) : m ≠ n := by
  rintro rfl
  rcases hinv.fileEntry_of_taken ht with ⟨j, hj, hnum, -⟩
  have hle := hj.2
  rw [hnum] at hm
  omega

theorem addToOpenFileTable_bounded {offset : Nat} (hb : OffsetsBounded fs)
    (hoff : offset ≤ (fs.inodeTable n).iSize) (hsize : (fs.inodeTable n).iSize ≤ blockSize)
    (hadd : addToOpenFileTable fs (n : Nat) offset = (r, fs')) : OffsetsBounded fs' := by
  rcases addToOpenFileTable_cases hadd with ⟨-, rfl, -⟩ | ⟨j, -, rfl, -⟩
  · exact hb
  · exact hb.newHandle hoff hsize

theorem openOffset_le_size (fs : FS) (n : Fin inodeTableSize) (flags : BitVec 32) :
    openOffset fs n flags ≤ (fs.inodeTable n).iSize := by
  unfold openOffset
  split
  · exact Nat.le_refl _
  · exact Nat.zero_le _

theorem OpenStep.bounded {name : CString} {flags : BitVec 32} (hinv : Inv k fs)
    (hb : OffsetsBounded fs) (hkeeps : KeepsOffsets fs (.open name flags))
    (h : OpenStep k fs name flags r fs') : OffsetsBounded fs' := by
  cases h with
  | absent _ _ => exact hb
  | @found n fs1 _ _ hn hname htrunc hadd =>
      have hinv1 := (htrunc.evolves hinv hn).inv
      have hb1 : OffsetsBounded fs1 := by
        cases htrunc with
        | kept _ => exact hb
        | dropped hflag _ =>
            refine hb.dropBlock fun j ht hnum => hkeeps hflag j ht ?_
            rw [hnum, tfsLookup_of_names hinv hn hname]
      exact addToOpenFileTable_bounded hb1 (openOffset_le_size fs1 n flags)
        (hinv1.files n hn).2 hadd
  | scrapped _ _ hn _ =>
      refine hb.congr rfl rfl fun j ht m hm => ?_
      exact Function.update_of_ne (hinv.open_ne ht hn hm) _ _
  | created _ _ hn hk _ hadd =>
      refine addToOpenFileTable_bounded ?_ (Nat.zero_le _) ?_ hadd
      · refine hb.congr rfl rfl fun j ht m hm => ?_
        exact Function.update_of_ne (hinv.open_ne ht hn hm) _ _
      · exact ((newFile_inv hinv hn hk).files _ ⟨by omega, by omega⟩).2

/-- What an open handle's read clips to, when the bound holds. -/
theorem OffsetsBounded.clipRead_le (hb : OffsetsBounded fs)
    (ht : fs.freeOpenFileEntries h = .taken)
    (hnum : (fs.openFileTable h).ofInumber = (n : Nat)) (len : Nat) :
    (fs.openFileTable h).ofOffset +
      clipRead (fs.inodeTable n).iSize (fs.openFileTable h).ofOffset len ≤
        (fs.inodeTable n).iSize := by
  rcases hb.bound h ht n hnum with ⟨hoff, hsize⟩
  unfold clipRead
  rw [wordSub_of_le hoff (lt_of_le_of_lt hsize (by decide))]
  omega

/-- What an open handle's write clips to, when the sum does not wrap. -/
theorem OffsetsBounded.clipWrite_fits (hb : OffsetsBounded fs)
    (ht : fs.freeOpenFileEntries h = .taken)
    (hnum : (fs.openFileTable h).ofInumber = (n : Nat)) {len : Nat}
    (hlen : len + (fs.openFileTable h).ofOffset < wordSize) :
    (fs.openFileTable h).ofOffset + clipWrite len (fs.openFileTable h).ofOffset ≤ blockSize := by
  rcases hb.bound h ht n hnum with ⟨hoff, hsize⟩
  rw [clipWrite_of_lt (hoff.trans hsize) hlen]
  omega

theorem WriteStep.bounded {fhandle : Int} {buffer : List UInt8} (hinv : Inv k fs)
    (hb : OffsetsBounded fs) (h : WriteStep k fs fhandle buffer r fs') : OffsetsBounded fs' := by
  cases h with
  | badHandle _ => exact hb
  | nothing _ _ => exact hb
  | wrote _ hn hnum _ _ _ hfit _ => exact hb.writeAt hnum (hinv.files _ hn).2 hfit

theorem ReadStep.bounded {fhandle : Int} {len : Nat} {bytes : List UInt8} (hinv : Inv k fs)
    (hb : OffsetsBounded fs) (hopen : IsOpen fs fhandle)
    (h : ReadStep k fs fhandle len r bytes fs') : OffsetsBounded fs' := by
  cases h with
  | badHandle _ => exact hb
  | nothing _ _ _ _ => exact hb
  | noBlock _ _ _ _ _ => exact hb
  | @got h n b count hh hn hnum hcount _ _ _ =>
      rcases hopen with ⟨j, hj, ht⟩
      rw [show j = h from Option.some.inj (hj.symm.trans hh)] at ht
      refine hb.moveHandle hnum ?_ (hinv.files n hn).2
      rw [hcount]
      exact hb.clipRead_le ht hnum len

/-- A call that keeps the condition returns, and keeps the bound. -/
theorem exec_bounded {c : Call} (hinv : Inv k fs) (hb : OffsetsBounded fs)
    (hproper : Proper fs c) (hkeeps : KeepsOffsets fs c) :
    ∃ ret fs', exec fs c = some (ret, fs') ∧ OffsetsBounded fs' := by
  cases c with
  | lookup name => exact ⟨_, fs, rfl, hb⟩
  | «open» name flags =>
      rcases tfsOpen_returns hinv name flags (hproper.2.1 name flags rfl) with
        ⟨r, fs', hopen, hstep⟩
      exact ⟨_, fs', by rw [exec, hopen]; rfl, hstep.bounded hinv hb hkeeps⟩
  | close fhandle =>
      refine ⟨_, _, rfl, ?_⟩
      rcases tfsClose_cases fs fhandle with ⟨j, -, -, hclose⟩ | ⟨-, hclose⟩
      · rw [hclose]
        exact hb.dropHandle
      · rw [hclose]
        exact hb
  | write fhandle buffer =>
      have hopen := hproper.1 fhandle rfl
      cases hw : tfsWrite fs fhandle buffer with
      | none =>
          -- the copy would have to leave the block
          rcases tfsWrite_crash hw with ⟨j, hj, hbig⟩
          rcases hopen with ⟨i, hi, ht⟩
          rw [show i = j from Option.some.inj (hi.symm.trans hj)] at ht
          rcases hb.inode j ht with ⟨n, hnum⟩
          have hfits := hb.clipWrite_fits ht hnum (hkeeps j hj)
          omega
      | some p =>
          rcases p with ⟨r, fs'⟩
          have hstep := tfsWrite_cases hinv (hopen.issued hinv) hw
          exact ⟨_, fs', by rw [exec, hw]; rfl, hstep.bounded hinv hb⟩
  | read fhandle len =>
      have hopen := hproper.1 fhandle rfl
      cases hr : tfsRead fs fhandle len with
      | none =>
          rcases tfsRead_crash hr with ⟨j, n, b, hj, hnum, hbig⟩
          rcases hopen with ⟨i, hi, ht⟩
          rw [show i = j from Option.some.inj (hi.symm.trans hj)] at ht
          have hfits := hb.clipRead_le ht hnum len
          have hsize := (hb.bound j ht n hnum).2
          have hinside := copy_inside b (hfits.trans hsize)
          omega
      | some p =>
          rcases p with ⟨⟨r, bytes⟩, fs'⟩
          have hstep := tfsRead_cases hinv (hopen.issued hinv) hr
          exact ⟨_, fs', by rw [exec, hr]; rfl, hstep.bounded hinv hb hopen⟩

/-! ## The calls that break the bound -/

/-- A length whose sum with the offset wraps around is not clipped. -/
theorem clipWrite_of_wrap {len off : Nat} (hoff : off ≤ blockSize) (hlen : len < wordSize)
    (hwrap : wordSize ≤ len + off) : clipWrite len off = len := by
  have hsum : wordAdd len off = len + off - wordSize := by
    unfold wordAdd
    rw [Nat.mod_eq_sub_mod hwrap]
    apply Nat.mod_eq_of_lt
    simp only [blockSize, wordSize] at *
    omega
  unfold clipWrite
  rw [hsum, if_neg (by simp only [blockSize, wordSize] at *; omega)]

/-- A truncation under a handle that has moved leaves the handle past the end. -/
theorem OpenStep.breaks {name : CString} {flags : BitVec 32} (hinv : Inv k fs)
    (hb : OffsetsBounded fs) (hflag : hasFlag flags tfsOTrunc = true)
    (ht : fs.freeOpenFileEntries h = .taken)
    (hnum : (fs.openFileTable h).ofInumber = tfsLookup fs name)
    (hmoved : (fs.openFileTable h).ofOffset ≠ 0) (hstep : OpenStep k fs name flags r fs') :
    ¬ OffsetsBounded fs' := by
  have hnamed : ¬ Unnamed k fs name := by
    intro hun
    rcases hb.inode h ht with ⟨m, hm⟩
    rw [hm, tfsLookup_of_unnamed hinv hun] at hnum
    omega
  cases hstep with
  | absent hun _ => exact absurd hun hnamed
  | scrapped hun _ _ _ => exact absurd hun hnamed
  | created hun _ _ _ _ _ => exact absurd hun hnamed
  | @found n fs1 _ _ hn hname htrunc hadd =>
      rw [tfsLookup_of_names hinv hn hname] at hnum
      have hbound := (hb.bound h ht n hnum).1
      cases htrunc with
      | kept hkept =>
          rcases hkept with hno | hempty
          · rw [hno] at hflag
            cases hflag
          · omega
      | @dropped b _ hown =>
          have hsize : ((dropBlock fs n b).inodeTable n).iSize = 0 := by simp [dropBlock]
          rcases addToOpenFileTable_cases hadd with ⟨-, rfl, -⟩ | ⟨j, -, rfl, hfree⟩
          · -- no handle left: the file is truncated all the same
            intro hbad
            have hle := (hbad.bound h ht n hnum).1
            rw [hsize] at hle
            exact hmoved (Nat.le_zero.mp hle)
          -- the handle given out is another one
          · have hne : h ≠ j := by
              rintro rfl
              have hjfree : fs.freeOpenFileEntries h = .free := (firstFit_eq_some.mp hfree).1
              rw [ht] at hjfree
              cases hjfree
            have htable : (newHandle (dropBlock fs n b) j (n : Nat)
                (openOffset (dropBlock fs n b) n flags)).openFileTable h = fs.openFileTable h :=
              Function.update_of_ne hne _ _
            have hopen : (newHandle (dropBlock fs n b) j (n : Nat)
                (openOffset (dropBlock fs n b) n flags)).freeOpenFileEntries h = .taken :=
              (Function.update_of_ne hne _ _).trans ht
            intro hbad
            have hle := (hbad.bound h hopen n (by rw [htable]; exact hnum)).1
            rw [htable] at hle
            exact hmoved (Nat.le_zero.mp (hle.trans (le_of_eq hsize)))

/-- A call against the condition crashes or breaks the bound. -/
theorem exec_breaks {c : Call} {ret : Ret} (hinv : Inv k fs) (hb : OffsetsBounded fs)
    (hproper : Proper fs c) (hnot : ¬ KeepsOffsets fs c) (h : exec fs c = some (ret, fs')) :
    ¬ OffsetsBounded fs' := by
  cases c with
  | lookup _ => exact absurd trivial hnot
  | close _ => exact absurd trivial hnot
  | read _ _ => exact absurd trivial hnot
  | «open» name flags =>
      rcases Option.map_eq_some_iff.mp h with ⟨⟨r, fs1⟩, hopen, hret⟩
      rcases Prod.mk.inj hret with ⟨-, rfl⟩
      simp only [KeepsOffsets, not_forall] at hnot
      rcases hnot with ⟨hflag, j, ht, hnum, hmoved⟩
      exact (tfsOpen_cases hinv hopen).breaks hinv hb hflag ht hnum hmoved
  | write fhandle buffer =>
      rcases Option.map_eq_some_iff.mp h with ⟨⟨r, fs1⟩, hwrite, hret⟩
      simp only [KeepsOffsets, not_forall, not_lt] at hnot
      rcases hnot with ⟨j, hj, hwrap⟩
      have hopen := hproper.1 fhandle rfl
      rcases hopen with ⟨i, hi, ht⟩
      rw [show i = j from Option.some.inj (hi.symm.trans hj)] at ht
      rcases hb.inode j ht with ⟨n, hnum⟩
      have hbound := hb.bound j ht n hnum
      have hoff := hbound.1.trans hbound.2
      have hclip := clipWrite_of_wrap hoff (hproper.2.2 fhandle buffer rfl) hwrap
      -- the length is not clipped, so the copy cannot have stayed in the block
      have hbig : blockSize < (fs.openFileTable j).ofOffset + buffer.length := by
        simp only [blockSize, wordSize] at *
        omega
      cases tfsWrite_cases hinv (hproper.1 fhandle rfl |>.issued hinv) hwrite with
      | badHandle hnone =>
          rw [hj] at hnone
          cases hnone
      | nothing hh hzero =>
          rw [show _ = j from Option.some.inj (hh.symm.trans hj), hclip] at hzero
          simp only [blockSize, wordSize] at *
          omega
      | wrote hh _ _ _ hlen _ hfit _ =>
          have hjeq := Option.some.inj (hh.symm.trans hj)
          rw [hjeq, hclip] at hlen
          rw [hjeq, hlen] at hfit
          omega

/-! ## Runs -/

theorem offsetsBounded_init : OffsetsBounded machine.init := by
  have hfree : ∀ h, machine.init.freeOpenFileEntries h = .free := by
    intro h
    rw [machine_init]
    rfl
  constructor
  · intro h ht
    rw [hfree h] at ht
    cases ht
  · intro h ht
    rw [hfree h] at ht
    cases ht

theorem reach_offsets (h : machine.Reach SafeOffsets (tr, fs)) :
    ∃ k, Inv k fs ∧ OffsetsBounded fs := by
  refine Machine.Reach.invariant (P := fun _ s => ∃ k, Inv k s ∧ OffsetsBounded s) h
    ⟨0, init_inv, offsetsBounded_init⟩ ?_
  rintro tr s c ret s' ⟨k, hinv, hb⟩ ⟨hproper, hkeeps⟩ hexec
  have hiss : ∀ fhandle, c.through = some fhandle → Issued s fhandle := fun fhandle hc =>
    (hproper.1 fhandle hc).issued hinv
  rcases exec_evolves hinv hiss hexec with ⟨k', hev, -⟩
  rcases exec_bounded hinv hb hproper hkeeps with ⟨ret', s'', hexec', hb'⟩
  rw [show machine.exec s c = exec s c from rfl, hexec'] at hexec
  rcases Prod.mk.inj (Option.some.inj hexec) with ⟨-, rfl⟩
  exact ⟨k', hev.inv, hb'⟩

/-- The block a file owns is its own. -/
theorem Inv.holdsBlock (hinv : Inv k fs) (hown : ownBlock fs n = some b) :
    HoldsBlock fs n b :=
  ⟨(ownBlock_eq_some.mp hown).2.2, hinv.exclusive.taken_of_own hown,
    fun m hm hm' => hm (hinv.exclusive.inj m n b hm' hown)⟩

/-- The block `tfs_write` copies to is the file's own, also when just allocated. -/
theorem allocIfEmpty_holdsBlock (hinv : Inv k fs) (hn : IsFile k n) :
    ∃ b, HoldsBlock (allocIfEmpty fs n) n b := by
  rcases allocIfEmpty_spec hinv hn with ⟨b, hw, halloc⟩
  refine ⟨b, ?_⟩
  have hinode : ∀ m, m ≠ n → (allocIfEmpty fs n).inodeTable m = fs.inodeTable m := by
    intro m hm
    rw [halloc]
    exact Function.update_of_ne hm _ _
  have hts : ∀ m, (allocIfEmpty fs n).freeinodeTs m = fs.freeinodeTs m := by
    intro m
    rw [halloc]
  refine ⟨by simp [halloc], by simp [halloc], ?_⟩
  intro m hm hown
  have hsame : ownBlock fs m = some b := by
    rw [← hown]
    exact (ownBlock_congr (hts m) (hinode m hm)).symm
  rcases hw with hold | ⟨-, hfit⟩
  · exact hm (hinv.exclusive.inj m n b hsame hold)
  · have hfree : fs.freeBlocks b = .free := (firstFit_eq_some.mp hfit).1
    rw [hinv.exclusive.taken_of_own hsame] at hfree
    cases hfree

theorem OffsetsBounded.copiesInside (hinv : Inv k fs) (hb : OffsetsBounded fs) :
    CopiesInside fs := by
  have hfile : ∀ h, fs.freeOpenFileEntries h = .taken → ∀ n : Fin inodeTableSize,
      (fs.openFileTable h).ofInumber = (n : Nat) → IsFile k n := by
    intro h ht n hnum
    rcases hinv.fileEntry_of_taken ht with ⟨m, hm, hnum', -⟩
    rwa [show n = m from Fin.ext (Int.ofNat_inj.mp (hnum.symm.trans hnum'))]
  constructor
  · intro h ht n hnum len
    rcases hb.bound h ht n hnum with ⟨hoff, hsize⟩
    have hfits := hb.clipRead_le ht hnum len
    refine ⟨wordSub_of_le hoff (lt_of_le_of_lt hsize (by decide)), ?_⟩
    intro hpos
    -- something to read means the file is not empty, so it owns a block
    have hdata : 0 < (fs.inodeTable n).iSize := by omega
    rcases hinv.blocks n (hinv.taken_of_isFile (hfile h ht n hnum)) hdata with ⟨b, hown⟩
    exact ⟨b, hinv.holdsBlock hown, hfits.trans hsize⟩
  · intro h ht n hnum len hlen
    rcases hb.bound h ht n hnum with ⟨hoff, hsize⟩
    refine ⟨wordSub_of_le (hoff.trans hsize) (by decide), ?_⟩
    intro _
    rcases allocIfEmpty_holdsBlock hinv (hfile h ht n hnum) with ⟨b, hholds⟩
    exact ⟨b, hholds, hb.clipWrite_fits ht hnum hlen⟩

/-- In every run of calls that keep the condition, open handles lie within
their files and every copy stays inside a block of the file. And the condition
is exact: the next call returns with the bound kept if and only if it meets it. -/
theorem offsets_bounded (h : machine.Reach SafeOffsets (tr, fs)) :
    OffsetsBounded fs ∧ CopiesInside fs ∧
      ∀ c, Proper fs c →
        ((∃ ret fs', exec fs c = some (ret, fs') ∧ OffsetsBounded fs') ↔ KeepsOffsets fs c) := by
  rcases reach_offsets h with ⟨k, hinv, hb⟩
  refine ⟨hb, hb.copiesInside hinv, ?_⟩
  intro c hproper
  constructor
  · rintro ⟨ret, fs', hexec, hb'⟩
    by_contra hnot
    exact exec_breaks hinv hb hproper hnot hexec hb'
  · exact exec_bounded hinv hb hproper

/-- On a run that creates "/a" and writes two bytes to it, a further open that
truncates is the next call to break the bound; a read is not. -/
theorem offsets_bounded_create_write : ∃ fs, (fs.openFileTable 0).ofOffset = 2 ∧
    OffsetsBounded fs ∧ ∃ ret fs', exec fs (.read 0 5) = some (ret, fs') ∧ OffsetsBounded fs' := by
  have hrun : ((machine.exec machine.init (.open pathA tfsOCreat)).bind fun p =>
      (machine.exec p.2 (.write 0 [1, 2])).map fun q =>
        (decide (IsOpen p.2 0), decide ((p.2.openFileTable 0).ofOffset = 0),
          decide (IsOpen q.2 0), (q.2.openFileTable 0).ofOffset)) =
      some (true, true, true, 2) := by decide +kernel
  rcases Option.bind_eq_some_iff.mp hrun with ⟨⟨r1, fs1⟩, h1, hrest⟩
  rcases Option.map_eq_some_iff.mp hrest with ⟨⟨r2, fs2⟩, h2, heq⟩
  simp only [Prod.mk.injEq, decide_eq_true_eq] at heq
  rcases heq with ⟨hopen1, hzero, hopen2, htwo⟩
  have hok1 : SafeOffsets [] machine.init (.open pathA tfsOCreat) := by
    refine ⟨⟨?_, ?_, ?_⟩, ?_⟩
    · intro fhandle hc
      cases hc
    · intro name flags hc
      cases hc
      decide
    · intro fhandle buffer hc
      cases hc
    · intro hflag
      exact absurd hflag (by decide)
  have hok2 : SafeOffsets [(.open pathA tfsOCreat, r1)] fs1 (.write 0 [1, 2]) := by
    refine ⟨⟨?_, ?_, ?_⟩, ?_⟩
    · intro fhandle hc
      cases hc
      exact hopen1
    · intro name flags hc
      cases hc
    · intro fhandle buffer hc
      cases hc
      decide
    · intro h hh
      have hh0 : h = 0 := Option.some.inj (hh.symm.trans (index?_natCast 0))
      rw [hh0, hzero]
      decide
  have hreach := (Machine.Reach.start.step hok1 h1).step hok2 h2
  rcases offsets_bounded hreach with ⟨hb, -, hiff⟩
  refine ⟨fs2, htwo, hb, (hiff (.read 0 5) ⟨?_, ?_, ?_⟩).mpr trivial⟩
  · intro fhandle hc
    cases hc
    exact hopen2
  · intro name flags hc
    cases hc
  · intro fhandle buffer hc
    cases hc

/-- Runs of proper calls, without the condition. -/
def ProperCalls : Machine.Guard FS Call Ret := fun _ fs c => Proper fs c

/-- Create "/a", write five bytes and open it again with `TFS_O_TRUNC`: the first
handle is left at offset 5 of an empty file, and its next read subtracts 5
from 0. -/
theorem truncate_breaks_offsets : ∃ tr fs, machine.Reach ProperCalls (tr, fs) ∧
    fs.freeOpenFileEntries 0 = .taken ∧ fs.openFileTable 0 = ⟨1, 5⟩ ∧
    (fs.inodeTable 1).iSize = 0 ∧ ¬ OffsetsBounded fs := by
  have hrun : ((machine.exec machine.init (.open pathA tfsOCreat)).bind fun p =>
      (machine.exec p.2 (.write 0 [1, 2, 3, 4, 5])).bind fun q =>
        (machine.exec q.2 (.open pathA tfsOTrunc)).map fun s =>
          (decide (IsOpen p.2 0), s.2.freeOpenFileEntries 0, s.2.openFileTable 0,
            (s.2.inodeTable 1).iSize)) = some (true, .taken, ⟨1, 5⟩, 0) := by decide +kernel
  rcases Option.bind_eq_some_iff.mp hrun with ⟨⟨r1, fs1⟩, h1, hrest⟩
  rcases Option.bind_eq_some_iff.mp hrest with ⟨⟨r2, fs2⟩, h2, hlast⟩
  rcases Option.map_eq_some_iff.mp hlast with ⟨⟨r3, fs3⟩, h3, heq⟩
  simp only [Prod.mk.injEq, decide_eq_true_eq] at heq
  rcases heq with ⟨hopen1, htaken, hentry, hsize⟩
  have hpath : ∀ fs tr flags, ProperCalls tr fs (.open pathA flags) := by
    intro fs tr flags
    refine ⟨?_, ?_, ?_⟩
    · intro fhandle hc
      cases hc
    · intro name flags hc
      cases hc
      decide
    · intro fhandle buffer hc
      cases hc
  have hok2 : ProperCalls [(.open pathA tfsOCreat, r1)] fs1 (.write 0 [1, 2, 3, 4, 5]) := by
    refine ⟨?_, ?_, ?_⟩
    · intro fhandle hc
      cases hc
      exact hopen1
    · intro name flags hc
      cases hc
    · intro fhandle buffer hc
      cases hc
      decide
  have hreach := ((Machine.Reach.start.step (hpath _ _ _) h1).step hok2 h2).step (hpath _ _ _) h3
  refine ⟨_, fs3, hreach, htaken, hentry, hsize, ?_⟩
  intro hb
  have hle := (hb.bound 0 htaken 1 (by rw [hentry]; rfl)).1
  rw [hentry, hsize] at hle
  exact absurd hle (by decide)

end TecnicoFS.Part2
