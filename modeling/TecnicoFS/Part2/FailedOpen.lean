import TecnicoFS.Part2.Namespace
import TecnicoFS.Part2.Refinement

/-!
# Part 2: opens that fail

`tfs_open` truncates the file before it looks for a free handle. An open with `TFS_O_TRUNC` that
finds the handle table full returns -1, and the contents are gone. Every other failure comes
before any effect, or is undone, or leaves what the comment in `operations.c` announces: a new
empty file without a handle.
-/

namespace TecnicoFS.Part2

variable {k : Nat} {fs fs' : FS} {name : CString} {flags : BitVec 32} {n m : Fin inodeTableSize}
  {tr : Machine.Trace Call Ret}

/-- An allocated i-node that is not a directory. -/
def IsAllocated (fs : FS) (n : Fin inodeTableSize) : Prop :=
  fs.freeinodeTs n = .taken ∧ (fs.inodeTable n).iNodeType = .tFile

/-- The contents and sizes of the files, the blocks and the handles are as before. -/
structure KeepsFiles (fs fs' : FS) : Prop where
  files : ∀ n, IsAllocated fs n → IsAllocated fs' n
  sizes : ∀ n, IsAllocated fs n → (fs'.inodeTable n).iSize = (fs.inodeTable n).iSize
  contents : ∀ n, IsAllocated fs n → fileBytes fs' n = fileBytes fs n
  blocks : fs'.freeBlocks = fs.freeBlocks
  handles : fs'.openFileTable = fs.openFileTable
  handleMarks : fs'.freeOpenFileEntries = fs.freeOpenFileEntries
  count : fs'.openFilesCount = fs.openFilesCount

/-- No file is new. -/
structure NoTrace (fs fs' : FS) : Prop where
  marks : fs'.freeinodeTs = fs.freeinodeTs
  data : fs'.fsData = fs.fsData

/-- All handles are taken, and one file is new: it is empty and has one entry of the directory,
whose other entries are as before. -/
structure NewEmptyFile (fs fs' : FS) : Prop where
  full : ∀ h, fs.freeOpenFileEntries h = .taken
  created : ∃ n, fs.freeinodeTs n = .free ∧
    fs'.freeinodeTs = Function.update fs.freeinodeTs n .taken ∧
    fs'.inodeTable n = ⟨.tFile, 0, -1⟩ ∧
    ∃ i, ¬ Listed fs i ∧ dInumber fs'.fsData (entryAddr rootBlock i) = ((n : Nat) : Int) ∧
      ∀ j : Fin maxDirEntries, j ≠ i →
        dInumber fs'.fsData (entryAddr rootBlock j) = dInumber fs.fsData (entryAddr rootBlock j) ∧
        entryName fs'.fsData j = entryName fs.fsData j

/-- Where the open returns -1, no file loses anything, and at most an empty file is new. -/
def LosesNothing (fs : FS) (name : CString) (flags : BitVec 32) : Prop :=
  ∀ fs', tfsOpen fs name flags = some (-1, fs') →
    KeepsFiles fs fs' ∧ (NoTrace fs fs' ∨ NewEmptyFile fs fs')

/-- The open truncates a file with contents although no handle is free. -/
def TruncatesUnopened (fs : FS) (name : CString) (flags : BitVec 32) : Prop :=
  hasFlag flags tfsOTrunc = true ∧ (∀ h, fs.freeOpenFileEntries h = .taken) ∧
    ∃ n : Fin inodeTableSize, tfsLookup fs name = ((n : Nat) : Int) ∧ 0 < (fs.inodeTable n).iSize

/-! ## What an open that fails did -/

/-- The allocated files are those of the invariant. -/
theorem Inv.isAllocated_iff (hinv : Inv k fs) : IsAllocated fs n ↔ IsFile k n := by
  constructor
  · rintro ⟨htaken, htype⟩
    refine ⟨Nat.pos_of_ne_zero fun hzero => ?_, (hinv.inodes n).mp htaken⟩
    rw [show n = 0 from Fin.ext hzero, hinv.root] at htype
    cases htype
  · intro hn
    exact ⟨hinv.taken_of_isFile hn, (hinv.files n hn).1⟩

theorem KeepsFiles.refl (fs : FS) : KeepsFiles fs fs :=
  ⟨fun _ hn => hn, fun _ _ => rfl, fun _ _ => rfl, rfl, rfl, rfl, rfl⟩

/-- An i-node that is no file is free to be overwritten. -/
theorem scrapInode_keepsFiles (hinv : Inv k fs) (hn : (n : Nat) = k + 1) :
    KeepsFiles fs (scrapInode fs n) := by
  have hother : ∀ m, IsFile k m → (scrapInode fs n).inodeTable m = fs.inodeTable m := by
    intro m hm
    have hle := hm.2
    refine Function.update_of_ne ?_ _ _
    rintro rfl
    omega
  refine ⟨fun m hm => ?_, fun m hm => ?_, fun m hm => ?_, rfl, rfl, rfl, rfl⟩
  · rw [IsAllocated, hother m (hinv.isAllocated_iff.mp hm)]
    exact hm
  · rw [hother m (hinv.isAllocated_iff.mp hm)]
  · exact scrapInode_fileBytes hinv hn (hinv.isAllocated_iff.mp hm)

theorem newFile_keepsFiles (hinv : Inv k fs) (hn : (n : Nat) = k + 1) (hk : k < maxDirEntries) :
    KeepsFiles fs (newFile fs n k name) := by
  have hne : ∀ m, IsFile k m → m ≠ n := by
    rintro m hm rfl
    have hle := hm.2
    omega
  have hother : ∀ m, IsFile k m → (newFile fs n k name).inodeTable m = fs.inodeTable m :=
    fun m hm => Function.update_of_ne (hne m hm) _ _
  refine ⟨fun m hm => ?_, fun m hm => ?_, fun m hm => ?_, rfl, rfl, rfl, rfl⟩
  · have hmfile := hinv.isAllocated_iff.mp hm
    refine ⟨?_, by rw [hother m hmfile]; exact hm.2⟩
    exact (Function.update_of_ne (hne m hmfile) _ _).trans hm.1
  · rw [hother m (hinv.isAllocated_iff.mp hm)]
  · exact newFile_fileBytes_other hinv hk hn (hinv.isAllocated_iff.mp hm)

theorem newFile_newEmptyFile (hinv : Inv k fs) (hn : (n : Nat) = k + 1) (hk : k < maxDirEntries)
    (hfull : ∀ h, fs.freeOpenFileEntries h = .taken) :
    NewEmptyFile fs (newFile fs n k name) := by
  have hfree : fs.freeinodeTs n = .free := by
    by_contra htaken
    have hle := (hinv.inodes n).mp (not_free_iff.mp htaken)
    omega
  have hlt := n.isLt
  simp only [inodeTableSize] at hlt
  refine ⟨hfull, n, hfree, rfl, Function.update_self n _ _, ⟨k, hk⟩, ?_, ?_, fun j hj => ?_⟩
  · have hentry := hinv.entries k hk
    rw [if_neg (lt_irrefl k)] at hentry
    exact not_not.mpr hentry
  · rw [newFile_fsData]
    exact fillEntry_dInumber (by omega) (by omega)
  · rw [newFile_fsData]
    exact fillEntry_other fun heq => hj (Fin.ext heq)

/-- An open that fails and does not truncate. -/
theorem OpenStep.losesNothing {r : Int} (hinv : Inv k fs) (h : OpenStep k fs name flags r fs')
    (hr : r = -1) (hkeeps : ¬ TruncatesUnopened fs name flags) :
    KeepsFiles fs fs' ∧ (NoTrace fs fs' ∨ NewEmptyFile fs fs') := by
  cases h with
  | absent => exact ⟨KeepsFiles.refl fs, Or.inl ⟨rfl, rfl⟩⟩
  | @found n fs₁ _ _ hn hname htrunc hadd =>
      rcases addToOpenFileTable_cases hadd with ⟨-, rfl, hfull⟩ | ⟨j, hj, -, -⟩
      · cases htrunc with
        | kept => exact ⟨KeepsFiles.refl fs, Or.inl ⟨rfl, rfl⟩⟩
        | dropped hflag hb =>
            exact absurd ⟨hflag, hfull, n, tfsLookup_of_names hinv hn hname,
              (ownBlock_eq_some.mp hb).2.1⟩ hkeeps
      · omega
  | scrapped _ _ hn _ => exact ⟨scrapInode_keepsFiles hinv hn, Or.inl ⟨rfl, rfl⟩⟩
  | created _ _ hn hk _ hadd =>
      rcases addToOpenFileTable_cases hadd with ⟨-, rfl, hfull⟩ | ⟨j, hj, -, -⟩
      · exact ⟨newFile_keepsFiles hinv hn hk, Or.inr (newFile_newEmptyFile hinv hn hk hfull)⟩
      · omega

/-- An open that truncates without a free handle returns -1, and the file is empty. -/
theorem TruncatesUnopened.truncated (hinv : Inv k fs) (h : TruncatesUnopened fs name flags) :
    ∃ n fs', IsFile k n ∧ 0 < (fs.inodeTable n).iSize ∧
      tfsOpen fs name flags = some (-1, fs') ∧ (fs'.inodeTable n).iSize = 0 := by
  rcases h with ⟨hflag, hfull, n, hlookup, hsize⟩
  rcases tfsLookup_nonneg hinv (by rw [hlookup]; exact Int.natCast_nonneg _) with
    ⟨m, hm, hname, hlookup'⟩
  have hmn : m = n := Fin.ext (by rw [hlookup] at hlookup'; exact_mod_cast hlookup'.symm)
  subst hmn
  have hpath : name.bytes ≠ [] := by
    intro hempty
    have hvalid := hname.1
    simp [validPathname, hempty] at hvalid
  rcases tfsOpen_returns hinv name flags hpath with ⟨r, fs', hopen, hstep⟩
  -- the path is that of the file, so it is opened as an existing one
  have hunnamed : ¬ Unnamed k fs name := by
    intro hun
    rw [tfsLookup_of_unnamed hinv hun] at hlookup
    omega
  cases hstep with
  | absent hun => exact absurd hun hunnamed
  | scrapped hun => exact absurd hun hunnamed
  | created hun => exact absurd hun hunnamed
  | @found n' fs₁ _ _ hn' hname' htrunc hadd =>
      have hsame : n' = m := by
        have hlookup'' := tfsLookup_of_names hinv hn' hname'
        rw [hlookup] at hlookup''
        exact Fin.ext (by exact_mod_cast hlookup''.symm)
      subst hsame
      cases htrunc with
      | kept hwhy =>
          rcases hwhy with hno | hzero
          · rw [hflag] at hno
            cases hno
          · omega
      | @dropped b _ hb =>
          rcases addToOpenFileTable_cases hadd with ⟨rfl, rfl, -⟩ | ⟨j, -, -, hfirst⟩
          · exact ⟨n', _, hm, hsize, hopen, by simp [dropBlock]⟩
          -- no handle is free
          · have hfree := (firstFit_eq_some.mp hfirst).1
            rw [show (dropBlock fs n' b).freeOpenFileEntries j = fs.freeOpenFileEntries j from rfl,
              hfull j] at hfree
            cases hfree

theorem Inv.losesNothing_iff (hinv : Inv k fs) :
    LosesNothing fs name flags ↔ ¬ TruncatesUnopened fs name flags := by
  constructor
  · intro hloses htrunc
    rcases htrunc.truncated hinv with ⟨n, fs', hn, hsize, hopen, hzero⟩
    have hkept := (hloses fs' hopen).1.sizes n (hinv.isAllocated_iff.mpr hn)
    omega
  · intro hkeeps fs' hopen
    exact (tfsOpen_cases hinv hopen).losesNothing hinv rfl hkeeps

/-- In every state of a run whose reads and writes go through handles returned by earlier opens,
for every path and all flags: an open that returns -1 loses no data and leaves at most a new
empty file, unless it truncates a file with contents although no handle is free. -/
theorem failed_open_loses_nothing_iff (h : machine.Reach EarlierHandles (tr, fs))
    (name : CString) (flags : BitVec 32) :
    LosesNothing fs name flags ↔ ¬ TruncatesUnopened fs name flags := by
  rcases reach_runInv h with ⟨k, hinv, -⟩
  exact hinv.losesNothing_iff

/-- With all handles taken, and a file of three bytes next to an empty one, the empty one cannot be
opened with `TFS_O_TRUNC`, and nothing is lost. -/
theorem failed_open_full : ∃ tr fs, machine.Reach EarlierHandles (tr, fs) ∧
    (∀ h, fs.freeOpenFileEntries h = .taken) ∧ (fs.inodeTable 1).iSize = 3 ∧
    (tfsOpen fs pathB tfsOTrunc).map Prod.fst = some (-1) ∧ LosesNothing fs pathB tfsOTrunc := by
  have hplay : (machine.play EarlierHandles ([], machine.init)
      (.open pathA tfsOCreat :: .write 0 [1, 2, 3] :: .open pathB tfsOCreat ::
        List.replicate 18 (.open pathA 0))).map
      (fun cfg : Machine.Trace Call Ret × FS => decide (tfsLookup cfg.2 pathB = 2 ∧
        (cfg.2.inodeTable 1).iSize = 3 ∧ (cfg.2.inodeTable 2).iSize = 0 ∧
        (∀ h, cfg.2.freeOpenFileEntries h = .taken) ∧
        (tfsOpen cfg.2 pathB tfsOTrunc).map Prod.fst = some (-1))) = some true := by
    decide +kernel
  rcases Option.map_eq_some_iff.mp hplay with ⟨⟨tr, fs⟩, hplay, hfacts⟩
  rcases of_decide_eq_true hfacts with ⟨hlookup, hsize, hempty, hfull, hfails⟩
  have hreach : machine.Reach EarlierHandles (tr, fs) := Machine.Reach.start.play hplay
  refine ⟨tr, fs, hreach, hfull, hsize, hfails, ?_⟩
  refine (failed_open_loses_nothing_iff hreach pathB tfsOTrunc).mpr ?_
  rintro ⟨-, -, n, hn, hpos⟩
  have htwo : n = 2 := by
    rw [hlookup] at hn
    have hnumber : (2 : Int) = ((n : Nat) : Int) := hn
    exact Fin.ext (by simp only [Fin.val_two]; omega)
  rw [htwo, hempty] at hpos
  exact absurd hpos (Nat.lt_irrefl 0)

/-- The file "/a" of three bytes is open twenty times. To open it once more with `TFS_O_TRUNC`
fails, and empties it. -/
theorem failed_open_truncates : ∃ tr fs, machine.Reach EarlierHandles (tr, fs) ∧
    ¬ LosesNothing fs pathA tfsOTrunc := by
  have hplay : (machine.play EarlierHandles ([], machine.init)
      (.open pathA tfsOCreat :: .write 0 [1, 2, 3] :: List.replicate 19 (.open pathA 0))).map
      (fun cfg : Machine.Trace Call Ret × FS => decide (tfsLookup cfg.2 pathA = 1 ∧
        (cfg.2.inodeTable 1).iSize = 3 ∧ ∀ h, cfg.2.freeOpenFileEntries h = .taken)) =
      some true := by
    decide +kernel
  rcases Option.map_eq_some_iff.mp hplay with ⟨⟨tr, fs⟩, hplay, hfacts⟩
  rcases of_decide_eq_true hfacts with ⟨hlookup, hsize, hfull⟩
  have hreach : machine.Reach EarlierHandles (tr, fs) := Machine.Reach.start.play hplay
  rcases reach_runInv hreach with ⟨k, hinv, -⟩
  refine ⟨tr, fs, hreach, ?_⟩
  rw [hinv.losesNothing_iff, not_not]
  refine ⟨by decide, hfull, 1, hlookup, ?_⟩
  rw [hsize]
  decide

end TecnicoFS.Part2
