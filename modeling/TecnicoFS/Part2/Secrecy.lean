import TecnicoFS.Part2.Refinement

/-!
# Part 2: files do not leak into each other

Two runs make the same calls, and differ only in the bytes they write to files other
than `F`. `Agree` couples their states: the same tables, the same root directory and
the same bytes of `F`. Every pair of calls keeps it, as long as `F` is read and
written at offsets inside it, so both runs read the same bytes of `F`.

An offset beyond the end of `F` is left behind by a truncation through another
handle. A write there gives `F` a block without clearing what it held before, and
the two runs come apart.
-/

namespace TecnicoFS.Part2

variable {k k' : Nat} {fs fs₁ fs₂ fs₁' fs₂' : FS} {n m : Fin inodeTableSize} {fhandle : Int}
  {name : CString} {flags : BitVec 32} {r r₁ r₂ : Int}

/-! ## Pairs of calls -/

/-- The handle refers to file `n`. -/
def OnFile (fs : FS) (n : Fin inodeTableSize) (fhandle : Int) : Prop :=
  ∃ h, getOpenFileEntry fhandle = some h ∧ (fs.openFileTable h).ofInumber = (n : Nat)

instance : Decidable (OnFile fs n fhandle) :=
  inferInstanceAs (Decidable (∃ h, getOpenFileEntry fhandle = some h ∧
    (fs.openFileTable h).ofInumber = (n : Nat)))

/-- The same call, up to the bytes written to files other than `n`. -/
def SameButData (n : Fin inodeTableSize) (fs : FS) : Call × Call → Prop
  | (.write fhandle buffer, .write fhandle' buffer') =>
      fhandle = fhandle' ∧ buffer.length = buffer'.length ∧
        (OnFile fs n fhandle → buffer = buffer')
  | (c, c') => c = c'

instance decidableSameButData : ∀ c, Decidable (SameButData n fs c) := by
  rintro ⟨c, c'⟩
  unfold SameButData
  split <;> infer_instance

/-- Two runs side by side. -/
def pairMachine : Machine (FS × FS) (Call × Call) (Ret × Ret) where
  init := (machine.init, machine.init)
  exec s c :=
    match machine.exec s.1 c.1, machine.exec s.2 c.2 with
    | some (r₁, s₁), some (r₂, s₂) => some ((r₁, r₂), (s₁, s₂))
    | _, _ => none

theorem pairMachine_init : pairMachine.init = (machine.init, machine.init) := rfl

/-- The calls of the two runs: the same up to the bytes of other files, with reads
and writes on open handles. -/
def Paired (n : Fin inodeTableSize) (s : FS × FS) (c : Call × Call) : Prop :=
  SameButData n s.1 c ∧ ∀ fhandle ∈ c.1.through, IsOpen s.1 fhandle

/-- The offset of the handle lies inside file `n`, if it refers to that file. -/
def InPlace (n : Fin inodeTableSize) (fs : FS) (c : Call) : Prop :=
  ∀ fhandle ∈ c.through, ∀ h, getOpenFileEntry fhandle = some h →
    (fs.openFileTable h).ofInumber = (n : Nat) →
      (fs.openFileTable h).ofOffset ≤ (fs.inodeTable n).iSize

/-- The two runs make paired calls, and read and write file `n` inside it. -/
def PairedInPlace (n : Fin inodeTableSize) (s : FS × FS) (c : Call × Call) : Prop :=
  Paired n s c ∧ InPlace n s.1 c.1

instance decidablePaired : ∀ s c, Decidable (Paired n s c) := fun s c =>
  inferInstanceAs (Decidable (SameButData n s.1 c ∧ ∀ fhandle ∈ c.1.through, IsOpen s.1 fhandle))

instance decidablePairedInPlace : ∀ s c, Decidable (PairedInPlace n s c) := fun s c =>
  inferInstanceAs (Decidable (Paired n s c ∧ ∀ fhandle ∈ c.1.through, ∀ h,
    getOpenFileEntry fhandle = some h → (s.1.openFileTable h).ofInumber = (n : Nat) →
      (s.1.openFileTable h).ofOffset ≤ (s.1.inodeTable n).iSize))

/-! ## The coupling -/

/-- The two states show the same tables, the same root directory and the same bytes
of file `n`. -/
structure Agree (n : Fin inodeTableSize) (k : Nat) (fs₁ fs₂ : FS) : Prop where
  inv₁ : Inv k fs₁
  inv₂ : Inv k fs₂
  inodeTable : fs₁.inodeTable = fs₂.inodeTable
  freeinodeTs : fs₁.freeinodeTs = fs₂.freeinodeTs
  freeBlocks : fs₁.freeBlocks = fs₂.freeBlocks
  openFileTable : fs₁.openFileTable = fs₂.openFileTable
  freeOpenFileEntries : fs₁.freeOpenFileEntries = fs₂.freeOpenFileEntries
  names : ∀ i < k, entryName fs₁.fsData i = entryName fs₂.fsData i
  bytes : IsFile k n → fileBytes fs₁ n = fileBytes fs₂ n

namespace Agree

theorem ownBlock (h : Agree n k fs₁ fs₂) (m : Fin inodeTableSize) :
    ownBlock fs₁ m = ownBlock fs₂ m :=
  ownBlock_congr (by rw [h.freeinodeTs]) (by rw [h.inodeTable])

theorem writeTarget (h : Agree n k fs₁ fs₂) {b : Fin dataBlocks} :
    WriteTarget fs₁ m b ↔ WriteTarget fs₂ m b := by
  unfold WriteTarget
  rw [h.ownBlock, h.inodeTable, h.freeBlocks]

theorem names_iff (h : Agree n k fs₁ fs₂) (hm : IsFile k m) :
    Names fs₁ name m ↔ Names fs₂ name m := by
  have hle := hm.2
  have hpos := hm.1
  unfold Names
  rw [h.names _ (by omega)]
  refine and_congr_right fun _ => and_congr_right fun _ => ?_
  refine forall_congr' fun i => forall_congr' fun hi => ?_
  rw [h.names i (by omega)]

theorem unnamed_iff (h : Agree n k fs₁ fs₂) : Unnamed k fs₁ name ↔ Unnamed k fs₂ name := by
  unfold Unnamed
  refine forall_congr' fun _ => forall_congr' fun i => forall_congr' fun hi => ?_
  rw [h.names i hi]

/-- States that differ from agreeing ones in the handles only. -/
theorem withHandles (h : Agree n k fs₁ fs₂) (hinv₁ : Inv k fs₁') (hinv₂ : Inv k fs₂')
    (hi₁ : fs₁'.inodeTable = fs₁.inodeTable) (hi₂ : fs₂'.inodeTable = fs₂.inodeTable)
    (ht₁ : fs₁'.freeinodeTs = fs₁.freeinodeTs) (ht₂ : fs₂'.freeinodeTs = fs₂.freeinodeTs)
    (hb₁ : fs₁'.freeBlocks = fs₁.freeBlocks) (hb₂ : fs₂'.freeBlocks = fs₂.freeBlocks)
    (hd₁ : fs₁'.fsData = fs₁.fsData) (hd₂ : fs₂'.fsData = fs₂.fsData)
    (ho : fs₁'.openFileTable = fs₂'.openFileTable)
    (hf : fs₁'.freeOpenFileEntries = fs₂'.freeOpenFileEntries) : Agree n k fs₁' fs₂' where
  inv₁ := hinv₁
  inv₂ := hinv₂
  inodeTable := by rw [hi₁, hi₂, h.inodeTable]
  freeinodeTs := by rw [ht₁, ht₂, h.freeinodeTs]
  freeBlocks := by rw [hb₁, hb₂, h.freeBlocks]
  openFileTable := ho
  freeOpenFileEntries := hf
  names := by
    intro i hi
    rw [hd₁, hd₂, h.names i hi]
  bytes := by
    intro hn
    have hsame : ∀ {fs fs' : FS}, fs'.inodeTable = fs.inodeTable →
        fs'.freeinodeTs = fs.freeinodeTs → fs'.fsData = fs.fsData →
          fileBytes fs' n = fileBytes fs n := by
      intro fs fs' hi ht hd
      unfold fileBytes
      have hown : Part2.ownBlock fs' n = Part2.ownBlock fs n :=
        ownBlock_congr (by rw [ht]) (by rw [hi])
      rw [hown, hi, hd]
    rw [hsame hi₁ ht₁ hd₁, hsame hi₂ ht₂ hd₂, h.bytes hn]

end Agree

/-! ## Open and close -/

theorem Agree.truncated (h : Agree n k fs₁ fs₂) (hm : IsFile k m)
    (h₁ : Truncation fs₁ m flags fs₁') (h₂ : Truncation fs₂ m flags fs₂') :
    Agree n k fs₁' fs₂' := by
  have hsize : ∀ {fs : FS} {b : Fin dataBlocks}, Part2.ownBlock fs m = some b →
      ¬ (fs.inodeTable m).iSize = 0 := by
    intro fs b hb hzero
    rw [ownBlock_of_empty hzero] at hb
    cases hb
  cases h₁ with
  | kept hwhy₁ =>
      cases h₂ with
      | kept _ => exact h
      | dropped hyes hb =>
          rcases hwhy₁ with hno | hzero
          · rw [hyes] at hno
            cases hno
          · rw [h.inodeTable] at hzero
            exact absurd hzero (hsize hb)
  | @dropped b hyes hb =>
      cases h₂ with
      | kept hwhy₂ =>
          rcases hwhy₂ with hno | hzero
          · rw [hyes] at hno
            cases hno
          · rw [← h.inodeTable] at hzero
            exact absurd hzero (hsize hb)
      | @dropped c _ hc =>
          have hbc : b = c := by
            rw [h.ownBlock, hc] at hb
            exact (Option.some.inj hb).symm
          subst hbc
          refine
            { inv₁ := dropBlock_inv h.inv₁ hm hb
              inv₂ := dropBlock_inv h.inv₂ hm hc
              inodeTable := ?_
              freeinodeTs := h.freeinodeTs
              freeBlocks := ?_
              openFileTable := h.openFileTable
              freeOpenFileEntries := h.freeOpenFileEntries
              names := h.names
              bytes := ?_ }
          · simp only [dropBlock, h.inodeTable]
          · simp only [dropBlock, h.freeBlocks]
          · -- the truncated file is empty on both sides, the others are untouched
            intro hn
            by_cases hnm : n = m
            · rw [hnm, dropBlock_fileBytes_self, dropBlock_fileBytes_self]
            · rw [dropBlock_fileBytes_other h.inv₁ hn hnm, dropBlock_fileBytes_other h.inv₂ hn hnm,
                h.bytes hn]

theorem Agree.added {offset : Nat} (h : Agree n k fs₁ fs₂) (hm : IsFile k m)
    (hoff : offset ≤ blockSize)
    (h₁ : addToOpenFileTable fs₁ (m : Nat) offset = (r₁, fs₁'))
    (h₂ : addToOpenFileTable fs₂ (m : Nat) offset = (r₂, fs₂')) :
    r₁ = r₂ ∧ Agree n k fs₁' fs₂' := by
  unfold addToOpenFileTable at h₁ h₂
  rw [h.freeOpenFileEntries] at h₁
  cases hfit : firstFit fun j => fs₂.freeOpenFileEntries j = .free with
  | none =>
      rw [hfit] at h₁ h₂
      obtain ⟨rfl, rfl⟩ := Prod.mk.inj h₁
      obtain ⟨rfl, rfl⟩ := Prod.mk.inj h₂
      exact ⟨rfl, h⟩
  | some j =>
      rw [hfit] at h₁ h₂
      obtain ⟨rfl, rfl⟩ := Prod.mk.inj h₁
      obtain ⟨rfl, rfl⟩ := Prod.mk.inj h₂
      have hinv₁ : Inv k (newHandle fs₁ j (m : Nat) offset) :=
        newHandle_inv h.inv₁ hm (hoff.trans blockSize_le)
      have hinv₂ : Inv k (newHandle fs₂ j (m : Nat) offset) :=
        newHandle_inv h.inv₂ hm (hoff.trans blockSize_le)
      unfold newHandle at hinv₁ hinv₂
      rw [h.freeOpenFileEntries] at hinv₁
      refine ⟨rfl, h.withHandles hinv₁ hinv₂ rfl rfl rfl rfl rfl rfl rfl rfl ?_ rfl⟩
      simp only [h.openFileTable]

/-- A creation adds the same empty file on both sides. -/
theorem Agree.created (h : Agree n k fs₁ fs₂) (hm : (m : Nat) = k + 1) (hk : k < maxDirEntries) :
    Agree n (k + 1) (newFile fs₁ m k name) (newFile fs₂ m k name) := by
  refine
    { inv₁ := newFile_inv h.inv₁ hm hk
      inv₂ := newFile_inv h.inv₂ hm hk
      inodeTable := ?_
      freeinodeTs := ?_
      freeBlocks := h.freeBlocks
      openFileTable := h.openFileTable
      freeOpenFileEntries := h.freeOpenFileEntries
      names := ?_
      bytes := ?_ }
  · simp only [newFile, h.inodeTable]
  · simp only [newFile, h.freeinodeTs]
  · intro i hi
    rw [newFile_fsData, newFile_fsData]
    by_cases hik : i = k
    · rw [hik, fillEntry_entryName, fillEntry_entryName]
    · rw [(fillEntry_other hik).2, (fillEntry_other hik).2, h.names i (by omega)]
  · intro hn
    by_cases hnm : n = m
    · rw [hnm, newFile_fileBytes_self, newFile_fileBytes_self]
    · have hne : (n : Nat) ≠ m := fun heq => hnm (Fin.ext heq)
      have hold : IsFile k n := ⟨hn.1, by have := hn.2; omega⟩
      rw [newFile_fileBytes_other h.inv₁ hk hm hold, newFile_fileBytes_other h.inv₂ hk hm hold,
        h.bytes hold]

theorem Agree.scrapped (h : Agree n k fs₁ fs₂) (hm : (m : Nat) = k + 1) :
    Agree n k (scrapInode fs₁ m) (scrapInode fs₂ m) := by
  refine
    { inv₁ := scrapInode_inv h.inv₁ hm
      inv₂ := scrapInode_inv h.inv₂ hm
      inodeTable := ?_
      freeinodeTs := h.freeinodeTs
      freeBlocks := h.freeBlocks
      openFileTable := h.openFileTable
      freeOpenFileEntries := h.freeOpenFileEntries
      names := h.names
      bytes := ?_ }
  · simp only [scrapInode, h.inodeTable]
  · intro hn
    rw [scrapInode_fileBytes h.inv₁ hm hn, scrapInode_fileBytes h.inv₂ hm hn, h.bytes hn]

/-- A path that names a file on one side is not unnamed on the other. -/
theorem Agree.not_unnamed (h : Agree n k fs₁ fs₂) (hm : IsFile k m) (hnames : Names fs₁ name m) :
    ¬ Unnamed k fs₂ name := by
  intro hun
  have hfound := tfsLookup_of_names h.inv₁ hm hnames
  rw [tfsLookup_of_unnamed h.inv₁ (h.unnamed_iff.mpr hun)] at hfound
  omega

theorem Agree.symm (h : Agree n k fs₁ fs₂) : Agree n k fs₂ fs₁ where
  inv₁ := h.inv₂
  inv₂ := h.inv₁
  inodeTable := h.inodeTable.symm
  freeinodeTs := h.freeinodeTs.symm
  freeBlocks := h.freeBlocks.symm
  openFileTable := h.openFileTable.symm
  freeOpenFileEntries := h.freeOpenFileEntries.symm
  names := fun i hi => (h.names i hi).symm
  bytes := fun hn => (h.bytes hn).symm

/-- The same `tfs_open` on both sides does the same. -/
theorem Agree.opened (h : Agree n k fs₁ fs₂) (h₁ : OpenStep k fs₁ name flags r₁ fs₁')
    (h₂ : OpenStep k fs₂ name flags r₂ fs₂') :
    r₁ = r₂ ∧ ∃ k', Agree n k' fs₁' fs₂' := by
  cases h₁ with
  | absent hun₁ hno =>
      cases h₂ with
      | absent _ _ => exact ⟨rfl, k, h⟩
      | found hm hnames _ _ => exact absurd hun₁ (h.symm.not_unnamed hm hnames)
      | scrapped _ hyes _ _ => rw [hno] at hyes; cases hyes
      | created _ hyes _ _ _ _ => rw [hno] at hyes; cases hyes
  | @found m fs₁'' _ _ hm hnames htrunc₁ hadd₁ =>
      cases h₂ with
      | absent hun _ => exact absurd hun (h.not_unnamed hm hnames)
      | scrapped hun _ _ _ => exact absurd hun (h.not_unnamed hm hnames)
      | created hun _ _ _ _ _ => exact absurd hun (h.not_unnamed hm hnames)
      | @found m' fs₂'' _ _ hm' hnames' htrunc₂ hadd₂ =>
          -- the names agree, so the path leads to the same file
          have hmm : m = m' := by
            have hfound := tfsLookup_of_names h.inv₂ hm ((h.names_iff hm).mp hnames)
            rw [tfsLookup_of_names h.inv₂ hm' hnames'] at hfound
            exact (Fin.ext (Int.ofNat_inj.mp hfound)).symm
          subst hmm
          have htrunc := h.truncated hm htrunc₁ htrunc₂
          have hoffset : openOffset fs₁'' m flags = openOffset fs₂'' m flags := by
            unfold openOffset
            rw [htrunc.inodeTable]
          rw [← hoffset] at hadd₂
          have hadded := htrunc.added hm (openOffset_le htrunc.inv₁ hm) hadd₁ hadd₂
          exact ⟨hadded.1, k, hadded.2⟩
  | @scrapped m hun₁ hyes hm hwhy =>
      cases h₂ with
      | absent _ hno => rw [hno] at hyes; cases hyes
      | found hm' hnames _ _ => exact absurd hun₁ (h.symm.not_unnamed hm' hnames)
      | @scrapped m' _ _ hm' _ =>
          have hmm : m = m' := Fin.ext (hm.trans hm'.symm)
          subst hmm
          exact ⟨rfl, k, h.scrapped hm⟩
      | created _ _ _ hk hne _ =>
          rcases hwhy with hfull | hempty
          · omega
          · exact absurd hempty hne
  | @created m _ _ hun₁ hyes hm hk hne hadd₁ =>
      cases h₂ with
      | absent _ hno => rw [hno] at hyes; cases hyes
      | found hm' hnames _ _ => exact absurd hun₁ (h.symm.not_unnamed hm' hnames)
      | scrapped _ _ _ hwhy =>
          rcases hwhy with hfull | hempty
          · omega
          · exact absurd hempty hne
      | @created m' _ _ _ _ hm' _ _ hadd₂ =>
          have hmm : m = m' := Fin.ext (hm.trans hm'.symm)
          subst hmm
          have hfile : IsFile (k + 1) m := ⟨by omega, by omega⟩
          have hadded := (h.created hm hk).added hfile (Nat.zero_le _) hadd₁ hadd₂
          exact ⟨hadded.1, k + 1, hadded.2⟩

theorem Agree.closed (h : Agree n k fs₁ fs₂) (fhandle : Int) :
    (tfsClose fs₁ fhandle).1 = (tfsClose fs₂ fhandle).1 ∧
      Agree n k (tfsClose fs₁ fhandle).2 (tfsClose fs₂ fhandle).2 := by
  have hisOpen : ∀ j, fs₁.freeOpenFileEntries j = fs₂.freeOpenFileEntries j := fun j => by
    rw [h.freeOpenFileEntries]
  rcases tfsClose_cases fs₁ fhandle with ⟨j, hj, ht, hclose₁⟩ | ⟨hclosed, hclose₁⟩
  · rcases tfsClose_cases fs₂ fhandle with ⟨i, hi, -, hclose₂⟩ | ⟨hclosed, -⟩
    · have hij : i = j := Option.some.inj (hi.symm.trans hj)
      subst hij
      rw [hclose₁, hclose₂]
      refine ⟨rfl, h.withHandles (dropHandle_inv h.inv₁) (dropHandle_inv h.inv₂)
        rfl rfl rfl rfl rfl rfl rfl rfl h.openFileTable ?_⟩
      simp only [dropHandle, h.freeOpenFileEntries]
    · exact absurd ⟨j, hj, (hisOpen j).symm.trans ht⟩ hclosed
  · rcases tfsClose_cases fs₂ fhandle with ⟨i, hi, ht, -⟩ | ⟨-, hclose₂⟩
    · exact absurd ⟨i, hi, (hisOpen i).trans ht⟩ hclosed
    · rw [hclose₁, hclose₂]
      exact ⟨rfl, h⟩

/-! ## Write -/

/-- A write goes to the same block on both sides. -/
theorem Agree.target_eq {b c : Fin dataBlocks} (h : Agree n k fs₁ fs₂)
    (hw₁ : WriteTarget fs₁ m b) (hw₂ : WriteTarget fs₂ m c) : b = c := by
  rcases h.writeTarget.mp hw₁ with hb | ⟨hempty, hb⟩
  · rcases hw₂ with hc | ⟨hempty', hc⟩
    · exact Option.some.inj (hb.symm.trans hc)
    · rw [ownBlock_of_empty hempty'] at hb
      cases hb
  · rcases hw₂ with hc | ⟨hempty', hc⟩
    · rw [ownBlock_of_empty hempty] at hc
      cases hc
    · exact Option.some.inj (hb.symm.trans hc)

/-- As many bytes in the same block, and in file `n` the same bytes inside the file. -/
theorem Agree.written {i : Fin maxOpenFiles} {b : Fin dataBlocks} {data₁ data₂ : List UInt8}
    (h : Agree n k fs₁ fs₂) (hm : IsFile k m)
    (hnum : (fs₁.openFileTable i).ofInumber = (m : Nat)) (hw₁ : WriteTarget fs₁ m b)
    (hcount : data₁.length = data₂.length) (hpos : 0 < data₁.length)
    (hfit : (fs₁.openFileTable i).ofOffset + data₁.length ≤ blockSize)
    (hdata : n = m → data₁ = data₂)
    (hin : n = m → (fs₁.openFileTable i).ofOffset ≤ (fs₁.inodeTable n).iSize) :
    Agree n k (writeAt fs₁ i m b data₁) (writeAt fs₂ i m b data₂) := by
  have hw₂ : WriteTarget fs₂ m b := h.writeTarget.mp hw₁
  have hnum₂ := hnum
  have hfit₂ := hfit
  have hpos₂ := hpos
  rw [h.openFileTable] at hnum₂
  rw [h.openFileTable, hcount] at hfit₂
  rw [hcount] at hpos₂
  refine
    { inv₁ := writeAt_inv h.inv₁ hm hnum hw₁ hpos hfit
      inv₂ := writeAt_inv h.inv₂ hm hnum₂ hw₂ hpos₂ hfit₂
      inodeTable := ?_
      freeinodeTs := h.freeinodeTs
      freeBlocks := ?_
      openFileTable := ?_
      freeOpenFileEntries := h.freeOpenFileEntries
      names := ?_
      bytes := ?_ }
  · simp only [writeAt, h.inodeTable, h.openFileTable, hcount]
  · simp only [writeAt, h.freeBlocks]
  · simp only [writeAt, h.openFileTable, hcount]
  · -- the block is not the one of the root directory
    intro x hx
    have hge := blockAddr_ge (hw₁.ne_root h.inv₁ hm.1)
    have hx' : x < maxDirEntries := hx.trans_le h.inv₁.files_le
    rw [writeAt_fsData, writeAt_fsData,
      (entry_store_outside hx' (hge.trans (Nat.le_add_right _ _))).2,
      (entry_store_outside hx' (hge.trans (Nat.le_add_right _ _))).2, h.names x hx]
  · intro hn
    by_cases hnm : n = m
    · have hoff := hin hnm
      subst hnm
      have hoff₂ := hoff
      rw [h.openFileTable, h.inodeTable] at hoff₂
      rw [writeAt_fileBytes_self h.inv₁ hm hw₁ hpos hoff,
        writeAt_fileBytes_self h.inv₂ hm hw₂ hpos₂ hoff₂, h.bytes hn, h.openFileTable, hdata rfl]
    · rw [writeAt_fileBytes_other h.inv₁ hw₁ hfit hn hnm,
        writeAt_fileBytes_other h.inv₂ hw₂ hfit₂ hn hnm, h.bytes hn]

/-- Writes of the same length on both sides. They may write different bytes to a file
other than `n`; in file `n` they write the same, inside the file. -/
theorem Agree.wrote {buffer₁ buffer₂ : List UInt8} (h : Agree n k fs₁ fs₂)
    (hlen : buffer₁.length = buffer₂.length) (hsame : OnFile fs₁ n fhandle → buffer₁ = buffer₂)
    (hin : ∀ j, getOpenFileEntry fhandle = some j → (fs₁.openFileTable j).ofInumber = (n : Nat) →
      (fs₁.openFileTable j).ofOffset ≤ (fs₁.inodeTable n).iSize)
    (h₁ : WriteStep k fs₁ fhandle buffer₁ r₁ fs₁')
    (h₂ : WriteStep k fs₂ fhandle buffer₂ r₂ fs₂') : r₁ = r₂ ∧ Agree n k fs₁' fs₂' := by
  cases h₁ with
  | badHandle hnone =>
      cases h₂ with
      | badHandle _ => exact ⟨rfl, h⟩
      | nothing hj _ => rw [hnone] at hj; cases hj
      | wrote hj _ _ _ _ _ _ _ => rw [hnone] at hj; cases hj
  | @nothing j hj hzero =>
      cases h₂ with
      | badHandle hnone => rw [hnone] at hj; cases hj
      | nothing _ _ => exact ⟨rfl, h⟩
      | @wrote i _ _ _ hi _ _ _ hdata hpos _ _ =>
          have hij : i = j := Option.some.inj (hi.symm.trans hj)
          rw [hij, ← hlen, ← h.openFileTable, hzero] at hdata
          omega
  | @wrote j m b data₁ hj hm hnum hdata₁ hlen₁ hpos hfit₁ hw₁ =>
      cases h₂ with
      | badHandle hnone => rw [hnone] at hj; cases hj
      -- how much is written depends on the offset and the length alone
      | @nothing i hi hzero =>
          have hij : i = j := Option.some.inj (hi.symm.trans hj)
          rw [hij, ← hlen, ← h.openFileTable, ← hlen₁] at hzero
          omega
      | @wrote i m' c data₂ hi hm' hnum' hdata₂ hlen₂ hpos₂ hfit₂ hw₂ =>
          have hij : i = j := Option.some.inj (hi.symm.trans hj)
          subst hij
          have hmm : m = m' := by
            rw [h.openFileTable, hnum'] at hnum
            exact (Fin.ext (Int.ofNat_inj.mp hnum)).symm
          subst hmm
          have hbc : b = c := h.target_eq hw₁ hw₂
          subst hbc
          have hcount : data₁.length = data₂.length := by
            rw [hlen₁, hlen₂, hlen, h.openFileTable]
          refine ⟨by rw [hcount], h.written hm hnum hw₁ hcount hpos hfit₁ ?_ ?_⟩
          · rintro rfl
            rw [hdata₁, hdata₂, hsame ⟨i, hi, hnum⟩, h.openFileTable]
          · rintro rfl
            exact hin i hi hnum

/-! ## Read -/

/-- Reads of the same length move the handle alike on both sides. -/
theorem Agree.read {len : Nat} {bytes₁ bytes₂ : List UInt8} (h : Agree n k fs₁ fs₂)
    (h₁ : ReadStep k fs₁ fhandle len r₁ bytes₁ fs₁')
    (h₂ : ReadStep k fs₂ fhandle len r₂ bytes₂ fs₂') : Agree n k fs₁' fs₂' := by
  have hinode : ∀ {i j : Fin maxOpenFiles} {m m' : Fin inodeTableSize},
      getOpenFileEntry fhandle = some i → getOpenFileEntry fhandle = some j →
      (fs₁.openFileTable i).ofInumber = (m : Nat) → (fs₂.openFileTable j).ofInumber = (m' : Nat) →
        i = j ∧ m = m' := by
    intro i j m m' hi hj hm hm'
    have hij : i = j := Option.some.inj (hi.symm.trans hj)
    rw [hij, h.openFileTable, hm'] at hm
    exact ⟨hij, (Fin.ext (Int.ofNat_inj.mp hm)).symm⟩
  cases h₁ with
  | badHandle hnone =>
      cases h₂ with
      | badHandle _ => exact h
      | nothing hj _ _ _ => rw [hnone] at hj; cases hj
      | noBlock hj _ _ _ _ => rw [hnone] at hj; cases hj
      | got hj _ _ _ _ _ _ => rw [hnone] at hj; cases hj
  | nothing hi hm hnum hzero =>
      cases h₂ with
      | badHandle _ => exact h
      | nothing _ _ _ _ => exact h
      | noBlock _ _ _ _ _ => exact h
      | got hj hm' hnum' hcount hpos _ _ =>
          rcases hinode hi hj hnum hnum' with ⟨rfl, rfl⟩
          rw [← h.inodeTable, ← h.openFileTable, hzero] at hcount
          omega
  | noBlock hi hm hnum hpos hnone =>
      cases h₂ with
      | badHandle _ => exact h
      | nothing _ _ _ _ => exact h
      | noBlock _ _ _ _ _ => exact h
      | got hj hm' hnum' _ _ hblock _ =>
          rcases hinode hi hj hnum hnum' with ⟨rfl, rfl⟩
          rw [h.inodeTable, hblock, dataBlockGet, index?_natCast] at hnone
          cases hnone
  | @got i m b count hi hm hnum hcount hpos hblock hfit =>
      cases h₂ with
      | badHandle hnone => rw [hnone] at hi; cases hi
      | nothing hj hm' hnum' hzero =>
          rcases hinode hi hj hnum hnum' with ⟨rfl, rfl⟩
          rw [h.inodeTable, h.openFileTable, hzero] at hcount
          omega
      | noBlock hj hm' hnum' _ hnone =>
          rcases hinode hi hj hnum hnum' with ⟨rfl, rfl⟩
          rw [← h.inodeTable, hblock, dataBlockGet, index?_natCast] at hnone
          cases hnone
      | @got j m' c count' hj hm' hnum' hcount' _ _ hfit' =>
          rcases hinode hi hj hnum hnum' with ⟨rfl, rfl⟩
          have hsame : count = count' := by
            rw [hcount, hcount', h.inodeTable, h.openFileTable]
          subst hsame
          have hinside₁ : (fs₁.openFileTable i).ofOffset + count ≤ fsDataSize := by omega
          have hinside₂ : (fs₂.openFileTable i).ofOffset + count ≤ fsDataSize := by omega
          have hinv₁ := moveHandle_inv (h := i) h.inv₁ ⟨m, hm, hnum, by omega⟩ hinside₁
          have hinv₂ := moveHandle_inv (h := i) h.inv₂ ⟨m, hm, hnum', by omega⟩ hinside₂
          refine h.withHandles hinv₁ hinv₂ rfl rfl rfl rfl rfl rfl rfl rfl ?_ h.freeOpenFileEntries
          simp only [moveHandle, h.openFileTable]

/-! ## Runs -/

/-- Paired calls are writes of the same length, or the same call. -/
theorem SameButData.cases {c₁ c₂ : Call} (h : SameButData n fs (c₁, c₂)) :
    (∃ fhandle buffer₁ buffer₂, c₁ = .write fhandle buffer₁ ∧ c₂ = .write fhandle buffer₂ ∧
        buffer₁.length = buffer₂.length ∧ (OnFile fs n fhandle → buffer₁ = buffer₂)) ∨
      c₁ = c₂ ∧ ∀ fhandle buffer, c₁ ≠ .write fhandle buffer := by
  unfold SameButData at h
  split at h
  · rename_i fhandle buffer fhandle' buffer' heq
    rcases Prod.mk.inj heq with ⟨rfl, rfl⟩
    rcases h with ⟨rfl, hlen, hsame⟩
    exact Or.inl ⟨fhandle, buffer, buffer', rfl, rfl, hlen, hsame⟩
  · rename_i hother heq
    rcases Prod.mk.inj heq with ⟨rfl, rfl⟩
    subst h
    refine Or.inr ⟨rfl, fun fhandle buffer hc => ?_⟩
    exact hother fhandle buffer fhandle buffer hc hc

/-- One pair of calls keeps the agreement. -/
theorem Agree.step {c : Call × Call} {ret₁ ret₂ : Ret} (h : Agree n k fs₁ fs₂)
    (hok : PairedInPlace n (fs₁, fs₂) c) (h₁ : exec fs₁ c.1 = some (ret₁, fs₁'))
    (h₂ : exec fs₂ c.2 = some (ret₂, fs₂')) : ∃ k', Agree n k' fs₁' fs₂' := by
  rcases c with ⟨c₁, c₂⟩
  rcases hok with ⟨⟨hsame, hopen⟩, hin⟩
  have hissued : ∀ fhandle, c₁.through = some fhandle →
      Issued fs₁ fhandle ∧ Issued fs₂ fhandle := by
    intro fhandle hc
    have hiss := (hopen fhandle hc).issued h.inv₁
    refine ⟨hiss, fun j hj => ?_⟩
    rw [← h.openFileTable]
    exact hiss j hj
  rcases hsame.cases with ⟨fhandle, buffer₁, buffer₂, rfl, rfl, hlen, hdata⟩ | ⟨rfl, hnot⟩
  · rcases Option.map_eq_some_iff.mp h₁ with ⟨⟨r₁, fs₁1⟩, hw₁, heq₁⟩
    rcases Option.map_eq_some_iff.mp h₂ with ⟨⟨r₂, fs₂1⟩, hw₂, heq₂⟩
    rcases Prod.mk.inj heq₁ with ⟨-, rfl⟩
    rcases Prod.mk.inj heq₂ with ⟨-, rfl⟩
    have hiss := hissued fhandle rfl
    exact ⟨k, (h.wrote hlen hdata (hin fhandle rfl) (tfsWrite_cases h.inv₁ hiss.1 hw₁)
      (tfsWrite_cases h.inv₂ hiss.2 hw₂)).2⟩
  · cases c₁ with
    | lookup name =>
        rcases Prod.mk.inj (Option.some.inj h₁) with ⟨-, rfl⟩
        rcases Prod.mk.inj (Option.some.inj h₂) with ⟨-, rfl⟩
        exact ⟨k, h⟩
    | «open» name flags =>
        rcases Option.map_eq_some_iff.mp h₁ with ⟨⟨r₁, fs₁1⟩, ho₁, heq₁⟩
        rcases Option.map_eq_some_iff.mp h₂ with ⟨⟨r₂, fs₂1⟩, ho₂, heq₂⟩
        rcases Prod.mk.inj heq₁ with ⟨-, rfl⟩
        rcases Prod.mk.inj heq₂ with ⟨-, rfl⟩
        exact (h.opened (tfsOpen_cases h.inv₁ ho₁) (tfsOpen_cases h.inv₂ ho₂)).2
    | close fhandle =>
        rcases Prod.mk.inj (Option.some.inj h₁) with ⟨-, rfl⟩
        rcases Prod.mk.inj (Option.some.inj h₂) with ⟨-, rfl⟩
        exact ⟨k, (h.closed fhandle).2⟩
    | write fhandle buffer => exact absurd rfl (hnot fhandle buffer)
    | read fhandle len =>
        rcases Option.map_eq_some_iff.mp h₁ with ⟨⟨⟨r₁, bytes₁⟩, fs₁1⟩, hr₁, heq₁⟩
        rcases Option.map_eq_some_iff.mp h₂ with ⟨⟨⟨r₂, bytes₂⟩, fs₂1⟩, hr₂, heq₂⟩
        rcases Prod.mk.inj heq₁ with ⟨-, rfl⟩
        rcases Prod.mk.inj heq₂ with ⟨-, rfl⟩
        have hiss := hissued fhandle rfl
        exact ⟨k, h.read (tfsRead_cases h.inv₁ hiss.1 hr₁) (tfsRead_cases h.inv₂ hiss.2 hr₂)⟩

theorem pairMachine_exec {s s' : FS × FS} {c : Call × Call} {ret : Ret × Ret}
    (h : pairMachine.exec s c = some (ret, s')) :
    exec s.1 c.1 = some (ret.1, s'.1) ∧ exec s.2 c.2 = some (ret.2, s'.2) := by
  simp only [pairMachine] at h
  split at h
  · rename_i h₁ h₂
    rcases Prod.mk.inj (Option.some.inj h) with ⟨rfl, rfl⟩
    exact ⟨h₁, h₂⟩
  · cases h

theorem Agree.refl (hinv : Inv k fs) : Agree n k fs fs where
  inv₁ := hinv
  inv₂ := hinv
  inodeTable := rfl
  freeinodeTs := rfl
  freeBlocks := rfl
  openFileTable := rfl
  freeOpenFileEntries := rfl
  names := fun _ _ => rfl
  bytes := fun _ => rfl

/-- The run lemma: the states agree along the two runs. -/
theorem reach_agree {tr : Machine.Trace (Call × Call) (Ret × Ret)} {s : FS × FS}
    (h : pairMachine.Reach (fun _ => PairedInPlace n) (tr, s)) : ∃ k, Agree n k s.1 s.2 := by
  have hstart : Agree n 0 machine.init machine.init := Agree.refl init_inv
  refine Machine.Reach.invariant (P := fun _ s => ∃ k, Agree n k s.1 s.2) h ?_ ?_
  · simp only [pairMachine_init]
    exact ⟨0, hstart⟩
  rintro tr s c ret s' ⟨k, hagree⟩ hok hexec
  rcases pairMachine_exec hexec with ⟨h₁, h₂⟩
  exact hagree.step hok h₁ h₂

theorem Agree.onFile (h : Agree n k fs₁ fs₂) (hfile : OnFile fs₁ n fhandle)
    (hopen : IsOpen fs₁ fhandle) : ∃ j, getOpenFileEntry fhandle = some j ∧ IsFile k n ∧
      (fs₁.openFileTable j).ofInumber = (n : Nat) := by
  rcases hfile with ⟨j, hj, hnum⟩
  rcases (hopen.issued h.inv₁).fileEntry h.inv₁ hj with ⟨m, hm, hmnum, -⟩
  have hmn : m = n := Fin.ext (Int.ofNat_inj.mp (hmnum.symm.trans hnum))
  exact ⟨j, hj, hmn ▸ hm, hnum⟩

/-- In two such runs a read through a handle of file `n`, inside the file, delivers the
same. -/
theorem reads_alike {tr : Machine.Trace (Call × Call) (Ret × Ret)} {s : FS × FS}
    (h : pairMachine.Reach (fun _ => PairedInPlace n) (tr, s)) {len : Nat}
    (hfile : OnFile s.1 n fhandle) (hopen : IsOpen s.1 fhandle)
    (hin : InPlace n s.1 (.read fhandle len)) :
    ∃ ret s₁ s₂, machine.exec s.1 (.read fhandle len) = some (ret, s₁) ∧
      machine.exec s.2 (.read fhandle len) = some (ret, s₂) := by
  rcases reach_agree h with ⟨k, hagree⟩
  rcases hagree.onFile hfile hopen with ⟨j, hj, hn, hnum⟩
  have hoff := hin fhandle rfl j hj hnum
  have hread₁ := tfsRead_inPlace hagree.inv₁ hn hj hnum hoff (Eq.refl (List.take len _))
  have hnum₂ := hnum
  have hoff₂ := hoff
  rw [hagree.openFileTable] at hnum₂ hoff₂
  rw [hagree.inodeTable] at hoff₂
  have hread₂ := tfsRead_inPlace hagree.inv₂ hn hj hnum₂ hoff₂ (Eq.refl (List.take len _))
  rw [← hagree.bytes hn, ← hagree.openFileTable] at hread₂
  have hexec₁ := congrArg (Option.map fun p => (Ret.mk p.1.1 p.1.2, p.2)) hread₁
  have hexec₂ := congrArg (Option.map fun p => (Ret.mk p.1.1 p.1.2, p.2)) hread₂
  exact ⟨_, _, _, hexec₁, hexec₂⟩

/-! ## Examples -/

/-- The same call in both runs. -/
def both (c : Call) : Call × Call := (c, c)

/-- Two files are written, the second one with different bytes; the first reads back
the same. -/
theorem reads_alike_two_files : ∃ s : FS × FS, OnFile s.1 1 2 ∧ IsOpen s.1 2 ∧
    ∃ ret s₁ s₂, machine.exec s.1 (.read 2 1) = some (ret, s₁) ∧
      machine.exec s.2 (.read 2 1) = some (ret, s₂) := by
  have hadmits : pairMachine.Admits (PairedInPlace 1) pairMachine.init
      [both (.open pathA tfsOCreat), both (.open pathB tfsOCreat), both (.write 0 [7]),
        (.write 1 [1], .write 1 [2]), both (.open pathA 0)] := by decide +kernel
  have hrun : ((pairMachine.run pairMachine.init
      [both (.open pathA tfsOCreat), both (.open pathB tfsOCreat), both (.write 0 [7]),
        (.write 1 [1], .write 1 [2]), both (.open pathA 0)]).map fun p =>
      decide (OnFile p.2.1 1 2 ∧ IsOpen p.2.1 2 ∧ (p.2.1.openFileTable 2).ofOffset = 0)) =
        some true := by decide +kernel
  rcases Option.map_eq_some_iff.mp hrun with ⟨⟨rs, s⟩, hrun, hfacts⟩
  rcases of_decide_eq_true hfacts with ⟨hfile, hopen, hzero⟩
  rcases Machine.Reach.start.run_admits hadmits hrun with ⟨tr, hreach⟩
  refine ⟨s, hfile, hopen, reads_alike hreach hfile hopen ?_⟩
  intro fhandle hc j hj _
  have hfhandle : fhandle = 2 := (Option.some.inj hc).symm
  subst hfhandle
  have hj2 : j = 2 := Option.some.inj (hj.symm.trans rfl)
  rw [hj2, hzero]
  exact Nat.zero_le _

/-- File "/a" is written, then both files are truncated, and "/b" is written through a
handle whose offset is left beyond its end: its first byte is the one of "/a". -/
theorem read_leaks_other_file :
    ∃ tr s, pairMachine.Reach (fun _ => Paired 2) (tr, s) ∧ OnFile s.1 2 3 ∧ IsOpen s.1 3 ∧
      (machine.exec s.1 (.read 3 2)).map Prod.fst = some ⟨2, [5, 9]⟩ ∧
      (machine.exec s.2 (.read 3 2)).map Prod.fst = some ⟨2, [6, 9]⟩ := by
  have hadmits : pairMachine.Admits (Paired 2) pairMachine.init
      [both (.open pathA tfsOCreat), (.write 0 [5], .write 0 [6]), both (.open pathB tfsOCreat),
        both (.write 1 [1]), both (.open pathA tfsOTrunc), both (.open pathB tfsOTrunc),
        both (.write 1 [9])] := by decide +kernel
  have hrun : ((pairMachine.run pairMachine.init
      [both (.open pathA tfsOCreat), (.write 0 [5], .write 0 [6]), both (.open pathB tfsOCreat),
        both (.write 1 [1]), both (.open pathA tfsOTrunc), both (.open pathB tfsOTrunc),
        both (.write 1 [9])]).map fun p =>
      decide (OnFile p.2.1 2 3 ∧ IsOpen p.2.1 3 ∧
        (machine.exec p.2.1 (.read 3 2)).map Prod.fst = some ⟨2, [5, 9]⟩ ∧
        (machine.exec p.2.2 (.read 3 2)).map Prod.fst = some ⟨2, [6, 9]⟩)) =
      some true := by decide +kernel
  rcases Option.map_eq_some_iff.mp hrun with ⟨⟨rs, s⟩, hrun, hfacts⟩
  rcases Machine.Reach.start.run_admits hadmits hrun with ⟨tr, hreach⟩
  exact ⟨tr, s, hreach, of_decide_eq_true hfacts⟩

end TecnicoFS.Part2
