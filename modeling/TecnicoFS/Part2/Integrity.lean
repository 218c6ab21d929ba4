import TecnicoFS.Part2.Runs

/-!
# Part 2: integrity of the tables

What the coupling invariant means for a client, over every run whose reads and
writes go through handles returned by earlier opens: the blocks taken are the
directory's and one for each file with contents, and the root directory lists
exactly the allocated files.
-/

namespace TecnicoFS.Part2

variable {k : Nat} {fs fs' : FS} {tr : Machine.Trace Call Ret}

/-! ## Blocks -/

/-- I-node `n` is an allocated file with contents. -/
def HasData (fs : FS) (n : Fin inodeTableSize) : Prop :=
  fs.freeinodeTs n = .taken ∧ (fs.inodeTable n).iNodeType = .tFile ∧ 0 < (fs.inodeTable n).iSize

/-- Every block taken is the root directory's or belongs to one file. -/
structure BlocksOwned (fs : FS) : Prop where
  valid : ∀ n, HasData fs n → ∃ b : Fin dataBlocks,
    (fs.inodeTable n).iDataBlock = (b : Nat) ∧ fs.freeBlocks b = .taken ∧
      (fs.inodeTable n).iDataBlock ≠ (fs.inodeTable 0).iDataBlock
  distinct : ∀ m n, HasData fs m → HasData fs n →
    (fs.inodeTable m).iDataBlock = (fs.inodeTable n).iDataBlock → m = n
  owned : ∀ b : Fin dataBlocks, fs.freeBlocks b = .taken →
    (fs.inodeTable 0).iDataBlock = (b : Nat) ∨
      ∃! n, HasData fs n ∧ (fs.inodeTable n).iDataBlock = (b : Nat)
  few : (Finset.univ.filter fun b => fs.freeBlocks b = .taken).card ≤ 24
  alloc : (dataBlockAlloc fs).1 ≠ -1

/-- Under the invariant the files with contents are the owners other than the
root directory. -/
theorem Inv.hasData_iff (hinv : Inv k fs) {n : Fin inodeTableSize} :
    HasData fs n ↔ (n : Nat) ≠ 0 ∧ ∃ b, ownBlock fs n = some b := by
  constructor
  · rintro ⟨ht, htype, hsize⟩
    refine ⟨?_, hinv.blocks n ht hsize⟩
    intro hzero
    have hn : n = 0 := Fin.ext hzero
    rw [hn, hinv.root] at htype
    cases htype
  · rintro ⟨hne, b, hb⟩
    rcases ownBlock_eq_some.mp hb with ⟨ht, hsize, -⟩
    exact ⟨ht, (hinv.files n ⟨Nat.pos_of_ne_zero hne, own_le hb hinv⟩).1, hsize⟩

theorem Inv.blocksOwned (hinv : Inv k fs) : BlocksOwned fs := by
  have hroot : (fs.inodeTable 0).iDataBlock = 0 := by
    rw [hinv.root]
    rfl
  refine ⟨?_, ?_, ?_, ?_, ?_⟩
  · intro n hn
    rcases hinv.hasData_iff.mp hn with ⟨hne, b, hb⟩
    have hnum := (ownBlock_eq_some.mp hb).2.2
    refine ⟨b, hnum, hinv.exclusive.taken_of_own hb, ?_⟩
    rw [hroot, hnum]
    intro hzero
    exact hinv.own_ne_root (Nat.pos_of_ne_zero hne) hb (Fin.ext (Int.natCast_eq_zero.mp hzero))
  · intro m n hm hn heq
    rcases hinv.hasData_iff.mp hm with ⟨-, b, hb⟩
    have hb' : ownBlock fs n = some b :=
      ownBlock_eq_some.mpr ⟨hn.1, hn.2.2, heq ▸ (ownBlock_eq_some.mp hb).2.2⟩
    exact hinv.exclusive.inj m n b hb hb'
  · intro b hb
    rcases (hinv.exclusive.taken_iff b).mp hb with ⟨n, hn⟩
    by_cases hzero : (n : Nat) = 0
    · left
      rw [← (ownBlock_eq_some.mp hn).2.2, show n = 0 from Fin.ext hzero]
    · right
      refine ⟨n, ⟨hinv.hasData_iff.mpr ⟨hzero, b, hn⟩, (ownBlock_eq_some.mp hn).2.2⟩, ?_⟩
      rintro m ⟨hm, hnum⟩
      exact hinv.exclusive.inj m n b (ownBlock_eq_some.mpr ⟨hm.1, hm.2.2, hnum⟩) hn
  · exact hinv.taken_card.trans (Nat.succ_le_succ hinv.files_le)
  · rcases hinv.exists_free_block with ⟨c, hc⟩
    unfold dataBlockAlloc
    cases hfit : firstFit fun i => fs.freeBlocks i = .free with
    | none => exact absurd hc (firstFit_eq_none.mp hfit c)
    | some b =>
        simp only [ne_eq]
        omega

/-- In every run on handles returned by earlier opens the blocks taken are the
root directory's and one for each file with contents; there are at most 24, so
the allocation in `tfs_write` cannot fail. -/
theorem blocks_owned (h : machine.Reach EarlierHandles (tr, fs)) : BlocksOwned fs := by
  rcases reach_runInv h with ⟨k, hinv, -⟩
  exact hinv.blocksOwned

/-- A short run: create "/a" and write two bytes to it. -/
theorem reach_create_write :
    ∃ fs1 fs2, machine.Reach EarlierHandles ([(.open pathA tfsOCreat, ⟨0, []⟩)], fs1) ∧
      machine.Later EarlierHandles ([(.open pathA tfsOCreat, ⟨0, []⟩)], fs1)
        ([(.write 0 [1, 2], ⟨2, []⟩), (.open pathA tfsOCreat, ⟨0, []⟩)], fs2) ∧
      tfsLookup fs1 pathA = 1 ∧ (fs2.inodeTable 1).iSize = 2 := by
  have hrun : ((machine.exec machine.init (.open pathA tfsOCreat)).bind fun p =>
      (machine.exec p.2 (.write 0 [1, 2])).map fun q =>
        (p.1, tfsLookup p.2 pathA, q.1, (q.2.inodeTable 1).iSize)) =
      some (⟨0, []⟩, 1, ⟨2, []⟩, 2) := by decide +kernel
  rcases Option.bind_eq_some_iff.mp hrun with ⟨⟨r1, fs1⟩, h1, hrest⟩
  rcases Option.map_eq_some_iff.mp hrest with ⟨⟨r2, fs2⟩, h2, heq⟩
  simp only [Prod.mk.injEq] at heq
  rcases heq with ⟨rfl, hlook, rfl, hsize⟩
  have hok1 : EarlierHandles [] machine.init (.open pathA tfsOCreat) := by
    constructor
    · intro name flags hc
      cases hc
      decide
    · intro fhandle hc
      cases hc
  have hok2 : EarlierHandles [(.open pathA tfsOCreat, ⟨0, []⟩)] fs1 (.write 0 [1, 2]) := by
    constructor
    · intro name flags hc
      cases hc
    · intro fhandle hc
      cases hc
      exact ⟨le_refl 0, pathA, tfsOCreat, [], List.mem_cons_self⟩
  refine ⟨fs1, fs2, ?_, ?_, hlook, hsize⟩
  · exact Machine.Reach.start.step hok1 h1
  · exact Relation.ReflTransGen.single (Machine.Step.call hok2 h2)

theorem blocks_owned_create_write : ∃ fs, (fs.inodeTable 1).iSize = 2 ∧ BlocksOwned fs := by
  rcases reach_create_write with ⟨fs1, fs2, hreach, hlater, -, hsize⟩
  exact ⟨fs2, hsize, blocks_owned (hreach.later hlater)⟩

/-! ## The directory -/

/-- The root directory lists exactly the allocated files. -/
structure DirectoryAgrees (fs : FS) : Prop where
  root_taken : fs.freeinodeTs 0 = .taken
  root_directory : (fs.inodeTable 0).iNodeType = .tDirectory
  root_block : (fs.inodeTable 0).iDataBlock = (rootBlock : Nat)
  distinct : ∀ i j : Fin maxDirEntries, dInumber fs.fsData (entryAddr rootBlock i) ≠ -1 →
    dInumber fs.fsData (entryAddr rootBlock i) = dInumber fs.fsData (entryAddr rootBlock j) → i = j
  listed : ∀ num : Int,
    (∃ i : Fin maxDirEntries, dInumber fs.fsData (entryAddr rootBlock i) = num ∧ num ≠ -1) ↔
      ∃ n : Fin inodeTableSize, num = (n : Nat) ∧ n ≠ 0 ∧ fs.freeinodeTs n = .taken
  files : ∀ n, n ≠ 0 → fs.freeinodeTs n = .taken → (fs.inodeTable n).iNodeType = .tFile

theorem Inv.directoryAgrees (hinv : Inv k fs) : DirectoryAgrees fs := by
  -- entry `i` has number `i + 1`, so entries and i-nodes correspond
  have hentry : ∀ i : Fin maxDirEntries, dInumber fs.fsData (entryAddr rootBlock i) =
      if (i : Nat) < k then (((i : Nat) + 1 : Nat) : Int) else -1 := fun i =>
    hinv.entries i i.isLt
  refine ⟨(hinv.inodes 0).mpr (Nat.zero_le k), by rw [hinv.root]; rfl, by rw [hinv.root]; rfl,
    ?_, ?_, ?_⟩
  · intro i j hi heq
    rw [hentry] at hi
    rw [hentry, hentry] at heq
    apply Fin.ext
    split at hi
    · split at heq
      · split at heq <;> omega
      · contradiction
    · exact absurd rfl hi
  · intro num
    constructor
    · rintro ⟨i, hnum, hne⟩
      rw [hentry] at hnum
      split at hnum
      · -- entry `i` names i-node `i + 1`
        have hlt : (i : Nat) + 1 < inodeTableSize := by
          have := hinv.files_lt
          omega
        refine ⟨inodeNo _ hlt, hnum.symm, ?_, (hinv.inodes _).mpr (by simp only [inodeNo]; omega)⟩
        intro hzero
        have := congrArg Fin.val hzero
        simp [inodeNo] at this
      · exact absurd hnum.symm hne
    · rintro ⟨n, rfl, hne, ht⟩
      have hpos : (n : Nat) ≠ 0 := fun hc => hne (Fin.ext hc)
      have hle : (n : Nat) ≤ k := (hinv.inodes n).mp ht
      have hlt : (n : Nat) - 1 < maxDirEntries := by
        have := hinv.files_le
        omega
      refine ⟨⟨(n : Nat) - 1, hlt⟩, ?_, by omega⟩
      rw [hentry, if_pos (by simp only; omega)]
      simp only
      omega
  · intro n hne ht
    have hpos : (n : Nat) ≠ 0 := fun hc => hne (Fin.ext hc)
    exact (hinv.files n ⟨Nat.pos_of_ne_zero hpos, (hinv.inodes n).mp ht⟩).1

/-- In every run on handles returned by earlier opens the root directory lists
exactly the allocated files, and a lookup that succeeded keeps its answer. -/
theorem directory_agrees (h : machine.Reach EarlierHandles (tr, fs)) :
    DirectoryAgrees fs ∧
      ∀ name tr' fs', machine.Later EarlierHandles (tr, fs) (tr', fs') →
        0 ≤ tfsLookup fs name → tfsLookup fs' name = tfsLookup fs name := by
  constructor
  · rcases reach_runInv h with ⟨k, hinv, -⟩
    exact hinv.directoryAgrees
  · intro name tr' fs' hl hfound
    exact later_lookup h hl hfound

theorem directory_agrees_create_write :
    ∃ fs fs', tfsLookup fs pathA = 1 ∧ DirectoryAgrees fs ∧ tfsLookup fs' pathA = 1 := by
  rcases reach_create_write with ⟨fs1, fs2, hreach, hlater, hlook, -⟩
  rcases directory_agrees hreach with ⟨hdir, hstable⟩
  refine ⟨fs1, fs2, hlook, hdir, ?_⟩
  rw [hstable pathA _ fs2 hlater (by rw [hlook]; decide), hlook]

end TecnicoFS.Part2
