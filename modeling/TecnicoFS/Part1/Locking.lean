import TecnicoFS.Part1.Directory
import TecnicoFS.Lib.Soundness
import Mathlib.Algebra.Order.PUnit

/-!
# Part 1: the locking discipline

Locks are taken in the order of their `rank`: `open_file_lock`, a handle, a file's i-node, the
root directory's i-node, a directory entry, a data block, `open_files_mutex`. Each function of
`state.c` keeps this order, the invariant of the directory and what its locks allow; its rule
says what its caller knows afterwards, whatever the other threads have done meanwhile.
-/

namespace TecnicoFS.Part1

open Threads Threads.Prog Threads.Discipline
open Part2 (InodeType AllocationState OpenFileEntry rootDirInum blockSize dataBlocks
  inodeTableSize maxOpenFiles maxFileName maxDirEntries dName dInumber setDInumber setDName
  entryAddr rootBlock rootEntry EntryMatches dataBlockGet)

/-- The order of the locks. -/
def rank : Lock → Nat
  | .openFileLock => 0
  | .openFile _ => 1
  | .inode n => if n = 0 then 3 else 2
  | .dirEntry _ => 4
  | .dataBlock _ => 5
  | .openFilesMutex => 6

theorem two_le_rank_inode (n : Fin inodeTableSize) : 2 ≤ rank (.inode n) := by
  simp only [rank]
  split
  · omega
  · omega

theorem rank_inode_le (n : Fin inodeTableSize) : rank (.inode n) ≤ 3 := by
  simp only [rank]
  split
  · omega
  · omega

/-- All locks held rank below. -/
def Below (held : List (Lock × Mode)) (r : Nat) : Prop := ∀ p ∈ held, rank p.1 < r

/-- The discipline of part 1. No lock protects anything on its own: what a thread may change
depends on all the locks it holds. -/
def dirDiscipline (opensOnly : Prop) : Discipline FS Lock Cond Unit where
  inv w := DirInv opensOnly w.state
  guar held w w' := DirGuar opensOnly held w.state w'.state
  lockInv _ _ := True
  order held l := Below held (rank l)
  shared _ := True
  single := False
  waiter _ := False
  entry _ _ := ()
  entry_self _ := rfl
  guar_refl held w := DirGuar.refl opensOnly held w.state
  keeps _ _ _ _ := trivial
  inv_quieter hquiet hinv := by
    rw [hquiet.1]
    exact hinv
  lockInv_quieter _ _ := trivial

theorem below_nil {r : Nat} : Below [] r := fun _ hp => absurd hp List.not_mem_nil

theorem Below.cons {held : List (Lock × Mode)} {l : Lock} {m : Mode} {r : Nat}
    (h : Below held r) (hl : rank l < r) : Below ((l, m) :: held) r := by
  intro p hp
  rcases List.mem_cons.mp hp with rfl | hp
  · exact hl
  · exact h p hp

theorem Below.mono {held : List (Lock × Mode)} {r r' : Nat} (h : Below held r) (hr : r ≤ r') :
    Below held r' := fun p hp => (h p hp).trans_le hr

/-- The discipline holds of the state after `tfs_init`: no entry is in use. -/
theorem dirInv_init (opensOnly : Prop) : DirInv opensOnly machine.init := by
  rw [machine_init]
  exact ⟨rfl, rfl, rfl, fun i hi => absurd (entryNumber_initial i) hi,
    fun i j hi => absurd (entryNumber_initial i) hi, fun i _ => entryName_initial i,
    fun _ i _ hi => absurd (entryName_initial i) hi, fun _ => Or.inl rfl⟩

theorem dirInv_start {opensOnly : Prop} {fs : FS} (h : DirInv opensOnly fs) :
    (dirDiscipline opensOnly).inv (World.start fs) := h

variable {opensOnly : Prop} {may : FS → FS → Prop} {α : Type}
  {Q : α → List (Lock × Mode) → Unit → World FS Cond Unit → Prop}
  {held : List (Lock × Mode)} {w w' : World FS Cond Unit}

/-- The weakest precondition under the discipline. -/
abbrev DirWp (opensOnly : Prop) (may : FS → FS → Prop)
    (Q : α → List (Lock × Mode) → Unit → World FS Cond Unit → Prop) (p : Op α)
    (held : List (Lock × Mode)) (w : World FS Cond Unit) : Prop :=
  wp (dirDiscipline opensOnly) may Q p held () w

/-- However the other threads go on, and this one with steps that any thread may do. -/
abbrev DirLater (opensOnly : Prop) (held : List (Lock × Mode))
    (P : World FS Cond Unit → Prop) (w : World FS Cond Unit) : Prop :=
  (dirDiscipline opensOnly).Later held P w

/-! ## What lasts -/

/-- Entries in use stay as they are. -/
theorem rely_entries (h : (dirDiscipline opensOnly).Rely held w w') :
    KeepsEntries w.state w'.state := by
  refine h.stable (P := fun w₁ => KeepsEntries w.state w₁.state) (KeepsEntries.refl _) ?_ ?_
  · rintro held' w₁ w₂ - - - hguar - hkeeps
    exact hkeeps.trans hguar.entries
  · rintro w₁ w₂ - hquiet hsame
    rw [hquiet.1]
    exact hsame

/-- With `open_file_lock` held, the directory and the unlisted i-nodes stay as they are. -/
theorem rely_creation (h : (dirDiscipline opensOnly).Rely held w w')
    (hheld : (.openFileLock, .write) ∈ held) :
    w'.state.freeinodeTs = w.state.freeinodeTs ∧
      (∀ x < blockSize, w'.state.fsData x = w.state.fsData x) ∧
      ∀ n : Fin inodeTableSize, n ≠ 0 → ¬ Listed w.state ((n : Nat) : Int) →
        w'.state.inodeTable n = w.state.inodeTable n := by
  refine h.stable (P := fun w₁ => w₁.state.freeinodeTs = w.state.freeinodeTs ∧
      (∀ x < blockSize, w₁.state.fsData x = w.state.fsData x) ∧
      ∀ n : Fin inodeTableSize, n ≠ 0 → ¬ Listed w.state ((n : Nat) : Int) →
        w₁.state.inodeTable n = w.state.inodeTable n)
    ⟨rfl, fun _ _ => rfl, fun _ _ _ => rfl⟩ ?_ ?_
  · rintro held' w₁ w₂ hcompat - - hguar - ⟨hstates, hbytes, hinodes⟩
    have hfree : (.openFileLock, .write) ∉ held' := fun hmem =>
      nomatch (hcompat _ _ _ hmem hheld).1
    rcases hguar.creation hfree with ⟨hstates', hbytes', hinodes'⟩
    refine ⟨hstates'.trans hstates, fun x hx => (hbytes' x hx).trans (hbytes x hx),
      fun n hn hlisted => ?_⟩
    rw [hinodes' n hn (mt (Listed.congr hbytes).mp hlisted), hinodes n hn hlisted]
  · rintro w₁ w₂ - hquiet hsame
    rw [hquiet.1]
    exact hsame

/-- The directory has these bytes. -/
def DirBytes (m : Memory UInt8) (fs : FS) : Prop := ∀ x < blockSize, fs.fsData x = m x

theorem DirBytes.rely {m : Memory UInt8} (h : (dirDiscipline opensOnly).Rely held w w')
    (hheld : (.openFileLock, .write) ∈ held) (hm : DirBytes m w.state) : DirBytes m w'.state :=
  fun x hx => ((rely_creation h hheld).2.1 x hx).trans (hm x hx)

/-- Nobody else knows an i-node that is being created. -/
theorem Fresh.rely {n : Fin inodeTableSize} (h : (dirDiscipline opensOnly).Rely held w w')
    (hheld : (.openFileLock, .write) ∈ held) (hn : Fresh w.state n) :
    Fresh w'.state n ∧ w'.state.inodeTable n = w.state.inodeTable n := by
  rcases rely_creation h hheld with ⟨hstates, hbytes, hinodes⟩
  refine ⟨⟨?_, hn.notRoot, mt (Listed.congr hbytes).mp hn.unlisted⟩,
    hinodes n hn.notRoot hn.unlisted⟩
  rw [hstates]
  exact hn.taken

/-! ## Steps on files -/

/-- A step on files leaves the caller with what it knew. -/
theorem wp_fileStep {f : FS → FS} {k : Unit → Op α}
    (hstep : ∀ w', (dirDiscipline opensOnly).Rely held w w' → DirInv opensOnly w'.state →
      may w'.state (f w'.state) → FileStep w'.state (f w'.state))
    (hnext : DirLater opensOnly held (DirWp opensOnly may Q (k ()) held) w) :
    DirWp opensOnly may Q ((Prog.modify f).bind k) held w := by
  refine wp_modify_own (fun _ => rfl) (fun w' hrely hinv hmay => ?_) (fun _ _ h => h.of_nil) hnext
  have hfile := hstep w' hrely hinv hmay
  exact ⟨hfile.inv hinv, hfile.guar⟩

theorem wp_fileStep? {f : FS → Option FS} {k : Unit → Op α}
    (hstep : ∀ w' fs', (dirDiscipline opensOnly).Rely held w w' → DirInv opensOnly w'.state →
      f w'.state = some fs' → may w'.state fs' → FileStep w'.state fs')
    (hnext : DirLater opensOnly held (DirWp opensOnly may Q (k ()) held) w) :
    DirWp opensOnly may Q ((Prog.modify? f).bind k) held w := by
  refine wp_modify?_own (fun _ _ _ => rfl) (fun w' fs' hrely hinv hfs' hmay => ?_)
    (fun _ _ h => h.of_nil) hnext
  have hfile := hstep w' fs' hrely hinv hfs' hmay
  exact ⟨hfile.inv hinv, hfile.guar⟩

variable {fs : FS}

theorem fileStep_setBlockState (b : Fin dataBlocks) (state : AllocationState) :
    FileStep fs (fs.setBlockState b state) :=
  ⟨rfl, fun _ _ => rfl, fun _ _ _ => rfl, rfl, rfl, fun _ => rfl, rfl⟩

theorem fileStep_setData {data : Memory UInt8} (h : ∀ x < blockSize, data x = fs.fsData x) :
    FileStep fs (fs.setData data) :=
  ⟨rfl, h, fun _ _ _ => rfl, rfl, rfl, fun _ => rfl, rfl⟩

theorem fileStep_setCount (count : Int) : FileStep fs (fs.setCount count) :=
  ⟨rfl, fun _ _ => rfl, fun _ _ _ => rfl, rfl, rfl, fun _ => rfl, rfl⟩

theorem fileStep_setOffset (h : Fin maxOpenFiles) (offset : Nat) :
    FileStep fs (fs.setHandle h { fs.openFileTable h with ofOffset := offset }) := by
  refine ⟨rfl, fun _ _ => rfl, fun _ _ _ => rfl, rfl, rfl, fun i => ?_, rfl⟩
  by_cases hi : i = h
  · subst hi
    simp
  · simp [hi]

/-- The i-node of a file changes; that of the root directory keeps its type and block. -/
theorem fileStep_setInode {n : Fin inodeTableSize} {inode : Inode}
    (hn : FileNumber fs ((n : Nat) : Int))
    (hroot : n = 0 → inode.iNodeType = (fs.inodeTable 0).iNodeType ∧
      inode.iDataBlock 0 = (fs.inodeTable 0).iDataBlock 0) :
    FileStep fs (fs.setInode n inode) := by
  refine ⟨rfl, fun _ _ => rfl, fun m hm hlisted => ?_, ?_, ?_, fun _ => rfl, rfl⟩
  · have hne : m ≠ n := by
      rintro rfl
      rcases hn with hzero | ⟨-, hn⟩
      · exact hm (by exact_mod_cast hzero)
      · exact hlisted hn
    simp [hne]
  · by_cases h0 : n = 0
    · subst h0
      simpa using (hroot rfl).1
    · simp [Ne.symm h0]
  · by_cases h0 : n = 0
    · subst h0
      simpa using (hroot rfl).2
    · simp [Ne.symm h0]

/-! ## Data blocks -/

theorem allocFirst_wp {k : Int → Op α} (bs : List (Fin dataBlocks)) (hheld : Below held 5)
    (hnext : ∀ r, DirLater opensOnly held (DirWp opensOnly may Q (k r) held) w) :
    DirWp opensOnly may Q ((allocFirst bs).bind k) held w := by
  induction bs generalizing w with
  | nil => exact wp_of_later (hnext (-1))
  | cons b bs ih =>
      rw [allocFirst]
      simp only [bind_eq, pure_eq, Prog.bind_assoc]
      refine wp_lock fun w₁ hrely₁ _ => ⟨hheld, fun _ => ?_⟩
      have hnext₁ := fun r => (hnext r).rely hrely₁
      refine wp_read fun w₂ hrely₂ _ => ?_
      have hnext₂ := fun r => (hnext₁ r).after hrely₂ (List.subset_cons_self _ _)
      split
      · rw [Prog.bind_assoc]
        refine wp_fileStep (fun _ _ _ _ => fileStep_setBlockState b _) fun w₃ hrely₃ _ => ?_
        have hnext₃ := fun r => (hnext₂ r).after hrely₃ (List.subset_cons_self _ _)
        rw [Prog.bind_assoc]
        refine wp_unlock fun w₄ hrely₄ _ => ⟨fun _ => trivial, ?_⟩
        rw [dropLock_cons_self]
        exact wp_of_later ((hnext₃ _).after hrely₄ (List.subset_cons_self _ _))
      · rw [Prog.bind_assoc]
        refine wp_unlock fun w₃ hrely₃ _ => ⟨fun _ => trivial, ?_⟩
        rw [dropLock_cons_self]
        exact ih fun r => (hnext₂ r).after hrely₃ (List.subset_cons_self _ _)

theorem dataBlockAlloc_wp {k : Int → Op α} (hheld : Below held 5)
    (hnext : ∀ r, DirLater opensOnly held (DirWp opensOnly may Q (k r) held) w) :
    DirWp opensOnly may Q (dataBlockAlloc.bind k) held w := by
  rw [dataBlockAlloc_eq]
  generalize List.finRange dataBlocks = bs
  exact allocFirst_wp bs hheld hnext

theorem dataBlockFree_wp {k : Int → Op α} (block : Int) (hheld : Below held 5)
    (hnext : DirLater opensOnly held (DirWp opensOnly may Q (k 0) held) w) :
    DirWp opensOnly may Q ((dataBlockFree block).bind k) held w := by
  unfold dataBlockFree
  split
  · trivial
  · rename_i b _
    simp only [bind_eq, pure_eq, Prog.bind_assoc]
    refine wp_lock fun w₁ hrely₁ _ => ⟨hheld, fun _ => ?_⟩
    have hnext₁ := hnext.rely hrely₁
    refine wp_fileStep (fun _ _ _ _ => fileStep_setBlockState b _) fun w₂ hrely₂ _ => ?_
    have hnext₂ := hnext₁.after hrely₂ (List.subset_cons_self _ _)
    refine wp_unlock fun w₃ hrely₃ _ => ⟨fun _ => trivial, ?_⟩
    rw [dropLock_cons_self]
    exact wp_of_later (hnext₂.after hrely₃ (List.subset_cons_self _ _))

/-! ## I-nodes -/

/-- What `inode_create` assigns to the i-node of a new file. -/
theorem initInode_wp {k : Int → Op α} {n : Fin inodeTableSize} {m : Memory UInt8}
    (hlock : (.openFileLock, .write) ∈ held) (hfresh : Fresh w.state n) (hm : DirBytes m w.state)
    (hnew : ∀ w', Fresh w'.state n → (w'.state.inodeTable n).iSize = 0 → DirBytes m w'.state →
      DirWp opensOnly may Q (k ((n : Nat) : Int)) held w') :
    DirWp opensOnly may Q ((initInode n .tFile).bind k) held w := by
  rw [initInode]
  simp only [bind_eq, pure_eq, Prog.bind_assoc]
  -- only this thread knows the i-node, so it needs no lock to initialise it
  refine wp_modify fun w₁ hrely₁ hinv₁ _ => ?_
  have hfresh₁ := (hfresh.rely hrely₁ hlock).1
  have hm₁ := hm.rely hrely₁ hlock
  refine ⟨hinv₁.setInode_fresh hfresh₁ _, DirGuar.of_creation hlock
    (KeepsEntries.of_bytes fun _ _ => rfl) rfl rfl, ?_⟩
  refine wp_modify fun w₂ hrely₂ hinv₂ _ => ?_
  have hfresh₂ := ((hfresh₁.setInode _ _).rely hrely₂ hlock).1
  have hm₂ := hm₁.rely hrely₂ hlock
  refine ⟨hinv₂.setInode_fresh hfresh₂ _, DirGuar.of_creation hlock
    (KeepsEntries.of_bytes fun _ _ => rfl) rfl rfl, ?_⟩
  exact hnew _ (hfresh₂.setInode _ _) (by simp [Discipline.after]) hm₂

/-- The scan of `inode_create` for a file, by a thread that holds `open_file_lock`: no i-node,
or a fresh one of size 0. The bytes of the directory are those it had. -/
theorem createFirst_wp {k : Int → Op α} {m : Memory UInt8} (ns : List (Fin inodeTableSize))
    (hheld : Below held 2) (hlock : (.openFileLock, .write) ∈ held) (hm : DirBytes m w.state)
    (hnone : DirLater opensOnly held (DirWp opensOnly may Q (k (-1)) held) w)
    (hnew : ∀ (n : Fin inodeTableSize) w', Fresh w'.state n → (w'.state.inodeTable n).iSize = 0 →
      DirBytes m w'.state → DirWp opensOnly may Q (k ((n : Nat) : Int)) held w') :
    DirWp opensOnly may Q ((createFirst .tFile ns).bind k) held w := by
  induction ns generalizing w with
  | nil => exact wp_of_later hnone
  | cons n ns ih =>
      have hlock' : (.openFileLock, .write) ∈ (.inode n, Mode.write) :: held :=
        List.mem_cons_of_mem _ hlock
      rw [createFirst]
      simp only [bind_eq, Prog.bind_assoc]
      refine wp_lock fun w₁ hrely₁ _ => ⟨hheld.mono (two_le_rank_inode n), fun _ => ?_⟩
      have hm₁ := hm.rely hrely₁ hlock
      refine wp_read fun w₂ hrely₂ _ => ?_
      have hm₂ := hm₁.rely hrely₂ hlock'
      split
      -- nobody else creates while `open_file_lock` is held, so the i-node is still free
      · rename_i hfree
        rw [Prog.bind_assoc]
        refine wp_modify fun w₃ hrely₃ hinv₃ _ => ?_
        have hfree₃ : w₃.state.freeinodeTs n = .free := by
          rw [(rely_creation hrely₃ hlock').1, hfree]
        refine ⟨hinv₃.setInodeState (Or.inl rfl),
          DirGuar.of_creation hlock' (KeepsEntries.of_bytes fun _ _ => rfl) rfl rfl, ?_⟩
        have hfresh₃ := Fresh.of_free hinv₃ hfree₃
        have hm₃ : DirBytes m (w₃.state.setInodeState n .taken) := hm₂.rely hrely₃ hlock'
        rw [Prog.bind_assoc]
        refine wp_unlock fun w₄ hrely₄ _ => ⟨fun _ => trivial, ?_⟩
        rw [dropLock_cons_self]
        exact initInode_wp hlock (hfresh₃.rely hrely₄ hlock').1 (hm₃.rely hrely₄ hlock')
          fun w' => hnew n w'
      · rw [Prog.bind_assoc]
        refine wp_unlock fun w₃ hrely₃ _ => ⟨fun _ => trivial, ?_⟩
        rw [dropLock_cons_self]
        exact ih (hm₂.rely hrely₃ hlock')
          ((hnone.rely hrely₁).after (hrely₂.trans hrely₃) (List.subset_cons_self _ _))

theorem inodeCreate_wp {k : Int → Op α} {m : Memory UInt8}
    (hheld : Below held 2) (hlock : (.openFileLock, .write) ∈ held) (hm : DirBytes m w.state)
    (hnone : DirLater opensOnly held (DirWp opensOnly may Q (k (-1)) held) w)
    (hnew : ∀ (n : Fin inodeTableSize) w', Fresh w'.state n → (w'.state.inodeTable n).iSize = 0 →
      DirBytes m w'.state → DirWp opensOnly may Q (k ((n : Nat) : Int)) held w') :
    DirWp opensOnly may Q ((inodeCreate .tFile).bind k) held w := by
  unfold inodeCreate
  generalize List.finRange inodeTableSize = ns
  exact createFirst_wp ns hheld hlock hm hnone hnew

/-- `inode_delete` of a fresh i-node of size 0, which has no blocks to free. -/
theorem inodeDelete_wp {k : Int → Op α} {n : Fin inodeTableSize}
    (hlock : (.openFileLock, .write) ∈ held) (hfresh : Fresh w.state n)
    (hsize : (w.state.inodeTable n).iSize = 0)
    (hnext : ∀ r w', DirWp opensOnly may Q (k r) held w') :
    DirWp opensOnly may Q ((inodeDelete ((n : Nat) : Int)).bind k) held w := by
  rw [inodeDelete, index?_natCast]
  simp only [bind_eq, pure_eq, Prog.bind_assoc]
  refine wp_read fun w₁ hrely₁ _ => ?_
  rcases hfresh.rely hrely₁ hlock with ⟨hfresh₁, hinode₁⟩
  split
  · exact hnext _ _
  · rw [Prog.bind_assoc]
    refine wp_modify fun w₂ hrely₂ hinv₂ _ => ?_
    rcases hfresh₁.rely hrely₂ hlock with ⟨hfresh₂, hinode₂⟩
    refine ⟨hinv₂.setInodeState (Or.inr hfresh₂),
      DirGuar.of_creation hlock (KeepsEntries.of_bytes fun _ _ => rfl) rfl rfl, ?_⟩
    rw [Prog.bind_assoc]
    refine wp_read fun w₃ hrely₃ _ => ?_
    -- the i-node is free again, but no entry lists it
    have hinode₃ := (rely_creation hrely₃ hlock).2.2 n hfresh₂.notRoot hfresh₂.unlisted
    have hempty : (w₃.state.inodeTable n).iSize = 0 := by
      rw [hinode₃]
      exact (congrArg Inode.iSize (hinode₂.trans hinode₁)).trans hsize
    rw [if_neg (by rw [hempty]; exact lt_irrefl 0)]
    exact hnext _ _

/-! ## The root directory -/

/-- Entry `i` is in use and `strncmp` takes its name for this one. -/
def Matches (fs : FS) (name : CString) (i : Fin maxDirEntries) : Prop :=
  EntryMatches fs.fsData name i

theorem matches_iff {fs : FS} {name : CString} {i : Fin maxDirEntries} :
    Matches fs name i ↔ entryNumber fs i ≠ -1 ∧ entryName fs i = name.bytes.take maxFileName :=
  Iff.rfl

theorem Matches.rely {name : CString} {i : Fin maxDirEntries} (hname : name.bytes ≠ [])
    (h : (dirDiscipline opensOnly).Rely held w w') (hi : Matches w.state name i) :
    Matches w'.state name i := by
  rcases matches_iff.mp hi with ⟨hnumber, hentry⟩
  have hne : entryName w.state i ≠ [] := by
    rw [hentry]
    simpa using hname
  refine matches_iff.mpr ⟨?_, ?_⟩
  · rw [(rely_entries h).numbers i hnumber]
    exact hnumber
  · rw [(rely_entries h).names i hne, hentry]

/-- The scan of `find_in_dir`: a number of the name, or -1 where none of the entries had the
name at the start. -/
theorem findFirst_wp {k : Int → Op α} {name : CString} (is : List (Fin maxDirEntries))
    (hheld : Below held 4) (hname : name.bytes ≠ [])
    (hfound : ∀ r, DirLater opensOnly held (fun w => Maps w.state (name.bytes.take maxFileName) r →
      DirWp opensOnly may Q (k r) held w) w)
    (hnone : (∀ i ∈ is, ¬ Matches w.state name i) →
      DirLater opensOnly held (DirWp opensOnly may Q (k (-1)) held) w) :
    DirWp opensOnly may Q ((findFirst rootBlock name is).bind k) held w := by
  induction is generalizing w with
  | nil => exact wp_of_later (hnone fun _ hi => absurd hi List.not_mem_nil)
  | cons i is ih =>
      rw [findFirst]
      simp only [bind_eq, Prog.bind_assoc]
      refine wp_readLock fun w₁ hrely₁ _ => ⟨hheld, fun _ => ?_⟩
      refine wp_read fun w₂ hrely₂ _ => ?_
      have htest : (dInumber w₂.state.fsData (entryAddr rootBlock i) ≠ -1 ∧
          strncmp maxFileName (dName w₂.state.fsData (entryAddr rootBlock i)) name.cells = 0) ↔
          Matches w₂.state name i := and_congr Iff.rfl Part2.strncmp_dName
      refine wp_unlock fun w₃ hrely₃ _ => ⟨fun _ => trivial, ?_⟩
      rw [dropLock_cons_self]
      have hrely := (hrely₁.trans (hrely₂.mono (List.subset_cons_self _ _))).trans
        (hrely₃.mono (List.subset_cons_self _ _))
      by_cases hmatch : Matches w₂.state name i
      · rw [if_pos (decide_eq_true (htest.mpr hmatch))]
        -- the number is read without the lock, but an entry in use never changes
        refine wp_read fun w₄ hrely₄ hinv₄ => ?_
        have hmatch₄ := (hmatch.rely hname hrely₃).rely hname hrely₄
        exact hfound _ w₄ (hrely.trans hrely₄) hinv₄ ⟨hmatch₄.1, i, rfl, hmatch₄.2⟩
      · rw [if_neg (mt of_decide_eq_true (mt htest.mp hmatch))]
        refine ih (fun r => (hfound r).rely hrely) fun hrest => (hnone ?_).rely hrely
        intro j hj hmatches
        rcases List.mem_cons.mp hj with rfl | hj
        · exact hmatch ((hmatches.rely hname hrely₁).rely hname hrely₂)
        · exact hrest j hj (hmatches.rely hname hrely)

theorem findInDir_wp {k : Int → Op α} {name : CString} (hheld : Below held 3)
    (hname : name.bytes ≠ [])
    (hfound : ∀ r, DirLater opensOnly held (fun w => Maps w.state (name.bytes.take maxFileName) r →
      DirWp opensOnly may Q (k r) held w) w)
    (hnone : (∀ r, ¬ Maps w.state (name.bytes.take maxFileName) r) →
      DirLater opensOnly held (DirWp opensOnly may Q (k (-1)) held) w) :
    DirWp opensOnly may Q ((findInDir rootDirInum name).bind k) held w := by
  have hroot : index? inodeTableSize rootDirInum = some 0 := index?_eq_some.mpr rfl
  have hblock : dataBlockGet 0 = some rootBlock := index?_eq_some.mpr rfl
  rw [findInDir, hroot]
  simp only [bind_eq, pure_eq, Prog.bind_assoc]
  refine wp_readLock fun w₁ hrely₁ _ => ⟨hheld, fun _ => ?_⟩
  refine wp_read fun w₂ hrely₂ hinv₂ => ?_
  refine wp_unlock fun w₃ hrely₃ _ => ⟨fun _ => trivial, ?_⟩
  have hrely := (hrely₁.trans (hrely₂.mono (List.subset_cons_self _ _))).trans
    (hrely₃.mono (List.subset_cons_self _ _))
  rw [dropLock_cons_self, if_neg (not_not.mpr hinv₂.rootType), hinv₂.rootData, hblock]
  generalize hall : List.finRange maxDirEntries = is
  refine findFirst_wp is (hheld.mono (by decide)) hname (fun r => (hfound r).rely hrely)
    fun hnot => (hnone ?_).rely hrely
  rintro r ⟨hr, i, rfl, hi⟩
  have hmem : i ∈ is := hall ▸ List.mem_finRange i
  have hmatches : Matches w.state name i := matches_iff.mpr ⟨hr, hi⟩
  exact hnot i hmem (hmatches.rely hname hrely)

/-- No entry has the name that `add_dir_entry` stores. -/
def NameFree (fs : FS) (name : CString) : Prop := ∀ i, entryName fs i ≠ name.bytes.take 39

theorem NameFree.rely {name : CString} (h : (dirDiscipline opensOnly).Rely held w w')
    (hheld : (.openFileLock, .write) ∈ held) (hfree : NameFree w.state name) :
    NameFree w'.state name := by
  intro i
  rw [(entry_congr (rely_creation h hheld).2.1 i).2]
  exact hfree i

/-- The scan of `add_dir_entry`, by a thread that holds `open_file_lock`: the directory is
full, or the file is listed under its name. -/
theorem fillFirst_wp {k : Int → Op α} {n : Fin inodeTableSize} {name : CString}
    (is : List (Fin maxDirEntries)) (hheld : Below held 4) (hlock : (.openFileLock, .write) ∈ held)
    (hname : name.bytes ≠ []) (hfresh : Fresh w.state n)
    (hfree : opensOnly → NameFree w.state name)
    (hfull : DirLater opensOnly held (DirWp opensOnly may Q (k (-1)) held) w)
    (hfilled : ∀ w', FileNumber w'.state ((n : Nat) : Int) →
      (opensOnly → Maps w'.state (name.bytes.take 39) ((n : Nat) : Int)) →
      DirWp opensOnly may Q (k 0) held w') :
    DirWp opensOnly may Q ((fillFirst rootBlock ((n : Nat) : Int) name is).bind k) held w := by
  induction is generalizing w with
  | nil => exact wp_of_later hfull
  | cons i is ih =>
      have hlock' : (.openFileLock, .write) ∈ (.dirEntry i, Mode.write) :: held :=
        List.mem_cons_of_mem _ hlock
      rw [fillFirst]
      simp only [bind_eq, Prog.bind_assoc]
      refine wp_lock fun w₁ hrely₁ _ => ⟨hheld, fun _ => ?_⟩
      have hfresh₁ := (hfresh.rely hrely₁ hlock).1
      have hfree₁ := fun ho => (hfree ho).rely hrely₁ hlock
      refine wp_read fun w₂ hrely₂ _ => ?_
      have hfresh₂ := (hfresh₁.rely hrely₂ hlock').1
      have hfree₂ := fun ho => (hfree₁ ho).rely hrely₂ hlock'
      split
      · rename_i hempty
        rw [Prog.bind_assoc]
        refine wp_modify fun w₃ hrely₃ hinv₃ _ => ?_
        have hfree₃ := fun ho => (hfree₂ ho).rely hrely₃ hlock'
        have hempty₃ : entryNumber w₃.state i = -1 :=
          (entry_congr (rely_creation hrely₃ hlock').2.1 i).1.trans hempty
        rcases hinv₃.fillNumber (hfresh₂.rely hrely₃ hlock').1 hempty₃ with
          ⟨hinv₃', hkeeps₃, hnumber₃, hnames₃⟩
        refine ⟨hinv₃', DirGuar.setData hlock' hkeeps₃, ?_⟩
        rw [Prog.bind_assoc]
        refine wp_modify fun w₄ hrely₄ hinv₄ _ => ?_
        -- until its name is filled in, the entry has a number and no name
        have hentry₄ := entry_congr (rely_creation hrely₄ hlock').2.1
        have hnumber₄ : entryNumber w₄.state i = ((n : Nat) : Int) :=
          (hentry₄ i).1.trans hnumber₃
        have hblank₄ : entryName w₄.state i = [] := by
          rw [(hentry₄ i).2]
          exact (hnames₃ i).trans (hinv₃.unnamed i hempty₃)
        have hfree₄ : opensOnly → NameFree w₄.state name := by
          intro ho j
          rw [(hentry₄ j).2]
          exact (hnames₃ j).trans_ne (hfree₃ ho j)
        rcases hinv₄.fillName name (by rw [hnumber₄]; simp) hblank₄ hfree₄ with
          ⟨hinv₄', hkeeps₄, hnumber₄', hname₄⟩
        refine ⟨hinv₄', DirGuar.setData hlock' hkeeps₄, ?_⟩
        rw [Prog.bind_assoc]
        refine wp_unlock fun w₅ hrely₅ _ => ⟨fun _ => trivial, ?_⟩
        rw [dropLock_cons_self]
        have hmaps : Maps w₅.state (name.bytes.take 39) ((n : Nat) : Int) := by
          refine Maps.keeps (rely_entries hrely₅) ?_ ⟨?_, i, ?_, hname₄⟩
          · simpa using hname
          · simp
          · exact hnumber₄'.trans hnumber₄
        exact hfilled w₅ (Or.inr ⟨hmaps.1, hmaps.2.imp fun _ h => h.1⟩) fun _ => hmaps
      · rw [Prog.bind_assoc]
        refine wp_unlock fun w₃ hrely₃ _ => ⟨fun _ => trivial, ?_⟩
        rw [dropLock_cons_self]
        exact ih (hfresh₂.rely hrely₃ hlock').1 (fun ho => (hfree₂ ho).rely hrely₃ hlock')
          ((hfull.rely hrely₁).after (hrely₂.trans hrely₃) (List.subset_cons_self _ _))

theorem addDirEntry_wp {k : Int → Op α} {n : Fin inodeTableSize} {name : CString}
    (hheld : Below held 3) (hlock : (.openFileLock, .write) ∈ held)
    (hname : name.bytes ≠ []) (hfresh : Fresh w.state n)
    (hfree : opensOnly → NameFree w.state name)
    (hfull : DirLater opensOnly held (DirWp opensOnly may Q (k (-1)) held) w)
    (hfilled : ∀ w', FileNumber w'.state ((n : Nat) : Int) →
      (opensOnly → Maps w'.state (name.bytes.take 39) ((n : Nat) : Int)) →
      DirWp opensOnly may Q (k 0) held w') :
    DirWp opensOnly may Q ((addDirEntry rootDirInum ((n : Nat) : Int) name).bind k) held w := by
  have hroot : index? inodeTableSize rootDirInum = some 0 := index?_eq_some.mpr rfl
  have hblock : dataBlockGet 0 = some rootBlock := index?_eq_some.mpr rfl
  have hlen : name.strlen ≠ 0 := by simpa [CString.strlen] using hname
  rw [addDirEntry, hroot, index?_natCast]
  simp only [bind_eq, Prog.bind_assoc]
  refine wp_readLock fun w₁ hrely₁ _ => ⟨hheld, fun _ => ?_⟩
  refine wp_read fun w₂ hrely₂ hinv₂ => ?_
  refine wp_unlock fun w₃ hrely₃ _ => ⟨fun _ => trivial, ?_⟩
  rw [dropLock_cons_self, if_neg (not_not.mpr hinv₂.rootType), if_neg hlen]
  simp only [Prog.bind_assoc]
  refine wp_readLock fun w₄ hrely₄ _ => ⟨hheld, fun _ => ?_⟩
  refine wp_read fun w₅ hrely₅ hinv₅ => ?_
  refine wp_unlock fun w₆ hrely₆ _ => ⟨fun _ => trivial, ?_⟩
  rw [dropLock_cons_self, hinv₅.rootData, hblock]
  have hrely₄' := ((hrely₁.trans (hrely₂.mono (List.subset_cons_self _ _))).trans
    (hrely₃.mono (List.subset_cons_self _ _))).trans hrely₄
  have hrely := (hrely₄'.trans (hrely₅.mono (List.subset_cons_self _ _))).trans
    (hrely₆.mono (List.subset_cons_self _ _))
  generalize List.finRange maxDirEntries = is
  exact fillFirst_wp is (hheld.mono (by decide)) hlock hname (hfresh.rely hrely hlock).1
    (fun ho => (hfree ho).rely hrely hlock) (hfull.rely hrely) hfilled

/-! ## The open file table -/

/-- With the lock of a handle held, nobody else marks it. -/
theorem rely_mark {h : Fin maxOpenFiles} (hrely : (dirDiscipline opensOnly).Rely held w w')
    (hheld : (.openFile h, .write) ∈ held) (ho : opensOnly) :
    w'.state.freeOpenFileEntries h = w.state.freeOpenFileEntries h := by
  refine hrely.stable (P := fun w₁ => w₁.state.freeOpenFileEntries h =
    w.state.freeOpenFileEntries h) rfl ?_ ?_
  · intro held' w₁ w₂ hcompat _ _ hguar _ hsame
    rw [← hsame]
    exact hguar.marks ho h fun m hmem => nomatch (hcompat _ _ _ hmem hheld).2.1
  · intro w₁ w₂ _ hquiet hsame
    rw [hquiet.1, hsame]

/-- The handle is in use for this file. -/
def OpenFor (fs : FS) (h : Fin maxOpenFiles) (n : Int) : Prop :=
  fs.freeOpenFileEntries h = .taken ∧ (fs.openFileTable h).ofInumber = n

theorem OpenFor.rely {h : Fin maxOpenFiles} {n : Int} (ho : opensOnly)
    (hrely : (dirDiscipline opensOnly).Rely held w w') (hopen : OpenFor w.state h n) :
    OpenFor w'.state h n := by
  refine hrely.stable (P := fun w₁ => OpenFor w₁.state h n) hopen ?_ ?_
  · rintro held' w₁ w₂ - - - hguar - ⟨htaken, hnumber⟩
    rcases hguar.handles ho h htaken with ⟨htaken', hnumber'⟩
    exact ⟨htaken', hnumber'.trans hnumber⟩
  · intro w₁ w₂ _ hquiet hsame
    rw [hquiet.1]
    exact hsame

/-- The scan of `add_to_open_file_table`: no handle, or one that is open for the file. -/
theorem addFirst_wp {k : Int → Op α} {inumber : Int} {offset : Nat}
    (hs : List (Fin maxOpenFiles)) (hheld : Below held 1) (hn : FileNumber w.state inumber)
    (hfull : DirLater opensOnly held (DirWp opensOnly may Q (k (-1)) held) w)
    (hopened : ∀ (h : Fin maxOpenFiles) w', KeepsEntries w.state w'.state →
      (opensOnly → OpenFor w'.state h inumber) →
      DirWp opensOnly may Q (k ((h : Nat) : Int)) held w') :
    DirWp opensOnly may Q ((addFirst inumber offset hs).bind k) held w := by
  induction hs generalizing w with
  | nil => exact wp_of_later hfull
  | cons h hs ih =>
      rw [addFirst]
      simp only [bind_eq, Prog.bind_assoc]
      refine wp_lock fun w₁ hrely₁ _ => ⟨hheld, fun _ => ?_⟩
      refine wp_read fun w₂ hrely₂ _ => ?_
      have hrely := hrely₁.trans (hrely₂.mono (List.subset_cons_self _ _))
      split
      · rename_i hfree
        rw [Prog.bind_assoc]
        refine wp_lock fun w₃ hrely₃ _ =>
          ⟨(hheld.mono (by decide)).cons (by simp [rank]), fun _ => ?_⟩
        rw [Prog.bind_assoc]
        refine wp_modify fun w₄ hrely₄ hinv₄ _ => ?_
        have hkeeps₄ := (rely_entries hrely).trans
          ((rely_entries hrely₃).trans (rely_entries hrely₄))
        -- the lock of the handle is held, so the entry is still free
        have hfree₄ : opensOnly → w₄.state.freeOpenFileEntries h = .free := by
          intro ho
          rw [rely_mark hrely₄ (List.mem_cons_of_mem _ List.mem_cons_self) ho,
            rely_mark hrely₃ List.mem_cons_self ho, hfree]
        refine ⟨hinv₄.setHandle (hn.keeps hkeeps₄), ?_, ?_⟩
        · refine ⟨KeepsEntries.of_bytes fun _ _ => rfl,
            fun _ => ⟨rfl, fun _ _ => rfl, fun _ _ _ => rfl⟩, fun ho h' htaken => ?_,
            fun ho h' hnot => ?_⟩
          · have hne : h' ≠ h := by
              rintro rfl
              rw [hfree₄ ho] at htaken
              cases htaken
            simpa [Discipline.after, hne] using htaken
          · have hne : h' ≠ h := by
              rintro rfl
              exact hnot _ (List.mem_cons_of_mem _ List.mem_cons_self)
            simp [Discipline.after, hne]
        have hopen₄ : OpenFor ((w₄.state.setHandleState h .taken).setHandle h ⟨inumber, offset⟩) h
            inumber := ⟨by simp, by simp⟩
        have hmark₄ : KeepsEntries w₄.state
            ((w₄.state.setHandleState h .taken).setHandle h ⟨inumber, offset⟩) :=
          KeepsEntries.of_bytes fun _ _ => rfl
        rw [Prog.bind_assoc]
        refine wp_fileStep (fun _ _ _ _ => fileStep_setCount _) fun w₅ hrely₅ _ => ?_
        rw [Prog.bind_assoc]
        refine wp_unlock fun w₆ hrely₆ _ => ⟨fun _ => trivial, ?_⟩
        rw [dropLock_cons_of_ne (by simp), dropLock_cons_self, Prog.bind_assoc]
        refine wp_unlock fun w₇ hrely₇ _ => ⟨fun _ => trivial, ?_⟩
        rw [dropLock_cons_self]
        -- where handles are only opened, the new one stays what it is
        refine hopened h w₇ ?_ fun ho =>
          ((OpenFor.rely ho hrely₅ hopen₄).rely ho hrely₆).rely ho hrely₇
        exact (hkeeps₄.trans hmark₄).trans ((rely_entries hrely₅).trans
          ((rely_entries hrely₆).trans (rely_entries hrely₇)))
      · rw [Prog.bind_assoc]
        refine wp_unlock fun w₃ hrely₃ _ => ⟨fun _ => trivial, ?_⟩
        have hrely₃ := hrely.trans (hrely₃.mono (List.subset_cons_self _ _))
        rw [dropLock_cons_self]
        exact ih (hn.keeps (rely_entries hrely₃)) (hfull.rely hrely₃)
          fun h' w' hkeeps => hopened h' w' ((rely_entries hrely₃).trans hkeeps)

theorem addToOpenFileTable_wp {k : Int → Op α} {inumber : Int} {offset : Nat}
    (hheld : Below held 1) (hn : FileNumber w.state inumber)
    (hfull : DirLater opensOnly held (DirWp opensOnly may Q (k (-1)) held) w)
    (hopened : ∀ (h : Fin maxOpenFiles) w', KeepsEntries w.state w'.state →
      (opensOnly → OpenFor w'.state h inumber) →
      DirWp opensOnly may Q (k ((h : Nat) : Int)) held w') :
    DirWp opensOnly may Q ((addToOpenFileTable inumber offset).bind k) held w := by
  unfold addToOpenFileTable
  generalize List.finRange maxOpenFiles = hs
  exact addFirst_wp hs hheld hn hfull hopened

end TecnicoFS.Part1
