import TecnicoFS.Part1.Start
import TecnicoFS.Part2.Directory
import TecnicoFS.Lib.Threads

/-!
# Part 1: the root directory between the steps of a creation

The root directory lies in block 0. `tfs_open` creates a file in several steps: an i-node is
taken and initialised, then the number of an entry is filled in, then its name. `DirInv` is
what holds between any two steps of any threads, and `DirGuar` what a step may change: an
entry that is in use stays as it is, and only a thread that holds `open_file_lock` changes the
directory or an i-node that no entry lists.

`opensOnly` stands for runs of `tfs_open` and `tfs_lookup` on names of at most 39 bytes.
There a name is never in two entries, and a handle is never given back.
-/

namespace TecnicoFS.Part1

open Threads
open Part2 (AllocationState OpenFileEntry rootDirInum blockSize dataBlocks inodeTableSize
  maxOpenFiles maxFileName maxDirEntries dName dInumber setDInumber setDName entryAddr rootBlock
  rootEntry rootEntry_eq EntryMatches dInumber_store_disjoint dName_store_disjoint
  dInumber_setDInumber)

/-! ## Entries -/

/-- The number in an entry of the root directory; -1 if the entry is empty. -/
def entryNumber (fs : FS) (i : Fin maxDirEntries) : Int := dInumber fs.fsData (rootEntry i)

/-- The name in an entry of the root directory. -/
def entryName (fs : FS) (i : Fin maxDirEntries) : List UInt8 := Part2.entryName fs.fsData i

/-- Some entry has this number. -/
def Listed (fs : FS) (n : Int) : Prop := ∃ i, entryNumber fs i = n

/-- The number of the root directory or of a file. -/
def FileNumber (fs : FS) (n : Int) : Prop := n = 0 ∨ n ≠ -1 ∧ Listed fs n

/-- Some entry has this name and number. -/
def Maps (fs : FS) (name : List UInt8) (n : Int) : Prop :=
  n ≠ -1 ∧ ∃ i, entryNumber fs i = n ∧ entryName fs i = name

/-- Numbers and names of entries that are in use stay as they are. -/
structure KeepsEntries (fs fs' : FS) : Prop where
  numbers : ∀ i, entryNumber fs i ≠ -1 → entryNumber fs' i = entryNumber fs i
  names : ∀ i, entryName fs i ≠ [] → entryName fs' i = entryName fs i

variable {fs fs' fs'' : FS} {i j : Fin maxDirEntries} {n : Int} {name : CString}

theorem KeepsEntries.refl (fs : FS) : KeepsEntries fs fs := ⟨fun _ _ => rfl, fun _ _ => rfl⟩

theorem KeepsEntries.trans (h : KeepsEntries fs fs') (h' : KeepsEntries fs' fs'') :
    KeepsEntries fs fs'' := by
  refine ⟨fun i hi => ?_, fun i hi => ?_⟩
  · rw [h'.numbers i (by rw [h.numbers i hi]; exact hi), h.numbers i hi]
  · rw [h'.names i (by rw [h.names i hi]; exact hi), h.names i hi]

theorem FileNumber.keeps (hn : FileNumber fs n) (h : KeepsEntries fs fs') : FileNumber fs' n := by
  rcases hn with rfl | ⟨hne, i, rfl⟩
  · exact Or.inl rfl
  · exact Or.inr ⟨hne, i, h.numbers i hne⟩

theorem Maps.keeps {name : List UInt8} (h : KeepsEntries fs fs') (hne : name ≠ [])
    (hn : Maps fs name n) : Maps fs' name n := by
  rcases hn with ⟨hn, i, rfl, rfl⟩
  exact ⟨hn, i, h.numbers i hn, h.names i hne⟩

theorem entry_congr (h : ∀ x < blockSize, fs'.fsData x = fs.fsData x) (i : Fin maxDirEntries) :
    entryNumber fs' i = entryNumber fs i ∧ entryName fs' i = entryName fs i := by
  have hi := i.isLt
  simp only [maxDirEntries, Part2.dirEntrySize, maxFileName, blockSize] at hi h
  unfold entryNumber entryName Part2.entryName dInumber dName
  simp only [rootEntry_eq, maxFileName]
  constructor
  · rw [Memory.load_congr fun x _ hx => h x (by omega)]
  · rw [Memory.load_congr fun x _ hx => h x (by omega)]

theorem KeepsEntries.of_bytes (h : ∀ x < blockSize, fs'.fsData x = fs.fsData x) :
    KeepsEntries fs fs' :=
  ⟨fun i _ => (entry_congr h i).1, fun i _ => (entry_congr h i).2⟩

theorem Listed.congr (h : ∀ x < blockSize, fs'.fsData x = fs.fsData x) :
    Listed fs' n ↔ Listed fs n := by
  unfold Listed
  simp only [(entry_congr h _).1]

/-- The number of an entry is filled in: nothing else is touched. -/
theorem entry_setDInumber (fs : FS) (i : Fin maxDirEntries) (hlo : -2 ^ 31 ≤ n)
    (hhi : n < 2 ^ 31) :
    (∀ j, entryNumber (fs.setData (setDInumber fs.fsData (entryAddr rootBlock i) n)) j =
        if j = i then n else entryNumber fs j) ∧
      ∀ j, entryName (fs.setData (setDInumber fs.fsData (entryAddr rootBlock i) n)) j =
        entryName fs j := by
  have haddr : entryAddr rootBlock i = rootEntry i := rfl
  unfold entryNumber entryName Part2.entryName
  simp only [FS.fsData_setData, haddr]
  refine ⟨fun j => ?_, fun j => ?_⟩
  · by_cases hj : j = i
    · rw [if_pos hj, hj, dInumber_setDInumber hlo hhi]
    · have hne : (j : Nat) ≠ i := fun heq => hj (Fin.ext heq)
      rw [if_neg hj, setDInumber, dInumber_store_disjoint]
      simp only [rootEntry_eq, length_intBytes, maxFileName]
      omega
  · rw [setDInumber, dName_store_disjoint]
    simp only [rootEntry_eq, length_intBytes, maxFileName]
    omega

/-- The name of an entry is filled in: nothing else is touched. -/
theorem entry_setDName (fs : FS) (i : Fin maxDirEntries) (name : CString) :
    (∀ j, entryNumber (fs.setData (setDName fs.fsData (entryAddr rootBlock i) name)) j =
        entryNumber fs j) ∧
      ∀ j, entryName (fs.setData (setDName fs.fsData (entryAddr rootBlock i) name)) j =
        if j = i then name.bytes.take 39 else entryName fs j := by
  have haddr : entryAddr rootBlock i = rootEntry i := rfl
  have hlen : (strncpy 39 name ++ [0]).length = 40 := by simp
  unfold entryNumber entryName Part2.entryName
  simp only [FS.fsData_setData, haddr]
  refine ⟨fun j => ?_, fun j => ?_⟩
  · rw [setDName, dInumber_store_disjoint]
    simp only [rootEntry_eq, maxFileName, hlen]
    omega
  · by_cases hj : j = i
    · have hsame := Memory.load_store_same fs.fsData (rootEntry i) (strncpy 39 name ++ [0])
      rw [hlen] at hsame
      have hname : dName (setDName fs.fsData (rootEntry i) name) (rootEntry i) =
          strncpy 39 name ++ [0] := hsame
      rw [if_pos hj, hj, hname, ← cstr_strncpy 39 name, List.take_of_length_le hlen.le]
    · have hne : (j : Nat) ≠ i := fun heq => hj (Fin.ext heq)
      rw [if_neg hj, setDName, dName_store_disjoint]
      simp only [rootEntry_eq, maxFileName, hlen]
      omega

theorem initialFS_fsData :
    initialFS.fsData = Part2.clearEntries boot.fsData rootBlock maxDirEntries := by
  simp only [initialFS, rootBlock]

/-- The entries are empty at first. -/
theorem entryNumber_initial (i : Fin maxDirEntries) : entryNumber initialFS i = -1 := by
  rw [entryNumber, initialFS_fsData]
  exact Part2.dInumber_clearEntries i.isLt

/-- The names of the entries are blank at first. -/
theorem entryName_initial (i : Fin maxDirEntries) : entryName initialFS i = [] := by
  have hname : ∀ c, dName (Part2.clearEntries boot.fsData rootBlock c) (rootEntry i) =
      dName boot.fsData (rootEntry i) := by
    intro c
    induction c with
    | zero => rfl
    | succ c ih =>
        have haddr : entryAddr rootBlock c = 44 * c := rootEntry_eq c
        rw [Part2.clearEntries, setDInumber, dName_store_disjoint, ih]
        simp only [haddr, rootEntry_eq, length_intBytes, maxFileName]
        omega
  have hcells : dName boot.fsData (rootEntry i) = List.replicate 40 0 := by
    rw [List.eq_replicate_iff]
    exact ⟨Memory.length_load, by simp [dName, Memory.load, boot]⟩
  rw [entryName, Part2.entryName, initialFS_fsData, hname, hcells]
  rfl

/-! ## What holds between two steps -/

/-- The root directory lists each used i-node once, and every handle refers to the root
directory or to a listed i-node. -/
structure DirInv (opensOnly : Prop) (fs : FS) : Prop where
  rootType : (fs.inodeTable 0).iNodeType = .tDirectory
  rootData : (fs.inodeTable 0).iDataBlock 0 = 0
  rootTaken : fs.freeinodeTs 0 = .taken
  numbers : ∀ i, entryNumber fs i ≠ -1 → ∃ n : Fin inodeTableSize,
    entryNumber fs i = ((n : Nat) : Int) ∧ n ≠ 0 ∧ fs.freeinodeTs n = .taken
  distinct : ∀ i j, entryNumber fs i ≠ -1 → entryNumber fs i = entryNumber fs j → i = j
  unnamed : ∀ i, entryNumber fs i = -1 → entryName fs i = []
  unique : opensOnly → ∀ i j, entryName fs i ≠ [] → entryName fs i = entryName fs j → i = j
  handles : ∀ h, FileNumber fs (fs.openFileTable h).ofInumber

/-- What a thread that holds these locks may do. -/
structure DirGuar (opensOnly : Prop) (held : List (Lock × Mode)) (fs fs' : FS) : Prop where
  entries : KeepsEntries fs fs'
  creation : (.openFileLock, .write) ∉ held → fs'.freeinodeTs = fs.freeinodeTs ∧
    (∀ x < blockSize, fs'.fsData x = fs.fsData x) ∧
    ∀ n : Fin inodeTableSize, n ≠ 0 → ¬ Listed fs ((n : Nat) : Int) →
      fs'.inodeTable n = fs.inodeTable n
  handles : opensOnly → ∀ h, fs.freeOpenFileEntries h = .taken →
    fs'.freeOpenFileEntries h = .taken ∧
      (fs'.openFileTable h).ofInumber = (fs.openFileTable h).ofInumber
  marks : opensOnly → ∀ h, (∀ m, (.openFile h, m) ∉ held) →
    fs'.freeOpenFileEntries h = fs.freeOpenFileEntries h

/-- A step on blocks, offsets and the i-nodes of files. -/
structure FileStep (fs fs' : FS) : Prop where
  states : fs'.freeinodeTs = fs.freeinodeTs
  bytes : ∀ x < blockSize, fs'.fsData x = fs.fsData x
  unlisted : ∀ n : Fin inodeTableSize, n ≠ 0 → ¬ Listed fs ((n : Nat) : Int) →
    fs'.inodeTable n = fs.inodeTable n
  rootType : (fs'.inodeTable 0).iNodeType = (fs.inodeTable 0).iNodeType
  rootData : (fs'.inodeTable 0).iDataBlock 0 = (fs.inodeTable 0).iDataBlock 0
  handles : ∀ h, (fs'.openFileTable h).ofInumber = (fs.openFileTable h).ofInumber
  marks : fs'.freeOpenFileEntries = fs.freeOpenFileEntries

variable {opensOnly : Prop} {held : List (Lock × Mode)}

theorem DirGuar.refl (opensOnly : Prop) (held : List (Lock × Mode)) (fs : FS) :
    DirGuar opensOnly held fs fs :=
  ⟨KeepsEntries.refl fs, fun _ => ⟨rfl, fun _ _ => rfl, fun _ _ _ => rfl⟩,
    fun _ _ h => ⟨h, rfl⟩, fun _ _ _ => rfl⟩

/-- What a thread without locks may do, every thread may do. -/
theorem DirGuar.of_nil (h : DirGuar opensOnly [] fs fs') : DirGuar opensOnly held fs fs' :=
  ⟨h.entries, fun _ => h.creation List.not_mem_nil, h.handles,
    fun ho i _ => h.marks ho i fun _ => List.not_mem_nil⟩

theorem FileStep.inv (h : FileStep fs fs') (hinv : DirInv opensOnly fs) :
    DirInv opensOnly fs' := by
  have hnumber : ∀ i, entryNumber fs' i = entryNumber fs i := fun i => (entry_congr h.bytes i).1
  have hname : ∀ i, entryName fs' i = entryName fs i := fun i => (entry_congr h.bytes i).2
  refine
    { rootType := h.rootType.trans hinv.rootType
      rootData := h.rootData.trans hinv.rootData
      rootTaken := by rw [h.states]; exact hinv.rootTaken
      numbers := fun i => by rw [hnumber, h.states]; exact hinv.numbers i
      distinct := fun i j => by rw [hnumber, hnumber]; exact hinv.distinct i j
      unnamed := fun i => by rw [hnumber, hname]; exact hinv.unnamed i
      unique := fun ho i j => by rw [hname, hname]; exact hinv.unique ho i j
      handles := fun i => ?_ }
  rw [h.handles]
  exact (hinv.handles i).keeps (KeepsEntries.of_bytes h.bytes)

theorem FileStep.guar (h : FileStep fs fs') : DirGuar opensOnly held fs fs' where
  entries := KeepsEntries.of_bytes h.bytes
  creation _ := ⟨h.states, h.bytes, h.unlisted⟩
  handles _ i htaken := ⟨by rw [h.marks]; exact htaken, h.handles i⟩
  marks _ i _ := by rw [h.marks]

/-- An i-node that is not the root directory and that no entry lists: only the thread that
creates it knows it. -/
structure Fresh (fs : FS) (n : Fin inodeTableSize) : Prop where
  taken : fs.freeinodeTs n = .taken
  notRoot : n ≠ 0
  unlisted : ¬ Listed fs ((n : Nat) : Int)

theorem Fresh.setInode {k : Fin inodeTableSize} (h : Fresh fs k) (m : Fin inodeTableSize)
    (inode : Inode) : Fresh (fs.setInode m inode) k := ⟨h.taken, h.notRoot, h.unlisted⟩

/-- A listed i-node is in use, and it is not the root directory. -/
theorem DirInv.listed (hinv : DirInv opensOnly fs) {k : Fin inodeTableSize}
    (h : Listed fs ((k : Nat) : Int)) : k ≠ 0 ∧ fs.freeinodeTs k = .taken := by
  rcases h with ⟨i, hi⟩
  rcases hinv.numbers i (by rw [hi]; simp) with ⟨m, hm, hne, htaken⟩
  have hk : k = m := Fin.ext (by rw [hi] at hm; exact_mod_cast hm)
  rw [hk]
  exact ⟨hne, htaken⟩

/-- A name has one number. -/
theorem Maps.unique {name : List UInt8} {m : Int} (hinv : DirInv opensOnly fs) (ho : opensOnly)
    (hne : name ≠ []) (hn : Maps fs name n) (hm : Maps fs name m) : n = m := by
  rcases hn with ⟨-, i, rfl, hi⟩
  rcases hm with ⟨-, j, rfl, hj⟩
  rw [hinv.unique ho i j (by rw [hi]; exact hne) (by rw [hi, hj])]

/-! ## The steps of a creation -/

section Creation

variable {k : Fin inodeTableSize}

/-- A step of the thread that holds `open_file_lock`, away from the handles. -/
theorem DirGuar.of_creation (hlock : (.openFileLock, .write) ∈ held)
    (hentries : KeepsEntries fs fs') (htable : fs'.openFileTable = fs.openFileTable)
    (hmarks : fs'.freeOpenFileEntries = fs.freeOpenFileEntries) :
    DirGuar opensOnly held fs fs' where
  entries := hentries
  creation hnot := absurd hlock hnot
  handles _ h htaken := ⟨by rw [hmarks]; exact htaken, by rw [htable]⟩
  marks _ h _ := by rw [hmarks]

theorem DirGuar.setData (hlock : (.openFileLock, .write) ∈ held) {data : Memory UInt8}
    (hentries : KeepsEntries fs (fs.setData data)) :
    DirGuar opensOnly held fs (fs.setData data) :=
  DirGuar.of_creation hlock hentries rfl rfl

/-- The states of the i-nodes change, but every listed i-node and the root stay in use. -/
theorem DirInv.setInodeState (hinv : DirInv opensOnly fs) {state : AllocationState}
    (h : state = .taken ∨ Fresh fs k) : DirInv opensOnly (fs.setInodeState k state) := by
  have hkeep : ∀ m : Fin inodeTableSize, (m = 0 ∨ Listed fs ((m : Nat) : Int)) →
      fs.freeinodeTs m = .taken → Function.update fs.freeinodeTs k state m = .taken := by
    intro m hm htaken
    by_cases hmk : m = k
    · subst hmk
      rcases h with rfl | hfresh
      · exact Function.update_self ..
      · exact absurd hm (not_or.mpr ⟨hfresh.notRoot, hfresh.unlisted⟩)
    · rw [Function.update_of_ne hmk]
      exact htaken
  refine ⟨hinv.rootType, hinv.rootData, hkeep 0 (Or.inl rfl) hinv.rootTaken, fun i hi => ?_,
    hinv.distinct, hinv.unnamed, hinv.unique, hinv.handles⟩
  rcases hinv.numbers i hi with ⟨m, hm, hne, htaken⟩
  exact ⟨m, hm, hne, hkeep m (Or.inr ⟨i, hm⟩) htaken⟩

/-- An i-node that was free is fresh once it is taken. -/
theorem Fresh.of_free (hinv : DirInv opensOnly fs) (hfree : fs.freeinodeTs k = .free) :
    Fresh (fs.setInodeState k .taken) k := by
  refine ⟨by simp, ?_, fun hlisted => ?_⟩
  · rintro rfl
    rw [hinv.rootTaken] at hfree
    cases hfree
  · rw [(hinv.listed hlisted).2] at hfree
    cases hfree

/-- A fresh i-node may be given any contents. -/
theorem DirInv.setInode_fresh (hinv : DirInv opensOnly fs) (hfresh : Fresh fs k) (inode : Inode) :
    DirInv opensOnly (fs.setInode k inode) := by
  have hroot : Function.update fs.inodeTable k inode 0 = fs.inodeTable 0 :=
    Function.update_of_ne (Ne.symm hfresh.notRoot) ..
  refine ⟨?_, ?_, hinv.rootTaken, hinv.numbers, hinv.distinct, hinv.unnamed, hinv.unique,
    hinv.handles⟩
  · rw [FS.setInode_inodeTable, hroot]
    exact hinv.rootType
  · rw [FS.setInode_inodeTable, hroot]
    exact hinv.rootData

/-- The first step of a new entry: its number. -/
theorem DirInv.fillNumber (hinv : DirInv opensOnly fs) (hfresh : Fresh fs k)
    (hempty : entryNumber fs i = -1) :
    let fs' := fs.setData (setDInumber fs.fsData (entryAddr rootBlock i) ((k : Nat) : Int))
    DirInv opensOnly fs' ∧ KeepsEntries fs fs' ∧ entryNumber fs' i = ((k : Nat) : Int) ∧
      ∀ j, entryName fs' j = entryName fs j := by
  intro fs'
  have hk : (k : Nat) < 50 := k.isLt
  rcases entry_setDInumber fs i (n := ((k : Nat) : Int)) (by omega) (by omega) with
    ⟨hnumber, hname⟩
  have hother : ∀ j, j ≠ i → entryNumber fs' j = entryNumber fs j := fun j hj => by
    rw [hnumber, if_neg hj]
  have hself : entryNumber fs' i = ((k : Nat) : Int) := by rw [hnumber, if_pos rfl]
  -- an entry that is empty may change, and no other does
  have hkeeps : KeepsEntries fs fs' := by
    refine ⟨fun j hj => hother j ?_, fun j _ => hname j⟩
    rintro rfl
    exact hj hempty
  refine ⟨⟨hinv.rootType, hinv.rootData, hinv.rootTaken, fun j hj => ?_, fun j j' hj heq => ?_,
    fun j hj => ?_, fun ho j j' hj heq => ?_, fun h => (hinv.handles h).keeps hkeeps⟩,
    hkeeps, hself, hname⟩
  · by_cases hji : j = i
    · subst hji
      exact ⟨k, hself, hfresh.notRoot, hfresh.taken⟩
    · rw [hother j hji] at hj ⊢
      exact hinv.numbers j hj
  · -- the number is new, so no other entry has it
    by_cases hji : j = i
    · by_cases hj'i : j' = i
      · rw [hji, hj'i]
      · rw [hji, hself, hother j' hj'i] at heq
        exact absurd ⟨j', heq.symm⟩ hfresh.unlisted
    · by_cases hj'i : j' = i
      · rw [hj'i, hself, hother j hji] at heq
        exact absurd ⟨j, heq⟩ hfresh.unlisted
      · rw [hother j hji] at hj heq
        rw [hother j' hj'i] at heq
        exact hinv.distinct j j' hj heq
  · rw [hname]
    by_cases hji : j = i
    · rw [hji]
      exact hinv.unnamed i hempty
    · rw [hother j hji] at hj
      exact hinv.unnamed j hj
  · rw [hname] at hj heq
    rw [hname] at heq
    exact hinv.unique ho j j' hj heq

/-- The second step of a new entry: its name, which no other entry has. -/
theorem DirInv.fillName (hinv : DirInv opensOnly fs) (name : CString) (hused : entryNumber fs i ≠ -1)
    (hblank : entryName fs i = [])
    (hnew : opensOnly → ∀ j, entryName fs j ≠ name.bytes.take 39) :
    let fs' := fs.setData (setDName fs.fsData (entryAddr rootBlock i) name)
    DirInv opensOnly fs' ∧ KeepsEntries fs fs' ∧ entryNumber fs' i = entryNumber fs i ∧
      entryName fs' i = name.bytes.take 39 := by
  intro fs'
  rcases entry_setDName fs i name with ⟨hnumber, hname⟩
  have hother : ∀ j, j ≠ i → entryName fs' j = entryName fs j := fun j hj => by
    rw [hname, if_neg hj]
  have hself : entryName fs' i = name.bytes.take 39 := by rw [hname, if_pos rfl]
  have hkeeps : KeepsEntries fs fs' := by
    refine ⟨fun j _ => hnumber j, fun j hj => hother j ?_⟩
    rintro rfl
    exact hj hblank
  refine ⟨⟨hinv.rootType, hinv.rootData, hinv.rootTaken, fun j hj => ?_, fun j j' hj heq => ?_,
    fun j hj => ?_, fun ho j j' hj heq => ?_, fun h => (hinv.handles h).keeps hkeeps⟩,
    hkeeps, hnumber i, hself⟩
  · rw [hnumber] at hj ⊢
    exact hinv.numbers j hj
  · rw [hnumber] at hj heq
    rw [hnumber] at heq
    exact hinv.distinct j j' hj heq
  · rw [hnumber] at hj
    rw [hother j (by rintro rfl; exact hused hj)]
    exact hinv.unnamed j hj
  -- the name is new where only `tfs_open` runs
  · by_cases hji : j = i
    · by_cases hj'i : j' = i
      · rw [hji, hj'i]
      · rw [hji, hself, hother j' hj'i] at heq
        exact absurd heq.symm (hnew ho j')
    · by_cases hj'i : j' = i
      · rw [hj'i, hself, hother j hji] at heq
        exact absurd heq (hnew ho j)
      · rw [hother j hji] at hj heq
        rw [hother j' hj'i] at heq
        exact hinv.unique ho j j' hj heq

end Creation

/-! ## The steps on a handle -/

/-- A handle is taken for a file. -/
theorem DirInv.setHandle (hinv : DirInv opensOnly fs) {h : Fin maxOpenFiles}
    {state : AllocationState} {entry : OpenFileEntry} (hn : FileNumber fs entry.ofInumber) :
    DirInv opensOnly ((fs.setHandleState h state).setHandle h entry) := by
  refine ⟨hinv.rootType, hinv.rootData, hinv.rootTaken, hinv.numbers, hinv.distinct, hinv.unnamed,
    hinv.unique, fun h' => ?_⟩
  have hfile : FileNumber fs (Function.update fs.openFileTable h entry h').ofInumber := by
    by_cases hh : h' = h
    · rw [hh, Function.update_self]
      exact hn
    · rw [Function.update_of_ne hh]
      exact hinv.handles h'
  exact hfile

/-- A handle is given back, which only happens in runs that close handles. -/
theorem DirInv.setHandleState (hinv : DirInv opensOnly fs) (hcloses : ¬ opensOnly)
    (h : Fin maxOpenFiles) (state : AllocationState) :
    DirInv opensOnly (fs.setHandleState h state) ∧
      DirGuar opensOnly held fs (fs.setHandleState h state) := by
  refine ⟨⟨hinv.rootType, hinv.rootData, hinv.rootTaken, hinv.numbers, hinv.distinct,
    hinv.unnamed, hinv.unique, hinv.handles⟩, ?_⟩
  exact
    { entries := KeepsEntries.of_bytes fun _ _ => rfl
      creation := fun _ => ⟨rfl, fun _ _ => rfl, fun _ _ _ => rfl⟩
      handles := fun ho => absurd ho hcloses
      marks := fun ho => absurd ho hcloses }

end TecnicoFS.Part1
