import TecnicoFS.Part2.Runs

/-!
# Part 2: the namespace under `tfs_open`

`valid_pathname` is tested only inside the lookup, whose -1 stands for "invalid" and for "not
found" alike. The create branch acts on it without looking at the path again, so an invalid
path of two bytes or more, opened with `TFS_O_CREAT`, becomes a new entry of the root directory
named after all but its first byte. No lookup ever finds that entry by its path, so the next
open of the path makes another one.

`OpenStep` says what an open did. While no open creates an invalid path, the names stay
distinct (`namesDistinct_step`), and the runs follow.
-/

namespace TecnicoFS.Part2

variable {k : Nat} {fs fs' : FS} {name : CString} {flags : BitVec 32} {r : Int}

/-! ## What is asked of the directory -/

/-- Entry `i` of the root directory names an i-node. -/
def Listed (fs : FS) (i : Fin maxDirEntries) : Prop :=
  dInumber fs.fsData (entryAddr rootBlock i) ≠ -1

instance (fs : FS) (i : Fin maxDirEntries) : Decidable (Listed fs i) :=
  inferInstanceAs (Decidable (dInumber fs.fsData (entryAddr rootBlock i) ≠ -1))

/-- The names stored in the root directory are pairwise distinct. -/
def NamesDistinct (fs : FS) : Prop :=
  ∀ i j, Listed fs i → Listed fs j →
    cstr (dName fs.fsData (entryAddr rootBlock i)) =
      cstr (dName fs.fsData (entryAddr rootBlock j)) → i = j

instance (fs : FS) : Decidable (NamesDistinct fs) :=
  inferInstanceAs (Decidable (∀ i j, Listed fs i → Listed fs j →
    cstr (dName fs.fsData (entryAddr rootBlock i)) =
      cstr (dName fs.fsData (entryAddr rootBlock j)) → i = j))

/-- The directory, the blocks, the allocated i-nodes and the handles are as before. -/
structure LeavesAlone (fs fs' : FS) : Prop where
  data : fs'.fsData = fs.fsData
  blocks : fs'.freeBlocks = fs.freeBlocks
  marks : fs'.freeinodeTs = fs.freeinodeTs
  inodes : ∀ n, fs.freeinodeTs n = .taken → fs'.inodeTable n = fs.inodeTable n
  handles : fs'.openFileTable = fs.openFileTable
  handleMarks : fs'.freeOpenFileEntries = fs.freeOpenFileEntries
  count : fs'.openFilesCount = fs.openFilesCount

/-- The open returns -1 and changes nothing. -/
def NeverOpened (fs : FS) (name : CString) (flags : BitVec 32) : Prop :=
  ∃ fs', tfsOpen fs name flags = some (-1, fs') ∧ LeavesAlone fs fs'

/-- A path a caller may pass: not empty and at most 39 bytes. -/
def PathArgument (name : CString) : Prop := name.bytes ≠ [] ∧ name.strlen ≤ 39

/-- The open creates an entry under an invalid path: it asks for it, the path has a byte after
the first, and the directory has room. -/
def CreatesInvalid (fs : FS) (name : CString) (flags : BitVec 32) : Prop :=
  validPathname name = false ∧ hasFlag flags tfsOCreat = true ∧ 2 ≤ name.strlen ∧
    ∃ i, ¬ Listed fs i

instance (name : CString) : Decidable (PathArgument name) :=
  inferInstanceAs (Decidable (name.bytes ≠ [] ∧ name.strlen ≤ 39))

instance (fs : FS) (name : CString) (flags : BitVec 32) : Decidable (CreatesInvalid fs name flags) :=
  inferInstanceAs (Decidable (validPathname name = false ∧ hasFlag flags tfsOCreat = true ∧
    2 ≤ name.strlen ∧ ∃ i, ¬ Listed fs i))

/-- The client only opens. -/
def Opens : Machine.Guard FS Call Ret := fun _ _ c =>
  match c with
  | .open name _ => PathArgument name
  | _ => False

/-- The client only opens, and no open creates an invalid path. -/
def ValidOpens : Machine.Guard FS Call Ret := fun tr fs c =>
  Opens tr fs c ∧ ∀ name flags, c = .open name flags → ¬ CreatesInvalid fs name flags

/-! ## The directory under the invariant -/

theorem listed_iff (hinv : Inv k fs) {i : Fin maxDirEntries} : Listed fs i ↔ (i : Nat) < k := by
  have hentry : dInumber fs.fsData (entryAddr rootBlock i) =
      if (i : Nat) < k then (((i : Nat) + 1 : Nat) : Int) else -1 := hinv.entries i i.isLt
  unfold Listed
  rw [hentry]
  split
  · rename_i hlt
    exact ⟨fun _ => hlt, fun _ => by omega⟩
  · rename_i hge
    exact ⟨fun h => absurd rfl h, fun hlt => absurd hlt hge⟩

theorem namesDistinct_iff (hinv : Inv k fs) :
    NamesDistinct fs ↔ ∀ i j, i < k → j < k →
      entryName fs.fsData i = entryName fs.fsData j → i = j := by
  have hle := hinv.files_le
  constructor
  · intro hdist i j hi hj hname
    have hij := hdist ⟨i, hi.trans_le hle⟩ ⟨j, hj.trans_le hle⟩ ((listed_iff hinv).mpr hi)
      ((listed_iff hinv).mpr hj) hname
    exact congrArg Fin.val hij
  · intro hdist i j hi hj hname
    exact Fin.ext (hdist i j ((listed_iff hinv).mp hi) ((listed_iff hinv).mp hj) hname)

/-- There is room exactly while there are fewer files than entries. -/
theorem exists_not_listed (hinv : Inv k fs) : (∃ i, ¬ Listed fs i) ↔ k < maxDirEntries := by
  constructor
  · rintro ⟨i, hi⟩
    rw [listed_iff hinv] at hi
    have := i.isLt
    omega
  · intro hk
    exact ⟨⟨k, hk⟩, by simp [listed_iff hinv]⟩

/-- A path of two bytes or more has a name to store. -/
theorem tail_ne_nil (hlen : 2 ≤ name.strlen) : name.tail.bytes ≠ [] := by
  intro hnil
  have hzero : name.bytes.tail.length = 0 := by
    rw [show name.bytes.tail = [] from hnil]
    rfl
  rw [List.length_tail] at hzero
  simp only [CString.strlen] at hlen
  omega

theorem strlen_of_tail (h : name.tail.bytes ≠ []) : 2 ≤ name.strlen := by
  have hpos : 0 < name.bytes.tail.length := List.length_pos_iff.mpr h
  rw [List.length_tail] at hpos
  simp only [CString.strlen]
  omega

/-- Names of at most 38 bytes are stored whole. -/
theorem take_tail (hpath : PathArgument name) {m : Nat} (hm : 39 ≤ m) :
    name.tail.bytes.take m = name.tail.bytes := by
  apply List.take_of_length_le
  have hlen := hpath.2
  have htail : name.tail.bytes.length = name.bytes.length - 1 := List.length_tail
  simp only [CString.strlen] at hlen
  omega

/-! ## One open -/

/-- The invalid path names no file. -/
theorem not_found_of_invalid {n : Fin inodeTableSize} (hvalid : validPathname name = false) :
    ¬ Names fs name n := by
  intro hname
  rw [hname.1] at hvalid
  cases hvalid

/-- A rolled back creation touches a free i-node only. -/
theorem scrapInode_leavesAlone {n : Fin inodeTableSize} (hinv : Inv k fs) (hn : (n : Nat) = k + 1) :
    LeavesAlone fs (scrapInode fs n) where
  data := rfl
  blocks := rfl
  marks := rfl
  handles := rfl
  handleMarks := rfl
  count := rfl
  inodes := by
    intro m hm
    have hne : m ≠ n := by
      rintro rfl
      have := (hinv.inodes m).mp hm
      omega
    exact Function.update_of_ne hne _ _

/-- An invalid path is refused and changes nothing exactly when it creates no entry. -/
theorem neverOpened_iff (hinv : Inv k fs) (hpath : PathArgument name)
    (hvalid : validPathname name = false) :
    NeverOpened fs name flags ↔ ¬ CreatesInvalid fs name flags := by
  rcases tfsOpen_returns hinv name flags hpath.1 with ⟨r, fs', hopen, hstep⟩
  constructor
  · rintro ⟨fs'', hrefused, halone⟩ ⟨-, hcreat, hlen, hroom⟩
    rw [hopen] at hrefused
    rcases Prod.mk.inj (Option.some.inj hrefused) with ⟨hr, rfl⟩
    cases hstep with
    | absent _ hno =>
        rw [hcreat] at hno
        cases hno
    | found _ hname _ _ => exact not_found_of_invalid hvalid hname
    | scrapped _ _ _ hwhy =>
        rcases hwhy with hfull | hnil
        · have := (exists_not_listed hinv).mp hroom
          omega
        · exact tail_ne_nil hlen hnil
    | @created n _ _ _ _ hn hk _ hadd =>
        -- the new i-node is marked `TAKEN`, whether or not a handle was left for it
        have htaken : fs'.freeinodeTs n = .taken := by
          rcases addToOpenFileTable_cases hadd with ⟨-, rfl, -⟩ | ⟨j, -, rfl, -⟩
          · simp [newFile]
          · simp [newFile, newHandle]
        rw [halone.marks] at htaken
        have := (hinv.inodes n).mp htaken
        omega
  · intro hnot
    cases hstep with
    | absent _ _ => exact ⟨fs, hopen, rfl, rfl, rfl, fun _ _ => rfl, rfl, rfl, rfl⟩
    | found _ hname _ _ => exact absurd hname (not_found_of_invalid hvalid)
    | scrapped _ _ hn _ => exact ⟨_, hopen, scrapInode_leavesAlone hinv hn⟩
    | created _ hcreat _ hk hne _ =>
        exact absurd ⟨hvalid, hcreat, strlen_of_tail hne, (exists_not_listed hinv).mpr hk⟩ hnot

/-- The handle that `add_to_open_file_table` returns refers to the i-node it was given. -/
theorem addToOpenFileTable_refers {inumber : Int} {offset : Nat}
    (hadd : addToOpenFileTable fs inumber offset = (r, fs')) (hr : 0 ≤ r) :
    ∃ h, getOpenFileEntry r = some h ∧ (fs'.openFileTable h).ofInumber = inumber := by
  rcases addToOpenFileTable_cases hadd with ⟨rfl, -, -⟩ | ⟨j, rfl, rfl, -⟩
  · exact absurd hr (by decide)
  · exact ⟨j, index?_natCast j, by simp [newHandle]⟩

/-- The entry a creation fills in: the new file has the name of the path, which no file had. -/
theorem newFile_names {n : Fin inodeTableSize} (hn : (n : Nat) = k + 1)
    (hpath : PathArgument name) (hvalid : validPathname name = true) (hun : Unnamed k fs name) :
    Names (newFile fs n k name.tail) name n ∧
      ∀ i < k, entryName (newFile fs n k name.tail).fsData i ≠
        entryName (newFile fs n k name.tail).fsData k := by
  have hself : entryName (newFile fs n k name.tail).fsData k = name.tail.bytes := by
    rw [newFile_fsData, fillEntry_entryName, take_tail hpath (Nat.le_refl 39)]
  have hother : ∀ i < k, entryName (newFile fs n k name.tail).fsData i ≠ name.tail.bytes := by
    intro i hi
    rw [newFile_fsData, (fillEntry_other (Nat.ne_of_lt hi)).2]
    have hne := hun hvalid i hi
    rwa [take_tail hpath (by decide)] at hne
  have hlast : (n : Nat) - 1 = k := by omega
  refine ⟨⟨hvalid, ?_, ?_⟩, ?_⟩
  · rw [take_tail hpath (by decide), hlast]
    exact hself
  · intro i hi
    rw [take_tail hpath (by decide)]
    exact hother i (by omega)
  · intro i hi
    rw [hself]
    exact hother i hi

/-- What an open that creates no invalid path keeps: the names stay distinct, and a handle it
returns refers to the file its path names from then on. -/
theorem validOpen_step (hinv : Inv k fs) (hdist : NamesDistinct fs) (hpath : PathArgument name)
    (hok : ¬ CreatesInvalid fs name flags) (hopen : tfsOpen fs name flags = some (r, fs')) :
    ∃ k', Inv k' fs' ∧ NamesDistinct fs' ∧
      (0 ≤ r → ∃ h, getOpenFileEntry r = some h ∧
        tfsLookup fs' name = (fs'.openFileTable h).ofInumber) := by
  have hold := (namesDistinct_iff hinv).mp hdist
  have hkept : ∀ {fs₁ : FS}, Evolves k fs k fs₁ → NamesDistinct fs₁ := by
    intro fs₁ hev
    rw [namesDistinct_iff hev.inv]
    intro i j hi hj hname
    rw [hev.names i hi, hev.names j hj] at hname
    exact hold i j hi hj hname
  have hstep := tfsOpen_cases hinv hopen
  cases hstep with
  | absent _ _ => exact ⟨k, hinv, hdist, fun hr => absurd hr (by decide)⟩
  | found hn hname htrunc hadd =>
      have hev := htrunc.evolves hinv hn
      have hev' := hev.trans
        (addToOpenFileTable_evolves hev.inv hn (openOffset_le hev.inv hn) hadd)
      refine ⟨k, hev'.inv, hkept hev', ?_⟩
      intro hr
      rcases addToOpenFileTable_refers hadd hr with ⟨h, hh, hnum⟩
      refine ⟨h, hh, ?_⟩
      rw [hnum, tfsLookup_of_names hev'.inv hn (hev'.names_mono hn hname)]
  | scrapped _ _ hn _ =>
      have hev : Evolves k fs k (scrapInode fs _) :=
        ⟨Nat.le_refl k, scrapInode_inv hinv hn, fun _ _ => rfl, fun _ h => h⟩
      exact ⟨k, hev.inv, hkept hev, fun hr => absurd hr (by decide)⟩
  | @created n _ _ hun hcreat hn hk hne hadd =>
      have hvalid : validPathname name = true := by
        by_contra hinvalid
        exact hok ⟨by simpa using hinvalid, hcreat, strlen_of_tail hne,
          (exists_not_listed hinv).mpr hk⟩
      have hfile : IsFile (k + 1) n := ⟨by omega, by omega⟩
      have hev : Evolves k fs (k + 1) (newFile fs n k name.tail) := newFile_evolves hinv hn hk
      have hev' := addToOpenFileTable_evolves hev.inv hfile (Nat.zero_le _) hadd
      rcases newFile_names hn hpath hvalid hun with ⟨hnames, hfresh⟩
      refine ⟨k + 1, hev'.inv, ?_, ?_⟩
      · rw [namesDistinct_iff hev'.inv]
        intro i j hi hj hname
        rw [hev'.names i hi, hev'.names j hj] at hname
        -- the new entry is the last one
        rcases Nat.lt_succ_iff_lt_or_eq.mp hi with hi' | rfl
        · rcases Nat.lt_succ_iff_lt_or_eq.mp hj with hj' | rfl
          · rw [hev.names i hi', hev.names j hj'] at hname
            exact hold i j hi' hj' hname
          · exact absurd hname (hfresh i hi')
        · rcases Nat.lt_succ_iff_lt_or_eq.mp hj with hj' | rfl
          · exact absurd hname.symm (hfresh j hj')
          · rfl
      · intro hr
        rcases addToOpenFileTable_refers hadd hr with ⟨h, hh, hnum⟩
        refine ⟨h, hh, ?_⟩
        rw [hnum, tfsLookup_of_names hev'.inv hfile (hev'.names_mono hfile hnames)]

/-! ## Runs -/

/-- The namespace law in one state. -/
structure NamespaceLaw (fs : FS) : Prop where
  /-- An invalid path is never opened and changes nothing, unless it creates an entry. -/
  invalid : ∀ name flags, PathArgument name → validPathname name = false →
    (NeverOpened fs name flags ↔ ¬ CreatesInvalid fs name flags)
  distinct : NamesDistinct fs
  /-- The path of an open that returns a handle is found at the i-node of the handle. -/
  opened : ∀ name flags r fs', PathArgument name → ¬ CreatesInvalid fs name flags →
    tfsOpen fs name flags = some (r, fs') → 0 ≤ r →
    ∃ h, getOpenFileEntry r = some h ∧ tfsLookup fs' name = (fs'.openFileTable h).ofInumber

variable {tr : Machine.Trace Call Ret}

/-- A run of valid opens keeps the invariant and the names distinct. -/
theorem reach_namesDistinct (h : machine.Reach ValidOpens (tr, fs)) :
    ∃ k, Inv k fs ∧ NamesDistinct fs := by
  apply h.invariant (P := fun _ fs => ∃ k, Inv k fs ∧ NamesDistinct fs)
  · refine ⟨0, init_inv, ?_⟩
    rw [namesDistinct_iff init_inv]
    intro i j hi
    exact absurd hi (Nat.not_lt_zero i)
  · rintro tr fs c ret fs' ⟨k, hinv, hdist⟩ ⟨hopens, hvalid⟩ hexec
    cases c with
    | «open» name flags =>
        rcases Option.map_eq_some_iff.mp hexec with ⟨⟨r, fs₁⟩, hopen, hret⟩
        rcases Prod.mk.inj hret with ⟨rfl, rfl⟩
        rcases validOpen_step hinv hdist hopens (hvalid name flags rfl) hopen with
          ⟨k', hinv', hdist', -⟩
        exact ⟨k', hinv', hdist'⟩
    | lookup _ => exact absurd hopens (by simp [Opens])
    | close _ => exact absurd hopens (by simp [Opens])
    | write _ _ => exact absurd hopens (by simp [Opens])
    | read _ _ => exact absurd hopens (by simp [Opens])

/-- While no open creates an invalid path, the namespace law holds in every state. -/
theorem namespace_law (h : machine.Reach ValidOpens (tr, fs)) : NamespaceLaw fs := by
  rcases reach_namesDistinct h with ⟨k, hinv, hdist⟩
  refine ⟨?_, hdist, ?_⟩
  · intro name flags hpath hinvalid
    exact neverOpened_iff hinv hpath hinvalid
  · intro name flags r fs' hpath hok hopen hr
    rcases validOpen_step hinv hdist hpath hok hopen with ⟨-, -, -, hfound⟩
    exact hfound hr

/-- The path "ab", which does not start with '/'. -/
def pathAb : CString := ⟨[97, 98], by simp⟩

instance (tr : Machine.Trace Call Ret) (fs : FS) (c : Call) : Decidable (Opens tr fs c) :=
  match c with
  | .open name _ => inferInstanceAs (Decidable (PathArgument name))
  | .lookup _ | .close _ | .write _ _ | .read _ _ => isFalse id

/-- The law after creating "/a". -/
theorem namespace_law_create : ∃ fs, (∃ i, Listed fs i) ∧ NamespaceLaw fs := by
  have hrun : ((machine.exec machine.init (.open pathA tfsOCreat)).map fun p =>
      decide (∃ i, Listed p.2 i)) = some true := by decide +kernel
  rcases Option.map_eq_some_iff.mp hrun with ⟨⟨ret, fs⟩, hopen, hlisted⟩
  have hok : ValidOpens [] machine.init (.open pathA tfsOCreat) := by
    constructor
    · decide
    · rintro name flags hc ⟨hinvalid, -⟩
      cases hc
      exact absurd hinvalid (by decide)
  exact ⟨fs, of_decide_eq_true hlisted, namespace_law (Machine.Reach.start.step hok hopen)⟩

/-- "ab" opened twice with `TFS_O_CREAT` is created twice: both opens return a handle, the two
entries have one name, and the path is not found. -/
theorem invalid_created_twice : ∃ tr fs, machine.Reach Opens (tr, fs) ∧
    tr.map (fun p => p.2.value) = [1, 0] ∧ tfsLookup fs pathAb = -1 ∧ ¬ NamesDistinct fs ∧
    ¬ NamespaceLaw fs := by
  have hplay : ((machine.play Opens ([], machine.init) [.open pathAb tfsOCreat,
      .open pathAb tfsOCreat]).map fun cfg => (cfg.1.map fun p => p.2.value,
        tfsLookup cfg.2 pathAb, decide (NamesDistinct cfg.2))) = some ([1, 0], -1, false) := by
    decide +kernel
  rcases Option.map_eq_some_iff.mp hplay with ⟨⟨tr, fs⟩, hrun, heq⟩
  simp only [Prod.mk.injEq, decide_eq_false_iff_not] at heq
  rcases heq with ⟨hvalues, hlookup, hsame⟩
  exact ⟨tr, fs, Machine.Reach.start.play hrun, hvalues, hlookup, hsame,
    fun hlaw => hsame hlaw.distinct⟩

end TecnicoFS.Part2
