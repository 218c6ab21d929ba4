import TecnicoFS.Part1.LockedRuns

/-!
# Part 1: names and i-nodes

`add_dir_entry` stores at most 39 bytes of a name and `find_in_dir` compares up to 40, so a longer
name is stored but never found again. In runs that create files under shorter names only, an entry
stands for one name and for one i-node (`OneEntry`), and an entry in use stays as it is. There a
path that was opened with `TFS_O_CREAT` names its file from then on, and no other path does
(`NamesFile`).
-/

namespace TecnicoFS.Part1

open Threads Threads.Prog
open Part2 (Call Ret validPathname hasFlag tfsOCreat inodeTableSize maxOpenFiles maxFileName
  maxDirEntries blockSize blockAddr rootBlock EntryMatches fillEntry fillEntry_other
  fillEntry_entryName getOpenFileEntry inodeGet)

variable {fs fs' : FS} {n m : Fin inodeTableSize} {name name' : CString} {flags : BitVec 32}
  {r : Int} {c : Call} {i j : Fin maxDirEntries}

/-! ## Paths that name files -/

/-- The i-node a handle refers to. -/
def handleInode (fs : FS) (fhandle : Int) : Option (Fin inodeTableSize) :=
  (getOpenFileEntry fhandle).bind fun h => inodeGet (fs.openFileTable h).ofInumber

/-- No i-node and no entry of the directory is taken. -/
structure NothingCreated (fs fs' : FS) : Prop where
  states : fs'.freeinodeTs = fs.freeinodeTs
  numbers : ∀ i, entryNumber fs' i = entryNumber fs i
  names : ∀ i, entryName fs' i = entryName fs i

/-- The path names the file: it is found and opened under it, whatever the flags, and no other path
is. -/
structure NamesFile (fs : FS) (name : CString) (n : Fin inodeTableSize) : Prop where
  lookup : (tfsLookup name).eval fs = some (((n : Nat) : Int), fs)
  again : ∀ flags r fs', (tfsOpen name flags).eval fs = some (r, fs') →
    NothingCreated fs fs' ∧ (0 ≤ r → handleInode fs' r = some n)
  other : ∀ name' flags r fs', name' ≠ name → (tfsOpen name' flags).eval fs = some (r, fs') →
    0 ≤ r → handleInode fs' r ≠ some n

/-- The name of a file that the call may create is stored as a whole. -/
def CreatesShort : Call → Prop
  | .open name flags => hasFlag flags tfsOCreat = true → validPathname name = true →
      name.strlen ≤ maxFileName
  | _ => True

instance : DecidablePred CreatesShort
  | .open name _ => inferInstanceAs (Decidable (_ → _ → name.strlen ≤ maxFileName))
  | .lookup _ => isTrue trivial
  | .close _ => isTrue trivial
  | .read _ _ => isTrue trivial
  | .write _ _ => isTrue trivial

/-- The calls of runs in which files are created under short names and no write runs into one of
the defects of `tfs_write`. -/
def ShortNames : Machine.Guard FS Call Ret := fun tr fs c =>
  Writes WriteOk tr fs c ∧ CreatesShort c

/-! ## The directory -/

/-- An entry in use stands for one i-node and one name. -/
structure OneEntry (fs : FS) : Prop where
  numbers : ∀ i j, entryNumber fs i ≠ -1 → entryNumber fs i = entryNumber fs j → i = j
  names : ∀ i j, entryNumber fs i ≠ -1 → entryNumber fs j ≠ -1 →
    entryName fs i = entryName fs j → i = j

/-- The names in the entries are shorter than the array they are stored in. -/
def NamesFit (fs : FS) : Prop :=
  ∀ i, entryNumber fs i ≠ -1 → (entryName fs i).length < maxFileName

/-- What a call does to the directory: nothing, or it enters a new file under a name that no
entry has. -/
inductive DirChange (fs fs' : FS) : Prop
  | same : NothingCreated fs fs' → DirChange fs fs'
  | entered (n : Fin inodeTableSize) (i : Fin maxDirEntries) (subName : CString) :
      fs.freeinodeTs n = .free → entryNumber fs i = -1 →
      (∀ j : Fin maxDirEntries, ¬ EntryMatches fs.fsData subName j) →
      subName.strlen < maxFileName →
      (∀ j, entryNumber fs' j = if j = i then ((n : Nat) : Int) else entryNumber fs j) →
      (∀ j, entryName fs' j = if j = i then subName.bytes.take 39 else entryName fs j) →
      DirChange fs fs'

theorem NothingCreated.of_data (hstates : fs'.freeinodeTs = fs.freeinodeTs)
    (hdata : fs'.fsData = fs.fsData) : NothingCreated fs fs' := by
  have hentry := fun i => entry_congr (fun x (_ : x < blockSize) => congrFun hdata x) i
  exact ⟨hstates, fun i => (hentry i).1, fun i => (hentry i).2⟩

theorem enter_entryName {subName : CString} :
    entryName ((fs.newFile n).enter i n subName) j =
      if j = i then subName.bytes.take 39 else entryName fs j := by
  rw [entryName, entryName, enter_fsData]
  by_cases hj : j = i
  · subst hj
    rw [if_pos rfl, fillEntry_entryName]
  · have hne : (j : Nat) ≠ i := fun heq => hj (Fin.ext heq)
    rw [if_neg hj, (fillEntry_other hne).2]

/-- Entries in use stay as they are. -/
theorem DirChange.kept (hd : DirChange fs fs') (hi : entryNumber fs i ≠ -1) :
    entryNumber fs' i = entryNumber fs i ∧ entryName fs' i = entryName fs i := by
  cases hd with
  | same hsame => exact ⟨hsame.numbers i, hsame.names i⟩
  | entered n k subName _ hempty _ _ hnumbers hnames =>
      have hik : i ≠ k := by
        rintro rfl
        exact hi hempty
      rw [hnumbers, hnames, if_neg hik, if_neg hik]
      exact ⟨rfl, rfl⟩

/-- No name is stored beyond its first 39 bytes. -/
theorem NamesFit.entered {subName : CString} (hf : NamesFit fs)
    (hnumbers : ∀ j, entryNumber fs' j = if j = i then ((n : Nat) : Int) else entryNumber fs j)
    (hnames : ∀ j, entryName fs' j = if j = i then subName.bytes.take 39 else entryName fs j) :
    NamesFit fs' := by
  intro j hj
  rw [hnames]
  split
  · rw [List.length_take]
    simp only [maxFileName]
    omega
  · next hji =>
      rw [hnumbers, if_neg hji] at hj
      exact hf j hj

theorem NothingCreated.namesFit (hf : NamesFit fs) (hsame : NothingCreated fs fs') :
    NamesFit fs' := by
  intro j hj
  rw [hsame.numbers] at hj
  rw [hsame.names]
  exact hf j hj

theorem DirChange.namesFit (hf : NamesFit fs) (hd : DirChange fs fs') : NamesFit fs' := by
  cases hd with
  | same hsame => exact hsame.namesFit hf
  | entered n i subName _ _ _ _ hnumbers hnames => exact hf.entered hnumbers hnames

/-- The number of a new file is in no entry, and neither is its name. -/
theorem DirChange.oneEntry (hc : Consistent fs) (ho : OneEntry fs) (hd : DirChange fs fs') :
    OneEntry fs' := by
  cases hd with
  | same hsame =>
      constructor
      · intro i j hi heq
        rw [hsame.numbers] at hi heq
        rw [hsame.numbers] at heq
        exact ho.numbers i j hi heq
      · intro i j hi hj heq
        rw [hsame.numbers] at hi hj
        rw [hsame.names, hsame.names] at heq
        exact ho.names i j hi hj heq
  | entered n k subName hfree hempty hnew hshort hnumbers hnames =>
      -- the i-node was free, so no entry has its number
      have hnumber : ∀ j, entryNumber fs j ≠ ((n : Nat) : Int) := by
        intro j hj
        rcases hc.entries j (by omega) with ⟨n', hn', hfile⟩
        have heq : n' = n := Fin.ext (by omega)
        rw [heq, IsFile, hfree] at hfile
        cases hfile.1
      have hname : ∀ j, entryNumber fs j ≠ -1 → entryName fs j ≠ subName.bytes.take 39 := by
        intro j hj heq
        refine hnew j ⟨hj, heq.trans ?_⟩
        have hlen : subName.bytes.length < 40 := hshort
        rw [List.take_of_length_le (by omega), List.take_of_length_le hlen.le]
      constructor
      · intro i j hi heq
        rw [hnumbers] at hi heq
        rw [hnumbers] at heq
        by_cases hik : i = k <;> by_cases hjk : j = k
        · rw [hik, hjk]
        · rw [if_pos hik, if_neg hjk] at heq
          exact absurd heq.symm (hnumber j)
        · rw [if_neg hik, if_pos hjk] at heq
          exact absurd heq (hnumber i)
        · rw [if_neg hik] at hi heq
          rw [if_neg hjk] at heq
          exact ho.numbers i j hi heq
      · intro i j hi hj heq
        rw [hnumbers] at hi hj
        rw [hnames, hnames] at heq
        by_cases hik : i = k <;> by_cases hjk : j = k
        · rw [hik, hjk]
        · rw [if_neg hjk] at hj
          rw [if_pos hik, if_neg hjk] at heq
          exact absurd heq.symm (hname j hj)
        · rw [if_neg hik] at hi
          rw [if_neg hik, if_pos hjk] at heq
          exact absurd heq (hname i hi)
        · rw [if_neg hik] at hi heq
          rw [if_neg hjk] at hj heq
          exact ho.names i j hi hj heq

/-! ## One call of `tfs_open` -/

/-- What `tfs_open` does to the names: nothing is created and the handle is one of a file with
the name, or the file is created. -/
inductive NameStep (fs : FS) (name : CString) (flags : BitVec 32) (r : Int) (fs' : FS) : Prop
  | failed : r = -1 → NothingCreated fs fs' → NameStep fs name flags r fs'
  | found (n : Fin inodeTableSize) (i : Fin maxDirEntries) : validPathname name = true →
      EntryMatches fs.fsData name.tail i → entryNumber fs i = ((n : Nat) : Int) →
      NothingCreated fs fs' → (0 ≤ r → handleInode fs' r = some n) → NameStep fs name flags r fs'
  | created (n : Fin inodeTableSize) (i : Fin maxDirEntries) : validPathname name = true →
      hasFlag flags tfsOCreat = true → fs.freeinodeTs n = .free → entryNumber fs i = -1 →
      (∀ j : Fin maxDirEntries, ¬ EntryMatches fs.fsData name.tail j) →
      fs'.freeinodeTs = Function.update fs.freeinodeTs n .taken →
      (∀ j, entryNumber fs' j = if j = i then ((n : Nat) : Int) else entryNumber fs j) →
      (∀ j, entryName fs' j = if j = i then name.tail.bytes.take 39 else entryName fs j) →
      (0 ≤ r → handleInode fs' r = some n) → NameStep fs name flags r fs'

theorem Given.handle_inode {offset : Nat} (hg : Given fs ((n : Nat) : Int) offset r fs')
    (hr : 0 ≤ r) : handleInode fs' r = some n := by
  cases hg with
  | full _ => exact absurd hr (by decide)
  | handle h _ =>
      rw [handleInode, getOpenFileEntry, index?_natCast, Option.bind_some]
      simp [FS.give, inodeGet]

theorem Given.nothingCreated {inumber : Int} {offset : Nat} (hg : Given fs inumber offset r fs') :
    NothingCreated fs fs' := by
  cases hg with
  | full _ => exact .of_data rfl rfl
  | handle h _ => exact .of_data rfl rfl

theorem NothingCreated.trans {fs'' : FS} (h : NothingCreated fs fs')
    (h' : NothingCreated fs' fs'') : NothingCreated fs fs'' :=
  ⟨h'.states.trans h.states, fun i => (h'.numbers i).trans (h.numbers i),
    fun i => (h'.names i).trans (h.names i)⟩

theorem Emptied.nothingCreated (he : Emptied n fs fs') : NothingCreated fs fs' := by
  rw [he.eq]
  exact .of_data rfl rfl

theorem Creates.nothingCreated (hcreates : Creates fs none fs') : NothingCreated fs fs' := by
  cases hcreates with
  | full => exact .of_data rfl rfl
  | undone n hfree => exact .of_data (newFile_states hfree) rfl

theorem tfsOpen_names (hc : Consistent fs) (heval : (tfsOpen name flags).eval fs = some (r, fs')) :
    NameStep fs name flags r fs' := by
  rcases tfsOpen_split hc heval with ⟨rfl, rfl⟩ | ⟨hvalid, o, fs₁, hopened, hend⟩
  · exact .failed rfl (.of_data rfl rfl)
  · rcases tfsLookup_named hc hvalid with ⟨inum, hlookup, hfound⟩
    cases hopened with
    | «opens» hpos hlookup' hexisting =>
        rw [hlookup'] at hlookup
        cases hlookup
        rcases hfound with ⟨rfl, -⟩ | ⟨i, hmatch, rfl⟩
        · exact absurd hpos (by decide)
        · rcases hc.entries i hmatch.1 with ⟨n, hn, hfile⟩
          rw [hn] at hexisting
          rcases openExisting_opensFile hc hfile hexisting with ⟨offset, rfl, hopens⟩
          have hsame : NothingCreated fs fs₁ := by
            cases hopens with
            | kept _ => exact .of_data rfl rfl
            | emptied _ _ _ hemptied => exact hemptied.nothingCreated
          exact .found n i hvalid hmatch hn (hsame.trans hend.nothingCreated) hend.handle_inode
    | creates hcreat hlookup' hcreated =>
        rw [hlookup'] at hlookup
        cases hlookup
        rcases hfound with ⟨-, hnone⟩ | ⟨i, hmatch, hi⟩
        · rcases openCreated_named hc name with ⟨o', fs₂, hcreated', hcreates⟩
          rw [hcreated] at hcreated'
          cases hcreated'
          cases hcreates with
          | failed hfailed =>
              rcases hend with ⟨rfl, rfl⟩
              exact .failed rfl hfailed.nothingCreated
          | created n i hfree hempty =>
              have hgiven := hend.nothingCreated
              refine .created n i hvalid hcreat hfree hempty hnone hgiven.states (fun j => ?_)
                (fun j => ?_) hend.handle_inode
              · rw [hgiven.numbers, enter_entryNumber]
              · rw [hgiven.names, enter_entryName]
        · exact absurd hi.symm hmatch.1

/-! ## Runs -/

/-- A valid path that is stored as a whole. -/
def PathFits (name : CString) : Prop := validPathname name = true ∧ name.strlen ≤ maxFileName

theorem tail_strlen (name : CString) : name.tail.strlen = name.strlen - 1 := by
  simp [CString.strlen, CString.tail]

theorem NameStep.dirChange (hs : NameStep fs name flags r fs')
    (hshort : CreatesShort (.open name flags)) : DirChange fs fs' := by
  cases hs with
  | failed _ hsame => exact .same hsame
  | found n i _ _ _ hsame _ => exact .same hsame
  | created n i hvalid hcreat hfree hempty hnew _ hnumbers hnames _ =>
      have hlen : name.tail.strlen < maxFileName := by
        have hle := hshort hcreat hvalid
        rw [tail_strlen]
        simp only [maxFileName] at hle ⊢
        omega
      exact .entered n i name.tail hfree hempty hnew hlen hnumbers hnames

/-- A call other than `tfs_open` leaves the directory alone. -/
theorem exec_nothingCreated {tr : Machine.Trace Call Ret} {r : Ret} (hc : Consistent fs)
    (hguard : Writes WriteOk tr fs c) (hcall : ∀ name flags, c ≠ .open name flags)
    (hexec : machine.exec fs c = some (r, fs')) : NothingCreated fs fs' := by
  rcases exec_without_open hc hguard hcall hexec with
    ⟨hsame, -⟩ | ⟨h, n, buffer, r', hn, hfile, hok, heval⟩
  · exact .of_data hsame.states hsame.data
  · rcases hok.eval hc hn hfile rfl with ⟨count, fs₁, heval', hended, hspill, -⟩
    rw [heval] at heval'
    cases heval'
    have hbytes : ∀ x < blockSize, fs'.fsData x = fs.fsData x :=
      fun x => hended.wrote.root_bytes hc hfile hspill
    have hentry := fun i => entry_congr hbytes i
    exact ⟨hended.wrote.rest.states, fun i => (hentry i).1, fun i => (hentry i).2⟩

/-- What a call of a run with short names does to the directory. -/
theorem exec_dirChange {tr : Machine.Trace Call Ret} {r : Ret} (hc : Consistent fs)
    (hguard : ShortNames tr fs c) (hexec : machine.exec fs c = some (r, fs')) :
    DirChange fs fs' := by
  rcases open_or_other c with ⟨name, flags, rfl⟩ | hother
  · exact (tfsOpen_names hc (exec_open hexec)).dirChange hguard.2
  · exact .same (exec_nothingCreated hc hguard.1 hother hexec)

theorem ShortNames.reach_consistent {tr : Machine.Trace Call Ret}
    (hreach : machine.Reach ShortNames (tr, fs)) : Consistent fs :=
  Reach.consistent (hreach.mono fun _ _ _ h => h.1) fun _ _ _ _ => id

/-- Entries stand for one name and one i-node in every state of such a run. -/
theorem ShortNames.oneEntry {tr : Machine.Trace Call Ret}
    (hreach : machine.Reach ShortNames (tr, fs)) : OneEntry fs ∧ NamesFit fs := by
  refine (hreach.invariant (P := fun _ fs => Consistent fs ∧ OneEntry fs ∧ NamesFit fs) ?_ ?_).2
  · rw [machine_init]
    refine ⟨initialFS_consistent, ⟨?_, ?_⟩, ?_⟩
    · exact fun i _ hi => absurd (entryNumber_initial i) hi
    · exact fun i _ hi => absurd (entryNumber_initial i) hi
    · exact fun i hi => absurd (entryNumber_initial i) hi
  · rintro tr fs c r fs' ⟨hc, ho, hf⟩ hguard hexec
    have hd := exec_dirChange hc hguard hexec
    refine ⟨?_, hd.oneEntry hc ho, hd.namesFit hf⟩
    exact (exec_changes hc hguard.1 hexec).consistent hc fun _ _ _ _ => id

/-- The entry that holds the path and the number of the file. -/
def Enters (fs : FS) (name : CString) (n : Fin inodeTableSize) : Prop :=
  ∃ i : Fin maxDirEntries, EntryMatches fs.fsData name.tail i ∧ entryNumber fs i = ((n : Nat) : Int)

theorem Enters.kept (he : Enters fs name n) (hd : DirChange fs fs') : Enters fs' name n := by
  rcases he with ⟨i, hmatch, hi⟩
  rcases hd.kept hmatch.1 with ⟨hnumber, hname⟩
  refine ⟨i, ⟨?_, hname.trans hmatch.2⟩, hnumber.trans hi⟩
  change entryNumber fs' i ≠ -1
  rw [hnumber]
  exact hmatch.1

/-- A path that is opened is entered. -/
theorem NameStep.enters (hs : NameStep fs name flags r fs') (hshort : PathFits name)
    (hr : 0 ≤ r) : ∃ n, handleInode fs' r = some n ∧ Enters fs' name n := by
  cases hs with
  | failed hneg _ => omega
  | found n i _ hmatch hi hsame hinode =>
      exact ⟨n, hinode hr, Enters.kept ⟨i, hmatch, hi⟩ (.same hsame)⟩
  | created n i _ _ _ _ _ _ hnumbers hnames hinode =>
      have hlen : name.tail.bytes.length ≤ 39 := by
        have hle := hshort.2
        simp only [maxFileName] at hle
        have htail := tail_strlen name
        simp only [CString.strlen] at hle htail
        omega
      refine ⟨n, hinode hr, i, ⟨?_, ?_⟩, by rw [hnumbers, if_pos rfl]⟩
      · change entryNumber fs' i ≠ -1
        rw [hnumbers, if_pos rfl]
        omega
      · change entryName fs' i = name.tail.bytes.take 40
        rw [hnames, if_pos rfl, List.take_of_length_le hlen, List.take_of_length_le (by omega)]

theorem bytes_of_valid (hvalid : validPathname name = true) :
    name.bytes = '/'.toUInt8 :: name.tail.bytes := by
  simp only [validPathname, Bool.and_eq_true, beq_iff_eq] at hvalid
  rw [CString.tail]
  exact (List.cons_head?_tail hvalid.2).symm

/-- Two paths with the same stored name are the same, if one of them is short. -/
theorem eq_of_entryMatches (hshort : PathFits name) (hvalid : validPathname name' = true)
    (hmatch : EntryMatches fs.fsData name.tail i) (hmatch' : EntryMatches fs.fsData name'.tail i) :
    name' = name := by
  have htake : name'.tail.bytes.take 40 = name.tail.bytes.take 40 := hmatch'.2.symm.trans hmatch.2
  have hlen := tail_strlen name
  have hle := hshort.2
  simp only [maxFileName, CString.strlen] at hle hlen
  have hlen' : name'.tail.bytes.length ≤ 39 := by
    have htakelen := congrArg List.length htake
    rw [List.length_take, List.length_take] at htakelen
    omega
  rw [List.take_of_length_le (by omega), List.take_of_length_le (by omega)] at htake
  refine CString.ext ?_
  rw [bytes_of_valid hvalid, bytes_of_valid hshort.1, htake]

/-- What an entered path names, as long as entries stand for one name and one i-node. -/
theorem Enters.namesFile (hc : Consistent fs) (ho : OneEntry fs) (hshort : PathFits name)
    (he : Enters fs name n) : NamesFile fs name n := by
  rcases he with ⟨i, hmatch, hi⟩
  -- every entry with the name is this one
  have honly : ∀ j : Fin maxDirEntries, EntryMatches fs.fsData name.tail j → j = i :=
    fun j hj => ho.names j i hj.1 hmatch.1 (hj.2.trans hmatch.2.symm)
  constructor
  · rcases tfsLookup_named hc hshort.1 with ⟨inum, hlookup, ⟨-, hnone⟩ | ⟨j, hj, rfl⟩⟩
    · exact absurd hmatch (hnone i)
    · rw [hlookup, honly j hj, hi]
  · intro flags r fs' heval
    cases tfsOpen_names hc heval with
    | failed hneg hsame => exact ⟨hsame, fun hr => by omega⟩
    | found n' j _ hj hn' hsame hinode =>
        have heq : n' = n := by
          rw [honly j hj, hi] at hn'
          exact Fin.ext (by omega)
        exact ⟨hsame, heq ▸ hinode⟩
    | created n' j _ _ _ _ hnone => exact absurd hmatch (hnone i)
  · intro name' flags r fs' hne heval hr
    cases tfsOpen_names hc heval with
    | failed hneg _ => omega
    | found n' j hvalid hj hn' _ hinode =>
        rw [hinode hr]
        rintro heq
        cases heq
        have hji : j = i := ho.numbers j i hj.1 (hn'.trans hi.symm)
        exact hne (eq_of_entryMatches hshort hvalid hmatch (hji ▸ hj))
    | created n' j _ _ hfree _ _ _ _ _ hinode =>
        rw [hinode hr]
        rintro heq
        cases heq
        rcases hc.entries i hmatch.1 with ⟨k, hk, hfile⟩
        have hkn : k = n := Fin.ext (by omega)
        rw [hkn, IsFile, hfree] at hfile
        cases hfile.1

/-- A path that is longer is never found. -/
theorem NamesFit.not_enters (hf : NamesFit fs) (hlong : maxFileName < name.strlen) :
    ∀ i : Fin maxDirEntries, ¬ EntryMatches fs.fsData name.tail i := by
  intro i hmatch
  have hlen := hf i hmatch.1
  have hname : entryName fs i = name.tail.bytes.take maxFileName := hmatch.2
  have htail := tail_strlen name
  simp only [CString.strlen, maxFileName] at hlong htail hlen hname
  rw [hname, List.length_take] at hlen
  omega

theorem NameStep.namesFit (hf : NamesFit fs) (hs : NameStep fs name flags r fs') : NamesFit fs' := by
  cases hs with
  | failed _ hsame => exact hsame.namesFit hf
  | found n i _ _ _ hsame _ => exact hsame.namesFit hf
  | created n i _ _ _ _ _ _ hnumbers hnames _ => exact hf.entered hnumbers hnames

/-- In a run that creates files under short names and writes something in each write, a path that
is opened names its file from then on, and no other path does, if and only if the path is short,
too; and no lock is left. -/
theorem created_path_named_iff {tr : Machine.Trace Call Ret} {r : Ret}
    {held held' : List (Lock × Mode)}
    (hreach : lockMachine.Reach (Returning ShortNames) (tr, fs, held))
    (hvalid : validPathname name = true)
    (hopen : lockMachine.exec (fs, held) (.open name flags) = some (r, fs', held'))
    (hr : 0 ≤ r.value) :
    (∃ n, handleInode fs' r.value = some n ∧ ∀ tr'' fs'' held'',
      lockMachine.Later (Returning ShortNames) ((.open name flags, r) :: tr, fs', held')
        (tr'', fs'', held'') → held'' = [] ∧ NamesFile fs'' name n) ↔
      name.strlen ≤ maxFileName := by
  rcases Reach.unlocked hreach with ⟨rfl, hrun⟩
  rcases lockMachine_exec (NonEmptyWrite.returns (c := .open name flags) trivial _) hopen with
    ⟨rfl, hexec⟩
  have hc := ShortNames.reach_consistent hrun
  rcases ShortNames.oneEntry hrun with ⟨ho, hf⟩
  have hstep := tfsOpen_names hc (exec_open hexec)
  constructor
  · rintro ⟨n, -, hlater⟩
    by_contra hlong
    rw [not_le] at hlong
    have hlookup := (hlater _ _ _ Relation.ReflTransGen.refl).2.lookup
    have hc' := tfsOpen_consistent hc (exec_open hexec)
    rcases tfsLookup_named hc' hvalid with ⟨inum, hlookup', ⟨rfl, -⟩ | ⟨i, hmatch, -⟩⟩
    · rw [hlookup'] at hlookup
      cases hlookup
    · exact (hstep.namesFit hf).not_enters hlong i hmatch
  · intro hle
    have hshort : PathFits name := ⟨hvalid, hle⟩
    rcases hstep.enters hshort hr with ⟨n, hinode, henters⟩
    refine ⟨n, hinode, fun tr'' fs'' held'' hlater => ?_⟩
    rcases Later.unlocked hlater with ⟨hheld, hlater⟩
    refine ⟨hheld, ?_⟩
    have hreach' : machine.Reach ShortNames ((.open name flags, r) :: tr, fs') :=
      hrun.step ⟨trivial, fun _ _ => hle⟩ hexec
    have hkept : Consistent fs'' ∧ Enters fs'' name n := by
      refine hlater.invariant (P := fun _ fs => Consistent fs ∧ Enters fs name n)
        ⟨ShortNames.reach_consistent hreach', henters⟩ ?_
      rintro tr fs c r fs' ⟨hc, he⟩ hguard hcall
      refine ⟨?_, he.kept (exec_dirChange hc hguard hcall)⟩
      exact (exec_changes hc hguard.1 hcall).consistent hc fun _ _ _ _ => id
    exact hkept.2.namesFile hkept.1 (ShortNames.oneEntry (hreach'.later hlater)).1 hshort

/-- The path of the second of two files, the first of which has been written to. -/
theorem created_path_named_b : ∃ tr fs r fs' n,
    lockMachine.Reach (Returning ShortNames) (tr, fs, []) ∧
    lockMachine.exec (fs, []) (.open pathB 1) = some (r, fs', []) ∧
    handleInode fs' r.value = some n ∧ ∀ tr'' fs'' held'',
      lockMachine.Later (Returning ShortNames) ((.open pathB 1, r) :: tr, fs', [])
        (tr'', fs'', held'') → held'' = [] ∧ NamesFile fs'' pathB n := by
  have hplay : (lockMachine.play
      (fun tr s c => (Writes DirectOk tr s.1 c ∧ CreatesShort c) ∧ NonEmptyWrite c)
      ([], initialFS, []) [.open pathA 1, .write 0 [1, 2, 3]]).bind
      (fun cfg : Machine.Trace Call Ret × Left =>
        (lockMachine.exec cfg.2 (.open pathB 1)).map fun out => decide (
          0 ≤ out.1.value ∧ cfg.2.2 = [] ∧ out.2.2 = [])) = some true := by
    decide +kernel
  rcases Option.bind_eq_some_iff.mp hplay with ⟨⟨tr, fs, held⟩, hplay, hexec⟩
  rcases Option.map_eq_some_iff.mp hexec with ⟨⟨r, fs', held'⟩, hopen, hfacts⟩
  rcases of_decide_eq_true hfacts with ⟨hr, hheld, hheld'⟩
  cases hheld
  cases hheld'
  have hstart : lockMachine.Reach
      (fun tr s c => (Writes DirectOk tr s.1 c ∧ CreatesShort c) ∧ NonEmptyWrite c)
      ([], initialFS, []) := by
    rw [← machine_init]
    exact Machine.Reach.start
  have hreach : lockMachine.Reach (Returning ShortNames) (tr, fs, []) :=
    (hstart.play hplay).mono fun _ _ _ hw =>
      ⟨⟨hw.1.1.mono fun _ _ _ _ hd => hd.writeOk, hw.1.2⟩, hw.2.returns _⟩
  rcases (created_path_named_iff hreach (by decide) hopen hr).mpr (by decide) with
    ⟨n, hinode, hlater⟩
  exact ⟨tr, fs, r, fs', n, hreach, hopen, hinode, hlater⟩

/-- `/` and forty letters. -/
def longPath : CString := ⟨47 :: List.replicate 40 97, by decide +kernel⟩

/-- A name of forty bytes is stored without its last one and is not found again. -/
theorem long_path_not_found : ¬ ∀ tr fs name flags r fs', machine.Reach (Writes WriteOk) (tr, fs) →
    validPathname name = true → hasFlag flags tfsOCreat = true →
    machine.exec fs (.open name flags) = some (r, fs') → 0 ≤ r.value →
      ∃ n, handleInode fs' r.value = some n ∧
        (tfsLookup name).eval fs' = some (((n : Nat) : Int), fs') := by
  intro hevery
  have hrun : (machine.exec initialFS (.open longPath 1)).map
      (fun out : Ret × FS => decide (0 ≤ out.1.value ∧
        ((tfsLookup longPath).eval out.2).map Prod.fst = some (-1))) = some true := by
    decide +kernel
  rcases Option.map_eq_some_iff.mp hrun with ⟨⟨r, fs⟩, hopen, hfacts⟩
  rcases of_decide_eq_true hfacts with ⟨hr, hlookup⟩
  rw [← machine_init] at hopen
  rcases hevery [] machine.init longPath 1 r fs Machine.Reach.start (by decide) (by decide) hopen hr
    with ⟨n, -, hfound⟩
  rw [hfound, Option.map_some, Option.some_inj] at hlookup
  omega

end TecnicoFS.Part1
