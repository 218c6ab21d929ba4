import TecnicoFS.Part2.Steps

/-!
# Part 2: runs

The invariant holds after `tfs_init` and every call that returns keeps it, as
long as reads and writes go through handles that were handed out. `Evolves`
says what else a call keeps: the files keep their number and their name, and a
handle that was handed out stays one. From it come the facts about whole runs.
-/

namespace TecnicoFS.Part2

variable {k k' : Nat} {fs fs' : FS} {name : CString} {r : Int}

/-! ## The initial state -/

/-- `tfs_init` on any state: the root directory takes i-node 0 and block 0. -/
theorem tfsInit_eq (fs : FS) :
    tfsInit fs = (0, { stateInit fs with
      freeinodeTs := Function.update (fun _ => .free) 0 .taken
      inodeTable := Function.update fs.inodeTable 0 rootInode
      freeBlocks := Function.update (fun _ => .free) rootBlock .taken
      fsData := clearEntries fs.fsData rootBlock maxDirEntries }) := by
  have hinode : (firstFit fun n => (stateInit fs).freeinodeTs n = .free) = some 0 :=
    firstFit_eq_some.mpr ⟨rfl, fun j hj => absurd hj (Nat.not_lt_zero j)⟩
  have hblock : (firstFit fun b => (stateInit fs).freeBlocks b = .free) = some rootBlock :=
    firstFit_eq_some.mpr ⟨rfl, fun j hj => absurd hj (Nat.not_lt_zero j)⟩
  have hget : dataBlockGet ((rootBlock : Nat) : Int) = some rootBlock := index?_natCast rootBlock
  have hnum : ¬ ((rootBlock : Nat) : Int) = -1 := by omega
  unfold tfsInit inodeCreate dataBlockAlloc
  rw [hinode]
  simp only [hblock, hnum, hget, Function.update_idem, ↓reduceIte]
  rfl

/-- The state after `tfs_init`. -/
def initState : FS :=
  { boot with
    freeinodeTs := Function.update (fun _ => .free) 0 .taken
    inodeTable := Function.update boot.inodeTable 0 rootInode
    freeBlocks := Function.update (fun _ => .free) rootBlock .taken
    fsData := clearEntries boot.fsData rootBlock maxDirEntries }

theorem machine_init : machine.init = initState := by
  unfold machine
  simp only [tfsInit_eq]
  rfl

/-- After `tfs_init` there is no file, whatever the i-nodes and the blocks held
before. -/
theorem tfsInit_inv (hhandles : ∀ h, fs.openFileTable h = ⟨0, 0⟩) : Inv 0 (tfsInit fs).2 := by
  have htaken : ∀ n, (tfsInit fs).2.freeinodeTs n = .taken ↔ n = 0 := by
    intro n
    rw [tfsInit_eq]
    by_cases hn : n = 0
    · simp [hn]
    · simp [hn]
  have hself : (tfsInit fs).2.inodeTable 0 = rootInode := by
    rw [tfsInit_eq]
    simp
  -- `tfs_init` gives the root directory the first block, and nothing else is taken
  have hown : ∀ n, ownBlock (tfsInit fs).2 n = if n = 0 then some rootBlock else none := by
    intro n
    by_cases hn : n = 0
    · rw [if_pos hn, hn, ownBlock_eq_some, hself]
      exact ⟨(htaken 0).mpr rfl, by decide, rfl⟩
    · rw [if_neg hn]
      have hfree : ¬ (tfsInit fs).2.freeinodeTs n = .taken := fun h => hn ((htaken n).mp h)
      unfold ownBlock
      rw [if_neg fun h => hfree h.1]
  have hfree : ∀ b, (tfsInit fs).2.freeBlocks b = .taken ↔ b = rootBlock := by
    intro b
    rw [tfsInit_eq]
    by_cases hb : b = rootBlock
    · simp [hb]
    · simp [hb]
  refine
    { files_le := Nat.zero_le _
      root := hself
      inodes := ?_
      files := ?_
      entries := ?_
      blocks := ?_
      exclusive := ⟨?_, ?_⟩
      handles := ?_
      flag := by rw [tfsInit_eq]; rfl }
  · intro n
    rw [htaken, Nat.le_zero, Fin.ext_iff]
    rfl
  · intro n hn
    exact absurd hn.2 (by have := hn.1; omega)
  · intro i hi
    have hdata : (tfsInit fs).2.fsData = clearEntries fs.fsData rootBlock maxDirEntries := by
      rw [tfsInit_eq]
    rw [if_neg (Nat.not_lt_zero i), hdata, dInumber_clearEntries hi]
  · intro n ht _
    refine ⟨rootBlock, ?_⟩
    rw [hown, if_pos ((htaken n).mp ht)]
  · intro b
    rw [hfree]
    constructor
    · rintro rfl
      exact ⟨0, by rw [hown, if_pos rfl]⟩
    · rintro ⟨n, hn⟩
      rw [hown] at hn
      split at hn
      · exact (Option.some.inj hn).symm
      · cases hn
  · intro m n b hm hn
    rw [hown] at hm hn
    split at hm <;> split at hn
    · simp_all
    · cases hn
    · cases hm
    · cases hm
  · intro h
    left
    rw [tfsInit_eq]
    exact ⟨hhandles h, rfl⟩

theorem init_inv : Inv 0 machine.init := by
  have hinv : Inv 0 (tfsInit boot).2 := tfsInit_inv fun _ => by rfl
  unfold machine
  simpa only using hinv

/-! ## What a call keeps -/

/-- From `k` files to `k'`: the invariant holds again, the files keep their
names, and a handle handed out stays one. -/
structure Evolves (k : Nat) (fs : FS) (k' : Nat) (fs' : FS) : Prop where
  le : k ≤ k'
  inv : Inv k' fs'
  names : ∀ i < k, entryName fs'.fsData i = entryName fs.fsData i
  issued : ∀ h, (fs.openFileTable h).ofInumber ≠ 0 → (fs'.openFileTable h).ofInumber ≠ 0

namespace Evolves

theorem refl (hinv : Inv k fs) : Evolves k fs k fs :=
  ⟨Nat.le_refl k, hinv, fun _ _ => rfl, fun _ h => h⟩

theorem trans {k'' : Nat} {fs'' : FS} (h : Evolves k fs k' fs')
    (h' : Evolves k' fs' k'' fs'') : Evolves k fs k'' fs'' where
  le := h.le.trans h'.le
  inv := h'.inv
  names := fun i hi => (h'.names i (hi.trans_le h.le)).trans (h.names i hi)
  issued := fun j hj => h'.issued j (h.issued j hj)

/-- A handle that was issued stays issued. -/
theorem issued_mono (h : Evolves k fs k' fs') {fhandle : Int} (hiss : Issued fs fhandle) :
    Issued fs' fhandle :=
  fun j hj => h.issued j (hiss j hj)

/-- A path keeps naming the same file. -/
theorem names_mono (h : Evolves k fs k' fs') {n : Fin inodeTableSize} (hn : IsFile k n)
    (hname : Names fs name n) : Names fs' name n := by
  rcases hn with ⟨hpos, hle⟩
  rcases hname with ⟨hvalid, hself, hfirst⟩
  refine ⟨hvalid, ?_, ?_⟩
  · rw [h.names _ (by omega)]
    exact hself
  · intro i hi
    rw [h.names i (by omega)]
    exact hfirst i hi

/-- A lookup that succeeded keeps its answer. -/
theorem lookup_stable (hinv : Inv k fs) (h : Evolves k fs k' fs')
    (hfound : 0 ≤ tfsLookup fs name) : tfsLookup fs' name = tfsLookup fs name := by
  rcases tfsLookup_nonneg hinv hfound with ⟨n, hn, hname, heq⟩
  rw [heq]
  exact tfsLookup_of_names h.inv ⟨hn.1, hn.2.trans h.le⟩ (h.names_mono hn hname)

end Evolves

theorem Truncation.evolves {n : Fin inodeTableSize} {flags : BitVec 32} (hinv : Inv k fs)
    (hn : IsFile k n) (h : Truncation fs n flags fs') : Evolves k fs k fs' := by
  cases h with
  | kept _ => exact .refl hinv
  | dropped _ hb =>
      exact ⟨Nat.le_refl k, dropBlock_inv hinv hn hb, fun _ _ => rfl, fun _ h => h⟩

theorem newHandle_evolves {n : Fin inodeTableSize} {h : Fin maxOpenFiles} {offset : Nat}
    (hinv : Inv k fs) (hn : IsFile k n) (hoff : offset ≤ blockSize) :
    Evolves k fs k (newHandle fs h (n : Nat) offset) where
  le := Nat.le_refl k
  inv := newHandle_inv hinv hn (hoff.trans blockSize_le)
  names := fun _ _ => rfl
  issued := by
    intro j hj
    by_cases hjh : j = h
    · have hpos := hn.1
      simp only [newHandle, hjh, Function.update_self, ne_eq]
      omega
    · simpa [newHandle, hjh] using hj

theorem addToOpenFileTable_evolves {n : Fin inodeTableSize} {offset : Nat}
    (hinv : Inv k fs) (hn : IsFile k n) (hoff : offset ≤ blockSize)
    (h : addToOpenFileTable fs (n : Nat) offset = (r, fs')) : Evolves k fs k fs' := by
  rcases addToOpenFileTable_cases h with ⟨-, rfl, -⟩ | ⟨j, -, rfl, -⟩
  · exact .refl hinv
  · exact newHandle_evolves hinv hn hoff

/-- A handle that `add_to_open_file_table` returns is issued. -/
theorem addToOpenFileTable_issued {n : Fin inodeTableSize} {offset : Nat} (hpos : 0 < (n : Nat))
    (h : addToOpenFileTable fs (n : Nat) offset = (r, fs')) (hr : 0 ≤ r) : Issued fs' r := by
  rcases addToOpenFileTable_cases h with ⟨rfl, -, -⟩ | ⟨j, rfl, rfl, -⟩
  · exact absurd hr (by omega)
  · intro i hi
    have hij : j = i := Option.some.inj ((index?_natCast j).symm.trans hi)
    simp only [newHandle, ← hij, Function.update_self, ne_eq]
    omega

theorem newFile_evolves {n : Fin inodeTableSize} (hinv : Inv k fs) (hn : (n : Nat) = k + 1)
    (hk : k < maxDirEntries) : Evolves k fs (k + 1) (newFile fs n k name) where
  le := Nat.le_succ k
  inv := newFile_inv hinv hn hk
  names := by
    intro i hi
    rw [newFile_fsData, (fillEntry_other (Nat.ne_of_lt hi)).2]
  issued := fun _ h => h

theorem openOffset_le {n : Fin inodeTableSize} {flags : BitVec 32} (hinv : Inv k fs)
    (hn : IsFile k n) : openOffset fs n flags ≤ blockSize := by
  unfold openOffset
  split
  · exact (hinv.files n hn).2
  · exact Nat.zero_le _

theorem OpenStep.evolves {flags : BitVec 32} (hinv : Inv k fs)
    (h : OpenStep k fs name flags r fs') :
    ∃ k', Evolves k fs k' fs' ∧ (0 ≤ r → Issued fs' r) := by
  cases h with
  | absent _ _ => exact ⟨k, .refl hinv, fun hr => absurd hr (by omega)⟩
  | found hn _ htrunc hadd =>
      have h1 := htrunc.evolves hinv hn
      refine ⟨k, h1.trans (addToOpenFileTable_evolves h1.inv hn (openOffset_le h1.inv hn) hadd), ?_⟩
      exact addToOpenFileTable_issued hn.1 hadd
  | scrapped _ _ hn _ =>
      refine ⟨k, ⟨Nat.le_refl k, scrapInode_inv hinv hn, fun _ _ => rfl, fun _ h => h⟩, ?_⟩
      exact fun hr => absurd hr (by omega)
  | @created n _ _ _ _ hn hk _ hadd =>
      have hfile : IsFile (k + 1) n := ⟨by omega, by omega⟩
      have h1 : Evolves k fs (k + 1) (newFile fs n k name.tail) := newFile_evolves hinv hn hk
      refine ⟨k + 1, h1.trans (addToOpenFileTable_evolves h1.inv hfile (Nat.zero_le _) hadd), ?_⟩
      exact addToOpenFileTable_issued hfile.1 hadd

theorem tfsClose_evolves (hinv : Inv k fs) (fhandle : Int) :
    Evolves k fs k (tfsClose fs fhandle).2 := by
  rcases tfsClose_cases fs fhandle with ⟨j, -, -, hclose⟩ | ⟨-, hclose⟩
  · rw [hclose]
    exact ⟨Nat.le_refl k, dropHandle_inv hinv, fun _ _ => rfl, fun _ h => h⟩
  · rw [hclose]
    exact .refl hinv

theorem WriteStep.evolves {fhandle : Int} {buffer : List UInt8} (hinv : Inv k fs)
    (h : WriteStep k fs fhandle buffer r fs') : Evolves k fs k fs' := by
  cases h with
  | badHandle _ => exact .refl hinv
  | nothing _ _ => exact .refl hinv
  | @wrote h n b data _ hn hnum _ _ hpos hfit hw =>
      refine ⟨Nat.le_refl k, writeAt_inv hinv hn hnum hw hpos hfit, ?_, ?_⟩
      · intro i hi
        have hge : blockSize ≤ blockAddr b + (fs.openFileTable h).ofOffset :=
          (blockAddr_ge (hw.ne_root hinv hn.1)).trans (Nat.le_add_right _ _)
        exact (entry_store_outside (hi.trans_le hinv.files_le) hge).2
      · intro j hj
        by_cases hjh : j = h
        · simpa [writeAt, hjh] using hjh ▸ hj
        · simpa [writeAt, hjh] using hj

theorem ReadStep.evolves {fhandle : Int} {len : Nat} {bytes : List UInt8} (hinv : Inv k fs)
    (h : ReadStep k fs fhandle len r bytes fs') : Evolves k fs k fs' := by
  cases h with
  | badHandle _ => exact .refl hinv
  | nothing _ _ _ _ => exact .refl hinv
  | noBlock _ _ _ _ _ => exact .refl hinv
  | @got h n b count _ hn hnum _ _ _ hfit =>
      refine ⟨Nat.le_refl k, moveHandle_inv hinv ?_ (by omega), fun _ _ => rfl, ?_⟩
      · exact ⟨n, hn, hnum, by omega⟩
      · intro j hj
        by_cases hjh : j = h
        · simpa [moveHandle, hjh] using hjh ▸ hj
        · simpa [moveHandle, hjh] using hj

/-! ## Calls -/

/-- The handle a call reads or writes through. -/
def Call.through : Call → Option Int
  | .write fhandle _ => some fhandle
  | .read fhandle _ => some fhandle
  | _ => none

/-- A call that returns keeps the invariant, if it reads or writes only through
an issued handle; a handle it returns from `tfs_open` is issued. -/
theorem exec_evolves {c : Call} {ret : Ret} (hinv : Inv k fs)
    (hiss : ∀ fhandle, c.through = some fhandle → Issued fs fhandle)
    (h : exec fs c = some (ret, fs')) :
    ∃ k', Evolves k fs k' fs' ∧
      ∀ name flags, c = .open name flags → 0 ≤ ret.value → Issued fs' ret.value := by
  cases c with
  | lookup name =>
      rcases Prod.mk.inj (Option.some.inj h) with ⟨rfl, rfl⟩
      exact ⟨k, .refl hinv, fun _ _ hc => by cases hc⟩
  | «open» name flags =>
      rcases Option.map_eq_some_iff.mp h with ⟨⟨r, fs1⟩, hopen, hret⟩
      rcases Prod.mk.inj hret with ⟨rfl, rfl⟩
      rcases (tfsOpen_cases hinv hopen).evolves hinv with ⟨k', hev, hissued⟩
      exact ⟨k', hev, fun _ _ _ => hissued⟩
  | close fhandle =>
      rcases Prod.mk.inj (Option.some.inj h) with ⟨rfl, rfl⟩
      exact ⟨k, tfsClose_evolves hinv fhandle, fun _ _ hc => by cases hc⟩
  | write fhandle buffer =>
      rcases Option.map_eq_some_iff.mp h with ⟨⟨r, fs1⟩, hwrite, hret⟩
      rcases Prod.mk.inj hret with ⟨rfl, rfl⟩
      have hstep := tfsWrite_cases hinv (hiss fhandle rfl) hwrite
      exact ⟨k, hstep.evolves hinv, fun _ _ hc => by cases hc⟩
  | read fhandle len =>
      rcases Option.map_eq_some_iff.mp h with ⟨⟨⟨r, bytes⟩, fs1⟩, hread, hret⟩
      rcases Prod.mk.inj hret with ⟨rfl, rfl⟩
      have hstep := tfsRead_cases hinv (hiss fhandle rfl) hread
      exact ⟨k, hstep.evolves hinv, fun _ _ hc => by cases hc⟩

/-- Along a run whose guard admits reads and writes on issued handles only, the
invariant holds. -/
theorem reach_inv {ok : Machine.Guard FS Call Ret} {tr : Machine.Trace Call Ret}
    (hok : ∀ tr fs c k, Inv k fs → ok tr fs c →
      ∀ fhandle, c.through = some fhandle → Issued fs fhandle)
    (h : machine.Reach ok (tr, fs)) : ∃ k, Inv k fs := by
  refine Machine.Reach.invariant (P := fun _ s => ∃ k, Inv k s) h ⟨0, init_inv⟩ ?_
  rintro tr s c ret s' ⟨k, hinv⟩ hguard hexec
  rcases exec_evolves hinv (hok tr s c k hinv hguard) hexec with ⟨k', hev, -⟩
  exact ⟨k', hev.inv⟩

/-! ## Open handles -/

/-- A handle entry marked TAKEN refers to a file. -/
theorem Inv.fileEntry_of_taken (hinv : Inv k fs) {h : Fin maxOpenFiles}
    (ht : fs.freeOpenFileEntries h = .taken) : FileEntry k (fs.openFileTable h) := by
  rcases hinv.handles h with ⟨-, hfree⟩ | hf
  · rw [ht] at hfree
    cases hfree
  · exact hf

/-- An open handle was issued. -/
theorem IsOpen.issued {fhandle : Int} (hinv : Inv k fs) (hopen : IsOpen fs fhandle) :
    Issued fs fhandle := by
  rcases hopen with ⟨h, hh, ht⟩
  rcases hinv.fileEntry_of_taken ht with ⟨n, hn, hnum, -⟩
  intro j hj
  have hpos := hn.1
  rw [show j = h from Option.some.inj (hj.symm.trans hh), hnum]
  omega

/-- A number outside the handle table stands for no entry at all. -/
theorem issued_of_outside {fhandle : Int} (h : getOpenFileEntry fhandle = none) :
    Issued fs fhandle := by
  intro j hj
  rw [h] at hj
  cases hj

theorem pathA_noNul : ∀ b ∈ ([47, 97] : List UInt8), b ≠ 0 := by simp

/-- The path "/a", for examples. -/
def pathA : CString := ⟨[47, 97], pathA_noNul⟩

theorem pathB_noNul : ∀ b ∈ ([47, 98] : List UInt8), b ≠ 0 := by simp

/-- The path "/b". -/
def pathB : CString := ⟨[47, 98], pathB_noNul⟩

/-! ## Runs on handles returned by earlier opens -/

/-- An earlier call of the run opened the handle with success. -/
def OpenedEarlier (tr : Machine.Trace Call Ret) (fhandle : Int) : Prop :=
  0 ≤ fhandle ∧ ∃ name flags bytes, (Call.open name flags, Ret.mk fhandle bytes) ∈ tr

/-- Reads and writes use handles returned by earlier opens, and no path is
empty. Handles may have been closed since. -/
def EarlierHandles : Machine.Guard FS Call Ret := fun tr _ c =>
  (∀ name flags, c = .open name flags → name.bytes ≠ []) ∧
    ∀ fhandle, c.through = some fhandle → OpenedEarlier tr fhandle

/-- The handle a call opened, if it did. -/
def openedBy : Call × Ret → Option Int
  | (.open _ _, ret) => some ret.value
  | _ => none

theorem openedEarlier_iff {tr : Machine.Trace Call Ret} {fhandle : Int} :
    OpenedEarlier tr fhandle ↔ 0 ≤ fhandle ∧ some fhandle ∈ tr.map openedBy := by
  refine and_congr_right fun _ => ?_
  rw [List.mem_map]
  constructor
  · rintro ⟨name, flags, bytes, hmem⟩
    exact ⟨_, hmem, rfl⟩
  · rintro ⟨⟨c, ret⟩, hmem, heq⟩
    cases c with
    | «open» name flags =>
        cases heq
        exact ⟨name, flags, ret.bytes, hmem⟩
    | _ => cases heq

instance (tr : Machine.Trace Call Ret) (fhandle : Int) : Decidable (OpenedEarlier tr fhandle) :=
  decidable_of_iff _ openedEarlier_iff.symm

/-- The path a call opens. -/
def Call.path : Call → Option CString
  | .open name _ => some name
  | _ => none

theorem earlierHandles_iff {tr : Machine.Trace Call Ret} {c : Call} : EarlierHandles tr fs c ↔
    (∀ name ∈ c.path, name.bytes ≠ []) ∧ ∀ fhandle ∈ c.through, OpenedEarlier tr fhandle := by
  refine and_congr_left fun _ => ⟨fun h name hname => ?_, ?_⟩
  · cases c with
    | «open» name' flags =>
        cases hname
        exact h name flags rfl
    | _ => cases hname
  · rintro h name flags rfl
    exact h name rfl

instance (tr : Machine.Trace Call Ret) (fs : FS) (c : Call) : Decidable (EarlierHandles tr fs c) :=
  decidable_of_iff _ earlierHandles_iff.symm

/-- The invariant holds, and the handles opened so far are issued. -/
def RunInv (tr : Machine.Trace Call Ret) (fs : FS) : Prop :=
  ∃ k, Inv k fs ∧ ∀ fhandle, OpenedEarlier tr fhandle → Issued fs fhandle

theorem runInv_init : RunInv [] machine.init := by
  refine ⟨0, init_inv, ?_⟩
  rintro fhandle ⟨-, name, flags, bytes, hmem⟩
  cases hmem

theorem runInv_step {tr : Machine.Trace Call Ret} {c : Call} {ret : Ret} (h : RunInv tr fs)
    (hok : EarlierHandles tr fs c) (hexec : exec fs c = some (ret, fs')) :
    RunInv ((c, ret) :: tr) fs' := by
  rcases h with ⟨k, hinv, hiss⟩
  rcases exec_evolves hinv (fun fhandle hc => hiss fhandle (hok.2 fhandle hc)) hexec with
    ⟨k', hev, hnew⟩
  refine ⟨k', hev.inv, ?_⟩
  rintro fhandle ⟨hpos, name, flags, bytes, hmem⟩
  rcases List.mem_cons.mp hmem with heq | hmem
  · -- opened by this very call
    rcases Prod.mk.inj heq with ⟨rfl, rfl⟩
    exact hnew name flags rfl hpos
  · exact hev.issued_mono (hiss fhandle ⟨hpos, name, flags, bytes, hmem⟩)

theorem reach_runInv {tr : Machine.Trace Call Ret} (h : machine.Reach EarlierHandles (tr, fs)) :
    RunInv tr fs :=
  h.invariant runInv_init fun _ _ _ _ _ hP hok hexec => runInv_step hP hok hexec

/-- Along a run every lookup that succeeded keeps its answer. -/
theorem later_lookup {tr tr' : Machine.Trace Call Ret}
    (h : machine.Reach EarlierHandles (tr, fs))
    (hl : machine.Later EarlierHandles (tr, fs) (tr', fs')) (hfound : 0 ≤ tfsLookup fs name) :
    tfsLookup fs' name = tfsLookup fs name := by
  have hP : RunInv tr' fs' ∧ tfsLookup fs' name = tfsLookup fs name := by
    refine Machine.Later.invariant (P := fun tr₁ s₁ =>
      RunInv tr₁ s₁ ∧ tfsLookup s₁ name = tfsLookup fs name) hl ⟨reach_runInv h, rfl⟩ ?_
    rintro tr₁ s₁ c ret s₂ ⟨hrun, heq⟩ hok hexec
    refine ⟨runInv_step hrun hok hexec, ?_⟩
    rcases hrun with ⟨k, hinv, hiss⟩
    rcases exec_evolves hinv (fun fhandle hc => hiss fhandle (hok.2 fhandle hc)) hexec with
      ⟨k', hev, -⟩
    rw [hev.lookup_stable hinv (by rw [heq]; exact hfound), heq]
  exact hP.2

end TecnicoFS.Part2
