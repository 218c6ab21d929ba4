import TecnicoFS.Part1.Start
import TecnicoFS.Lib.Soundness
import TecnicoFS.Lib.Schedule

/-!
# Part 1: the open file table under concurrency

`add_to_open_file_table` and `remove_from_open_file_table` in any number of threads.
`open_files_mutex` protects the counter, and an entry is only marked by a thread that holds
both the mutex and the lock of the entry. A close takes the lock of the entry to read, so two
closes of one handle can both find it `TAKEN`: then both count it down and both return 0.
As long as no close gets that lock while somebody else holds it, the counter is exact and
every opening of a handle is closed once.
-/

namespace TecnicoFS.Part1

open Threads Threads.Prog
open Part2 (AllocationState OpenFileEntry maxOpenFiles)

/-- The calls on the table: by `tfs_open`, and by `tfs_close` with a handle in range. -/
inductive TableCall where
  | add (inumber : Int) (offset : Nat)
  | remove (h : Fin maxOpenFiles)
deriving DecidableEq

/-- The programs of the calls. -/
def tableBody : TableCall → Op Int
  | .add inumber offset => addToOpenFileTable inumber offset
  | .remove h => removeFromOpenFileTable ((h : Nat) : Int)

/-- The number of handle entries marked `TAKEN`. -/
def takenCount (fs : FS) : Nat :=
  (Finset.univ.filter fun h => fs.freeOpenFileEntries h = .taken).card

variable {T : Type}

/-- How many calls have opened the handle. -/
def opened (log : List (Done T TableCall Int)) (h : Fin maxOpenFiles) : Nat :=
  log.countP fun d =>
    match d.call with
    | .add _ _ => d.result = ((h : Nat) : Int)
    | .remove _ => false

/-- How many closes of the handle have returned 0. -/
def closed (log : List (Done T TableCall Int)) (h : Fin maxOpenFiles) : Nat :=
  log.countP fun d =>
    match d.call with
    | .add _ _ => false
    | .remove h' => h' = h ∧ d.result = 0

/-- A close gets the lock of its handle only while nobody else holds it. -/
def ClosesAlone (cfg : Config T FS Lock Cond TableCall Int) (t : T)
    (cfg' : Config T FS Lock Cond TableCall Int) : Prop :=
  ∀ h, cfg'.held t = (.openFile h, .read) :: cfg.held t →
    ∀ u, ∀ p ∈ cfg.held u, p.1 ≠ .openFile h

instance [Fintype T] : ∀ (cfg : Config T FS Lock Cond TableCall Int) t cfg',
    Decidable (ClosesAlone cfg t cfg') := fun cfg t cfg' =>
  inferInstanceAs (Decidable (∀ h, cfg'.held t = (.openFile h, .read) :: cfg.held t →
    ∀ u, ∀ p ∈ cfg.held u, p.1 ≠ .openFile h))

/-! ## Books: openings and closings of each handle -/

/-- How often each handle was marked `TAKEN` and how often it was marked `FREE`. -/
abbrev Books : Type := (Fin maxOpenFiles → Nat) × (Fin maxOpenFiles → Nat)

/-- What a step enters in the books. -/
def tableEntry (fs fs' : FS) : Books :=
  (fun h => if fs.freeOpenFileEntries h = .free ∧ fs'.freeOpenFileEntries h = .taken then 1 else 0,
    fun h => if fs.freeOpenFileEntries h = .taken ∧ fs'.freeOpenFileEntries h = .free then 1 else 0)

variable {fs fs' : FS} {h : Fin maxOpenFiles}

theorem tableEntry_eq (heq : fs'.freeOpenFileEntries = fs.freeOpenFileEntries) :
    tableEntry fs fs' = 0 := by
  refine Prod.ext (funext fun h => ?_) (funext fun h => ?_)
  · simp [tableEntry, heq, eq_free_iff]
  · simp [tableEntry, heq, eq_free_iff]

theorem tableEntry_taken (hfree : fs.freeOpenFileEntries h = .free) :
    tableEntry fs (fs.setHandleState h .taken) = (Pi.single h 1, 0) := by
  refine Prod.ext (funext fun i => ?_) (funext fun i => ?_)
  · by_cases hi : i = h
    · subst hi
      simp [tableEntry, hfree]
    · simp [tableEntry, hi, eq_free_iff]
  · by_cases hi : i = h
    · subst hi
      simp [tableEntry, hfree]
    · simp [tableEntry, hi, eq_free_iff]

theorem tableEntry_free (htaken : fs.freeOpenFileEntries h = .taken) :
    tableEntry fs (fs.setHandleState h .free) = (0, Pi.single h 1) := by
  refine Prod.ext (funext fun i => ?_) (funext fun i => ?_)
  · by_cases hi : i = h
    · subst hi
      simp [tableEntry, htaken]
    · simp [tableEntry, hi, eq_free_iff]
  · by_cases hi : i = h
    · subst hi
      simp [tableEntry, htaken]
    · simp [tableEntry, hi, eq_free_iff]

theorem takenCount_taken (hfree : fs.freeOpenFileEntries h = .free) :
    takenCount (fs.setHandleState h .taken) = takenCount fs + 1 := by
  have hset : (Finset.univ.filter fun i =>
      (fs.setHandleState h .taken).freeOpenFileEntries i = .taken) =
        insert h (Finset.univ.filter fun i => fs.freeOpenFileEntries i = .taken) := by
    ext i
    by_cases hi : i = h
    · subst hi
      simp
    · simp [hi]
  unfold takenCount
  rw [hset, Finset.card_insert_of_notMem]
  simp [hfree]

theorem takenCount_free (htaken : fs.freeOpenFileEntries h = .taken) :
    takenCount (fs.setHandleState h .free) + 1 = takenCount fs := by
  have hset : (Finset.univ.filter fun i =>
      (fs.setHandleState h .free).freeOpenFileEntries i = .taken) =
        (Finset.univ.filter fun i => fs.freeOpenFileEntries i = .taken).erase h := by
    ext i
    by_cases hi : i = h
    · subst hi
      simp
    · simp [hi]
  unfold takenCount
  rw [hset, Finset.card_erase_add_one]
  simp [htaken]

theorem takenCount_congr (heq : fs'.freeOpenFileEntries = fs.freeOpenFileEntries) :
    takenCount fs' = takenCount fs := by
  unfold takenCount
  rw [heq]

/-! ## The discipline of the table -/

/-- The books of a handle agree with its mark. -/
def TableInv (w : World FS Cond Books) : Prop :=
  ∀ h, w.total.1 h = w.total.2 h + if w.state.freeOpenFileEntries h = .taken then 1 else 0

/-- Marks are changed with the lock of the entry and the mutex, the counter with the
mutex. -/
structure TableGuar (held : List (Lock × Mode)) (w w' : World FS Cond Books) : Prop where
  entry : ∀ h, (∀ m, (.openFile h, m) ∉ held) →
    w'.state.freeOpenFileEntries h = w.state.freeOpenFileEntries h
  mutex : (.openFilesMutex, .write) ∉ held →
    w'.state.openFilesCount = w.state.openFilesCount ∧
      w'.state.freeOpenFileEntries = w.state.freeOpenFileEntries

/-- The counter is exact while the mutex is free. -/
def TableLock (l : Lock) (w : World FS Cond Books) : Prop :=
  l = .openFilesMutex → w.state.openFilesCount = takenCount w.state

/-- The discipline: nobody shares the lock of a handle. -/
def tableDiscipline : Discipline FS Lock Cond Books where
  inv := TableInv
  guar := TableGuar
  lockInv := TableLock
  order _ _ := True
  shared l := ∀ h, l ≠ .openFile h
  single := False
  waiter _ := False
  entry := tableEntry
  entry_self fs := tableEntry_eq rfl
  guar_refl _ _ := ⟨fun _ _ => rfl, fun _ => ⟨rfl, rfl⟩⟩
  keeps := by
    rintro held w w' l - hguar hheld hl rfl
    rcases hguar.mutex hheld with ⟨hcount, hentries⟩
    rw [hcount, takenCount_congr hentries]
    exact hl rfl
  inv_quieter := by
    rintro w w' ⟨hstate, htotal, -⟩ hinv h
    rw [hstate, htotal]
    exact hinv h
  lockInv_quieter := by
    rintro l w w' ⟨hstate, -, -⟩ hl
    unfold TableLock
    rw [hstate]
    exact hl

variable {held : List (Lock × Mode)} {w w' : World FS Cond Books} {m : Mode}

/-- A thread that holds the lock of a handle sees its mark unchanged. -/
theorem mark_stable (hrely : tableDiscipline.Rely held w w') (hheld : (.openFile h, m) ∈ held) :
    w'.state.freeOpenFileEntries h = w.state.freeOpenFileEntries h := by
  refine hrely.stable (P := fun w₁ => w₁.state.freeOpenFileEntries h =
    w.state.freeOpenFileEntries h) rfl ?_ ?_
  · intro held' w₁ w₂ hcompat _ _ hguar _ hsame
    rw [← hsame]
    exact hguar.entry h fun m' hmem => (hcompat _ _ _ hmem hheld).2.2 h rfl
  · intro w₁ w₂ _ hquiet hsame
    rw [hquiet.1, hsame]

/-- A thread that holds the mutex sees the counter and the marks unchanged. -/
theorem count_stable (hrely : tableDiscipline.Rely held w w')
    (hheld : (.openFilesMutex, .write) ∈ held) :
    w'.state.openFilesCount = w.state.openFilesCount ∧
      w'.state.freeOpenFileEntries = w.state.freeOpenFileEntries := by
  refine hrely.stable (P := fun w₁ => w₁.state.openFilesCount = w.state.openFilesCount ∧
    w₁.state.freeOpenFileEntries = w.state.freeOpenFileEntries) ⟨rfl, rfl⟩ ?_ ?_
  · intro held' w₁ w₂ hcompat _ _ hguar _ hsame
    rcases hguar.mutex (fun hmem => nomatch (hcompat _ _ _ hmem hheld).1) with ⟨hcount, hentries⟩
    exact ⟨hcount.trans hsame.1, hentries.trans hsame.2⟩
  · intro w₁ w₂ _ hquiet hsame
    rw [hquiet.1]
    exact hsame

/-- The books only grow. -/
theorem books_le (hrely : tableDiscipline.Rely held w w') (h : Fin maxOpenFiles) :
    w.total.1 h ≤ w'.total.1 h ∧ w.total.2 h ≤ w'.total.2 h := by
  refine hrely.stable (P := fun w₁ => w.total.1 h ≤ w₁.total.1 h ∧ w.total.2 h ≤ w₁.total.2 h)
    ⟨le_rfl, le_rfl⟩ ?_ ?_
  · intro held' w₁ w₂ _ _ _ _ htotal hle
    rw [htotal]
    exact ⟨hle.1.trans (Nat.le_add_right _ _), hle.2.trans (Nat.le_add_right _ _)⟩
  · intro w₁ w₂ _ hquiet hle
    rw [hquiet.2.1]
    exact hle

/-! ## The contract of the calls -/

/-- A close that returns has seen the handle marked `FREE` at least as often as it had been
opened by calls that returned before the close began. -/
def tableContract (T : Type) : Contract T FS Lock Cond TableCall Int Books where
  allowed _ := True
  may _ _ _ := True
  post c before _ w :=
    match c with
    | .add _ _ => True
    | .remove h => opened before h ≤ w.total.2 h
  weight c r :=
    match c with
    | .add _ _ => (fun h => if r = ((h : Nat) : Int) then 1 else 0, 0)
    | .remove h' => (0, fun h => if h' = h ∧ r = 0 then 1 else 0)
  J log w := ∀ d ∈ log, d.start ≤ log.length ∧
    ∀ h, d.call = .remove h → opened (log.take d.start) h ≤ w.total.2 h

/-- What the calls that returned have left in the books. -/
theorem settled_eq (log : List (Done T TableCall Int)) :
    (tableContract T).settled log = (opened log, closed log) := by
  induction log with
  | nil => rfl
  | cons d log ih =>
      have hcons : (tableContract T).settled (d :: log) =
          (tableContract T).weight d.call d.result + (tableContract T).settled log := rfl
      rw [hcons, ih]
      rcases d with ⟨t, c, r, start⟩
      cases c with
      | add inumber offset =>
          refine Prod.ext (funext fun h => ?_) (funext fun h => ?_)
          · by_cases hr : r = ((h : Nat) : Int)
            · simp [opened, tableContract, hr, Nat.add_comm]
            · simp [opened, tableContract, hr]
          · simp [closed, tableContract]
      | remove h' =>
          refine Prod.ext (funext fun h => ?_) (funext fun h => ?_)
          · simp [opened, tableContract]
          · by_cases hr : h' = h ∧ r = 0
            · simp [closed, tableContract, hr, Nat.add_comm]
            · simp [closed, tableContract, hr]

/-! ## The statements of the calls -/

/-- The counter is this far from the number of marks. -/
def CountOff (w : World FS Cond Books) (n : Int) : Prop :=
  w.state.openFilesCount = takenCount w.state + n

theorem CountOff.stable {n : Int} (hoff : CountOff w n) (hrely : tableDiscipline.Rely held w w')
    (hheld : (.openFilesMutex, .write) ∈ held) : CountOff w' n := by
  rcases count_stable hrely hheld with ⟨hcount, hmarks⟩
  unfold CountOff
  rw [hcount, takenCount_congr hmarks]
  exact hoff

section Statements

variable {c : TableCall} {before : List (Done T TableCall Int)} {k : Unit → Op Int} {b : Books}

/-- The weakest precondition of the calls. -/
abbrev TableWp (c : TableCall) (before : List (Done T TableCall Int)) (p : Op Int)
    (held : List (Lock × Mode)) (b : Books) (w : World FS Cond Books) : Prop :=
  wp tableDiscipline ((tableContract T).may c) ((tableContract T).Post c before) p held b w

/-- An assignment, with the mutex held, that leaves the marks as they are. -/
theorem wp_keepMarks {f : FS → FS} (hheld : (.openFilesMutex, .write) ∈ held)
    (hmarks : ∀ fs, (f fs).freeOpenFileEntries = fs.freeOpenFileEntries)
    (hnext : ∀ w', tableDiscipline.Rely held w w' →
      TableWp c before (k ()) held b ⟨f w'.state, w'.asleep, w'.total⟩) :
    TableWp c before ((Prog.modify f).bind k) held b w := by
  refine wp_modify fun w' hrely hinv _ => ?_
  have hentry : tableDiscipline.entry w'.state (f w'.state) = 0 := tableEntry_eq (hmarks _)
  unfold Discipline.after
  rw [hentry, add_zero, add_zero]
  refine ⟨fun h => ?_, ⟨fun h _ => ?_, fun hmem => absurd hheld hmem⟩, hnext w' hrely⟩
  · rw [hmarks]
    exact hinv h
  · rw [hmarks]

/-- A free entry is marked `TAKEN` and filled in: it is entered as opened. -/
theorem wp_markTaken {entry : OpenFileEntry} (hheld : (.openFilesMutex, .write) ∈ held)
    (hentry : (.openFile h, m) ∈ held)
    (hfree : w.state.freeOpenFileEntries h = .free)
    (hnext : ∀ w', (∀ n, CountOff w n → CountOff w' (n - 1)) →
      TableWp c before (k ()) held (b + (Pi.single h 1, 0)) w') :
    TableWp c before
      ((Prog.modify fun fs => (fs.setHandleState h .taken).setHandle h entry).bind k) held b w := by
  refine wp_modify fun w' hrely hinv _ => ?_
  have hfree' : w'.state.freeOpenFileEntries h = .free := by
    rw [mark_stable hrely hentry, hfree]
  have hbooks : tableDiscipline.entry w'.state
      ((w'.state.setHandleState h .taken).setHandle h entry) = (Pi.single h 1, 0) :=
    tableEntry_taken hfree'
  unfold Discipline.after
  rw [hbooks]
  refine ⟨fun i => ?_, ⟨fun i hi => ?_, fun hmem => absurd hheld hmem⟩, hnext _ fun n hoff => ?_⟩
  · have hold := hinv i
    by_cases hi : i = h
    · subst hi
      simp only [hfree', reduceCtorEq, if_false, add_zero] at hold
      simp [hold]
    · simpa [hi] using hold
  · have hne : i ≠ h := by
      rintro rfl
      exact hi m hentry
    simp [hne]
  · have hoff' := hoff.stable hrely hheld
    unfold CountOff at hoff' ⊢
    have hcount : takenCount ((w'.state.setHandleState h .taken).setHandle h entry) =
        takenCount w'.state + 1 := takenCount_taken hfree'
    rw [hcount, FS.setHandle_openFilesCount, FS.setHandleState_openFilesCount, hoff']
    push_cast
    ring

/-- An entry that is in use is marked `FREE`: it is entered as closed. -/
theorem wp_markFree (hheld : (.openFilesMutex, .write) ∈ held) (hentry : (.openFile h, m) ∈ held)
    (htaken : w.state.freeOpenFileEntries h = .taken)
    (hnext : ∀ w', w'.total.2 h = w'.total.1 h → w.total.1 h ≤ w'.total.1 h →
      (∀ n, CountOff w n → CountOff w' (n + 1)) →
      TableWp c before (k ()) held (b + (0, Pi.single h 1)) w') :
    TableWp c before ((Prog.modify fun fs => fs.setHandleState h .free).bind k) held b w := by
  refine wp_modify fun w' hrely hinv _ => ?_
  have htaken' : w'.state.freeOpenFileEntries h = .taken := by
    rw [mark_stable hrely hentry, htaken]
  have hbooks : tableDiscipline.entry w'.state (w'.state.setHandleState h .free) =
      (0, Pi.single h 1) := tableEntry_free htaken'
  have hself := hinv h
  simp only [htaken', if_true] at hself
  unfold Discipline.after
  rw [hbooks]
  refine ⟨fun i => ?_, ⟨fun i hi => ?_, fun hmem => absurd hheld hmem⟩,
    hnext _ ?_ ?_ fun n hoff => ?_⟩
  · have hold := hinv i
    by_cases hi : i = h
    · subst hi
      simp [hself]
    · simpa [hi] using hold
  · have hne : i ≠ h := by
      rintro rfl
      exact hi m hentry
    simp [hne]
  · simp [hself]
  · simpa using (books_le hrely h).1
  · have hoff' := hoff.stable hrely hheld
    have hcount := takenCount_free htaken'
    unfold CountOff at hoff' ⊢
    rw [FS.setHandleState_openFilesCount, hoff', ← hcount]
    push_cast
    ring

end Statements

/-! ## The calls -/

/-- The scan of `add_to_open_file_table`: no entry is known to be free in advance. -/
theorem addFirst_tableWp {before : List (Done T TableCall Int)} {inumber : Int} {offset : Nat}
    (hs : List (Fin maxOpenFiles)) (w : World FS Cond Books) :
    TableWp (.add inumber offset) before (addFirst inumber offset hs) [] 0 w := by
  induction hs generalizing w with
  | nil =>
      refine wp_ret fun w' _ _ => ⟨rfl, ?_, trivial⟩
      exact Prod.ext (funext fun h => by simp [tableContract]) rfl
  | cons h hs ih =>
      rw [addFirst]
      simp only [bind_eq, pure_eq]
      refine wp_lock fun w₁ _ _ => ⟨trivial, fun _ => ?_⟩
      refine wp_read fun w₂ _ _ => ?_
      by_cases hfree : w₂.state.freeOpenFileEntries h = .free
      · rw [if_pos hfree]
        refine wp_lock fun w₃ hrely₃ _ => ⟨trivial, fun hexact => ?_⟩
        have hoff₃ : CountOff w₃ 0 := by simpa [CountOff] using hexact rfl
        have hfree₃ : w₃.state.freeOpenFileEntries h = .free := by
          rw [mark_stable hrely₃ List.mem_cons_self, hfree]
        refine wp_markTaken List.mem_cons_self (List.mem_cons_of_mem _ List.mem_cons_self) hfree₃
          fun w₄ hoff₄ => ?_
        refine wp_keepMarks List.mem_cons_self (fun _ => rfl) fun w₆ hrely₆ => ?_
        -- the counter lags behind the mark until it is incremented
        have hoff₆ := (hoff₄ 0 hoff₃).stable hrely₆ List.mem_cons_self
        refine wp_unlock fun w₇ hrely₇ _ => ⟨fun _ hl => (nomatch hl), ?_⟩
        have hoff₇ : CountOff w₇ 0 := by
          refine CountOff.stable ?_ hrely₇ List.mem_cons_self
          simp only [CountOff, takenCount, FS.setCount_openFilesCount,
            FS.setCount_freeOpenFileEntries] at hoff₆ ⊢
          omega
        rw [dropLock_cons_of_ne (by simp), dropLock_cons_self]
        refine wp_unlock fun w₈ hrely₈ _ => ⟨fun _ _ => ?_, ?_⟩
        · simpa [CountOff] using hoff₇.stable hrely₈ List.mem_cons_self
        rw [dropLock_cons_self]
        refine wp_ret fun w₉ _ _ => ⟨rfl, ?_, trivial⟩
        refine Prod.ext (funext fun i => ?_) rfl
        by_cases hi : i = h
        · subst hi
          simp [tableContract]
        · have hne : (h : Nat) ≠ i := fun heq => hi (Fin.ext heq.symm)
          simp [tableContract, hi, hne]
      · rw [if_neg hfree]
        refine wp_unlock fun w₃ _ _ => ⟨fun _ hl => (nomatch hl), ?_⟩
        rw [dropLock_cons_self]
        exact ih w₃

theorem removeFromOpenFileTable_tableWp {before : List (Done T TableCall Int)}
    (hbefore : opened before h ≤ w.total.1 h) :
    TableWp (.remove h) before (removeFromOpenFileTable ((h : Nat) : Int)) [] 0 w := by
  rw [removeFromOpenFileTable, index?_natCast]
  simp only [bind_eq, pure_eq]
  refine wp_readLock fun w₁ hrely₁ _ => ⟨trivial, fun _ => ?_⟩
  have hle₁ := hbefore.trans (books_le hrely₁ h).1
  refine wp_read fun w₂ hrely₂ hinv₂ => ?_
  have hle₂ := hle₁.trans (books_le hrely₂ h).1
  by_cases htaken : w₂.state.freeOpenFileEntries h = .taken
  · rw [if_neg (not_not.mpr htaken)]
    refine wp_lock fun w₃ hrely₃ _ => ⟨trivial, fun hexact => ?_⟩
    have hle₃ := hle₂.trans (books_le hrely₃ h).1
    have hoff₃ : CountOff w₃ 0 := by simpa [CountOff] using hexact rfl
    have htaken₃ : w₃.state.freeOpenFileEntries h = .taken := by
      rw [mark_stable hrely₃ List.mem_cons_self, htaken]
    refine wp_keepMarks List.mem_cons_self (fun _ => rfl) fun w₄ hrely₄ => ?_
    have hle₄ := hle₃.trans (books_le hrely₄ h).1
    have htaken₄ : w₄.state.freeOpenFileEntries h = .taken := by
      rw [mark_stable hrely₄ (List.mem_cons_of_mem _ List.mem_cons_self), htaken₃]
    have hoff₄ : CountOff w₄ 0 := hoff₃.stable hrely₄ List.mem_cons_self
    -- the counter runs ahead until the entry is marked `FREE`, with or without a signal
    have hclose : ∀ w₅, w₅.state.freeOpenFileEntries h = .taken → opened before h ≤ w₅.total.1 h →
        CountOff w₅ (-1) →
        TableWp (.remove h) before
          ((Prog.modify fun fs => fs.setHandleState h AllocationState.free).bind fun _ =>
            (unlock Lock.openFilesMutex).bind fun _ =>
              (unlock (Lock.openFile h)).bind fun _ => ret 0)
          [(.openFilesMutex, .write), (.openFile h, .read)] 0 w₅ := by
      intro w₅ htaken₅ hle₅ hoff₅
      refine wp_markFree List.mem_cons_self (List.mem_cons_of_mem _ List.mem_cons_self) htaken₅
        fun w₆ hbooks₆ hle₆ hoff₆ => ?_
      have hdone₆ : opened before h ≤ w₆.total.2 h := hbooks₆ ▸ hle₅.trans hle₆
      refine wp_unlock fun w₇ hrely₇ _ => ⟨fun _ _ => ?_, ?_⟩
      · simpa [CountOff] using (hoff₆ _ hoff₅).stable hrely₇ List.mem_cons_self
      have hdone₇ := hdone₆.trans (books_le hrely₇ h).2
      rw [dropLock_cons_self]
      refine wp_unlock fun w₈ hrely₈ _ => ⟨fun _ hl => (nomatch hl), ?_⟩
      have hdone₈ := hdone₇.trans (books_le hrely₈ h).2
      rw [dropLock_cons_self]
      refine wp_ret fun w₉ hrely₉ _ => ⟨rfl, ?_, hdone₈.trans (books_le hrely₉ h).2⟩
      refine Prod.ext rfl (funext fun i => ?_)
      by_cases hi : i = h
      · subst hi
        simp [tableContract]
      · simp [tableContract, hi, Ne.symm hi]
    refine wp_read fun w₅ hrely₅ _ => ?_
    have htaken₅ : w₅.state.freeOpenFileEntries h = .taken := by
      rw [mark_stable hrely₅ (List.mem_cons_of_mem _ List.mem_cons_self)]
      exact htaken₄
    have hle₅ := hle₄.trans (books_le hrely₅ h).1
    have hoff₅ : CountOff w₅ (-1) := by
      refine CountOff.stable ?_ hrely₅ List.mem_cons_self
      simp only [CountOff, add_zero, FS.setCount_openFilesCount] at hoff₄ ⊢
      rw [hoff₄]
      rfl
    split
    · refine wp_wakeOne fun w₆ hrely₆ _ _ => hclose w₆ ?_ (hle₅.trans (books_le hrely₆ h).1)
        (hoff₅.stable hrely₆ List.mem_cons_self)
      rw [mark_stable hrely₆ (List.mem_cons_of_mem _ List.mem_cons_self), htaken₅]
    · exact hclose w₅ htaken₅ hle₅ hoff₅
  · rw [if_pos htaken]
    have hdone₂ : opened before h ≤ w₂.total.2 h := by
      have hbooks := hinv₂ h
      rw [if_neg htaken, add_zero] at hbooks
      exact hbooks ▸ hle₂
    refine wp_unlock fun w₃ hrely₃ _ => ⟨fun _ hl => (nomatch hl), ?_⟩
    have hdone₃ := hdone₂.trans (books_le hrely₃ h).2
    rw [dropLock_cons_self]
    refine wp_ret fun w₄ hrely₄ _ => ⟨rfl, ?_, hdone₃.trans (books_le hrely₄ h).2⟩
    exact Prod.ext rfl (funext fun i => by simp [tableContract])

/-! ## Runs -/

/-- No handle is open after `tfs_init`, and the counter is 0. -/
theorem init_closed : (∀ h, machine.init.freeOpenFileEntries h = .free) ∧
    machine.init.openFilesCount = 0 := by
  rw [machine_init]
  exact ⟨fun _ => rfl, rfl⟩

theorem tableInv_start (hclosed : ∀ h, fs.freeOpenFileEntries h = .free) :
    tableDiscipline.inv (World.start fs) := by
  intro h
  simp [World.start, hclosed]

theorem tableLock_start (hclosed : ∀ h, fs.freeOpenFileEntries h = .free)
    (hcount : fs.openFilesCount = 0) (l : Lock) :
    tableDiscipline.lockInv l (World.start fs) := by
  rintro -
  simp [World.start, takenCount, hclosed, hcount]

theorem tableJ_start : (tableContract T).J [] (World.start fs) :=
  fun _ hd => absurd hd List.not_mem_nil

/-- The calls meet the contract. -/
theorem tableBody_meets : Meets tableDiscipline (tableContract T) tableBody where
  start := by
    intro c log w rest _ _ _ htotal
    cases c with
    | add inumber offset => exact addFirst_tableWp _ w
    | remove h =>
        refine removeFromOpenFileTable_tableWp ?_
        rw [htotal, settled_eq]
        exact Nat.le_add_right _ _
  done := by
    intro t c log before r w _ hJ hbefore hpost d hd
    have hlen := hbefore.length_le
    rw [List.length_append, List.length_singleton]
    rcases List.mem_append.mp hd with hd | hd
    -- an earlier call: its part of the log has not changed
    · rcases hJ d hd with ⟨hstart, hclosed⟩
      refine ⟨by omega, fun h hc => ?_⟩
      rw [List.take_append_of_le_length hstart]
      exact hclosed h hc
    -- the call that returns: its part of the log is the one it started with
    · rw [List.mem_singleton] at hd
      subst hd
      refine ⟨by simp only; omega, fun h hc => ?_⟩
      have htake : (log ++ [(⟨t, c, r, before.length⟩ : Done T TableCall Int)]).take
          before.length = before := by
        rw [List.take_append_of_le_length hlen]
        exact (List.prefix_iff_eq_take.mp hbefore).symm
      simp only at hc ⊢
      rw [htake]
      subst hc
      exact hpost
  J_guar := by
    intro held log w w' _ _ _ htotal hJ d hd
    refine ⟨(hJ d hd).1, fun h hc => ((hJ d hd).2 h hc).trans ?_⟩
    rw [htotal]
    exact Nat.le_add_right _ _
  J_quieter := by
    intro log w w' _ hquiet hJ d hd
    rw [hquiet.2.1]
    exact hJ d hd
  single := fun hsingle => hsingle.elim

/-- In every run in which a close never shares the lock of its handle, the counter is exact
whenever the mutex is free. Once all calls have returned, every handle has been closed as
often as it was opened, up to the opening that still holds; and when a close that began after
the last opening is among them, exactly as often. -/
theorem handles_counted [DecidableEq T] [Fintype T]
    {cfg : Config T FS Lock Cond TableCall Int}
    (hreach : Reach tableBody machine.init ClosesAlone cfg) :
    (cfg.Unwritten .openFilesMutex → cfg.state.openFilesCount = takenCount cfg.state) ∧
      ((∀ t, cfg.task t = none) → ∀ h,
        opened cfg.log h =
            closed cfg.log h + (if cfg.state.freeOpenFileEntries h = .taken then 1 else 0) ∧
          ∀ d ∈ cfg.log, d.call = .remove h →
            opened (cfg.log.take d.start) h = opened cfg.log h →
            closed cfg.log h = opened cfg.log h) := by
  have hfollows : ∀ cfg t cfg', ClosesAlone (T := T) cfg t cfg' →
      Follows tableDiscipline (tableContract T) cfg t cfg' := by
    intro cfg t cfg' halone
    refine ⟨fun _ _ _ => trivial, fun _ _ => trivial, fun l hl hshared u m hmem => hshared ?_⟩
    rintro h rfl
    exact halone h hl u _ hmem rfl
  rcases init_closed with ⟨hfree, hcount⟩
  rcases hreach.sound tableBody_meets (tableInv_start hfree) (tableLock_start hfree hcount)
    tableJ_start hfollows with ⟨b, g, hsound⟩
  refine ⟨fun hfree => hsound.free _ hfree rfl, fun hidle h => ?_⟩
  have htotal : g = (opened cfg.log, closed cfg.log) := by
    rw [hsound.books, settled_eq, Finset.sum_eq_zero fun t _ => (hsound.idle t (hidle t)).2,
      add_zero]
  have hbooks := hsound.inv h
  simp only [Config.world, htotal] at hbooks
  refine ⟨hbooks, fun d hd hc hlast => ?_⟩
  have hclosed := (hsound.log d hd).2 h hc
  simp only [Config.world, htotal, hlast] at hclosed
  omega

/-! ## Two threads -/

/-- The thread goes on for so many steps. -/
def goes (t : Fin 2) (steps : Nat) : List (Move (Fin 2) TableCall) := List.replicate steps (t, none)

/-- The thread calls and goes on for so many steps. -/
def calls (t : Fin 2) (c : TableCall) (steps : Nat) : List (Move (Fin 2) TableCall) :=
  (t, some c) :: goes t steps

/-- Thread 0 opens handle 0 and closes it again while thread 1 opens a second one. -/
theorem handles_counted_two :
    ∃ cfg : Config (Fin 2) FS Lock Cond TableCall Int, (∀ t, cfg.task t = none) ∧
      cfg.state.openFilesCount = 1 ∧ opened cfg.log 0 = 1 ∧
      ((cfg.Unwritten .openFilesMutex → cfg.state.openFilesCount = takenCount cfg.state) ∧
        ((∀ t, cfg.task t = none) → ∀ h,
          opened cfg.log h =
              closed cfg.log h + (if cfg.state.freeOpenFileEntries h = .taken then 1 else 0) ∧
            ∀ d ∈ cfg.log, d.call = .remove h →
              opened (cfg.log.take d.start) h = opened cfg.log h →
              closed cfg.log h = opened cfg.log h)) := by
  have hplay : ((Config.init initialFS).play tableBody ClosesAlone
      (calls 0 (.add 1 0) 8 ++ calls 1 (.add 2 0) 4 ++ calls 0 (.remove 0) 2 ++ goes 1 7 ++
        goes 0 7)).map (fun cfg : Config (Fin 2) FS Lock Cond TableCall Int =>
          decide ((∀ t, (cfg.task t).isNone) ∧ cfg.state.openFilesCount = 1 ∧
            opened cfg.log 0 = 1)) = some true := by
    decide +kernel
  rcases Option.map_eq_some_iff.mp hplay with ⟨cfg, hplay, hfacts⟩
  rcases of_decide_eq_true hfacts with ⟨hidle, hcount, hopened⟩
  have hreach : Reach tableBody machine.init ClosesAlone cfg := by
    rw [machine_init]
    exact Reach.init.play hplay
  exact ⟨cfg, fun t => Option.isNone_iff_eq_none.mp (hidle t), hcount, hopened,
    handles_counted hreach⟩

/-- Two closes of one opened handle both find it `TAKEN` and both return 0; the counter is
left at -1 with no handle open. -/
theorem closed_twice :
    ∃ cfg : Config (Fin 2) FS Lock Cond TableCall Int,
      Reach tableBody machine.init (fun _ _ _ => True) cfg ∧ (∀ t, cfg.task t = none) ∧
        cfg.Unwritten .openFilesMutex ∧ cfg.state.openFilesCount = -1 ∧
        takenCount cfg.state = 0 ∧ opened cfg.log 0 = 1 ∧ closed cfg.log 0 = 2 := by
  have hplay : ((Config.init initialFS).play tableBody (fun _ _ _ => True)
      (calls 0 (.add 1 0) 8 ++ calls 0 (.remove 0) 2 ++ calls 1 (.remove 0) 2 ++ goes 0 8 ++
        goes 1 7)).map (fun cfg : Config (Fin 2) FS Lock Cond TableCall Int =>
          decide ((∀ t, (cfg.task t).isNone) ∧ (∀ t, cfg.held t = []) ∧
            cfg.state.openFilesCount = -1 ∧ takenCount cfg.state = 0 ∧ opened cfg.log 0 = 1 ∧
            closed cfg.log 0 = 2)) = some true := by
    decide +kernel
  rcases Option.map_eq_some_iff.mp hplay with ⟨cfg, hplay, hfacts⟩
  rcases of_decide_eq_true hfacts with ⟨hidle, hheld, hfacts⟩
  refine ⟨cfg, ?_, fun t => Option.isNone_iff_eq_none.mp (hidle t), fun t hmem => ?_, hfacts⟩
  · rw [machine_init]
    exact Reach.init.play hplay
  · rw [hheld t] at hmem
    exact absurd hmem List.not_mem_nil

end TecnicoFS.Part1
