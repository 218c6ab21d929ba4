import TecnicoFS.Part1.Locking
import TecnicoFS.Lib.Schedule

/-!
# Part 1: concurrent creation

`tfs_open` looks the name up, creates the file and fills in its entry with `open_file_lock`
held, one lock-protected step at a time, while `tfs_lookup` scans the directory without it.
Still, in runs of these two calls on names of at most 39 bytes, a name never gets a second
entry, and an answer once given stays right.
-/

namespace TecnicoFS.Part1

open Threads Threads.Prog Threads.Discipline
open Part2 (Call Ret rootDirInum validPathname hasFlag tfsOCreat tfsOTrunc tfsOAppend blockSize
  dataBlocks inodeTableSize maxOpenFiles maxFileName maxDirEntries)

variable {opensOnly : Prop} {may : FS → FS → Prop} {α : Type}
  {Q : α → List (Lock × Mode) → Unit → World FS Cond Unit → Prop}
  {held : List (Lock × Mode)} {w w' : World FS Cond Unit}

/-! ## Looking up a name -/

theorem tail_ne_nil {name : CString} (hvalid : validPathname name = true) :
    name.tail.bytes ≠ [] := by
  intro hnil
  have hlong : 1 < name.bytes.length := of_decide_eq_true (Bool.and_eq_true_iff.mp hvalid).1
  have hlen : name.bytes.length - 1 = 0 := by
    rw [← List.length_tail]
    exact congrArg List.length hnil
  omega

/-- `tfs_lookup`: a number of the name, or -1 where no entry had the name at the start. -/
theorem tfsLookup_wp {k : Int → Op α} {name : CString} (hheld : Below held 3)
    (hvalid : validPathname name = true)
    (hfound : ∀ r, DirLater opensOnly held (fun w =>
      Maps w.state (name.tail.bytes.take maxFileName) r → DirWp opensOnly may Q (k r) held w) w)
    (hnone : (∀ r, ¬ Maps w.state (name.tail.bytes.take maxFileName) r) →
      DirLater opensOnly held (DirWp opensOnly may Q (k (-1)) held) w) :
    DirWp opensOnly may Q ((tfsLookup name).bind k) held w := by
  unfold tfsLookup
  rw [if_pos hvalid]
  exact findInDir_wp hheld (tail_ne_nil hvalid) hfound hnone

/-! ## Opening a file that exists -/

theorem Listed.rely {n : Int} (hn : n ≠ -1 ∧ Listed w.state n)
    (h : (dirDiscipline opensOnly).Rely held w w') : n ≠ -1 ∧ Listed w'.state n := by
  rcases hn with ⟨hne, i, rfl⟩
  exact ⟨hne, i, (rely_entries h).numbers i hne⟩

/-- The i-node of a listed file may be given any contents. -/
theorem fileStep_listed {fs : FS} {n : Fin inodeTableSize} {inode : Inode}
    (hinv : DirInv opensOnly fs) (hn : Listed fs ((n : Nat) : Int)) :
    FileStep fs (fs.setInode n inode) :=
  fileStep_setInode (Or.inr ⟨by simp, hn⟩) fun hroot => absurd hroot (hinv.listed hn).1

/-- The direct blocks of a listed file are freed. -/
theorem freeBlocks_wp {k : Bool → Op α} {n : Fin inodeTableSize} (is : List (Fin maxDirectBlocks))
    (hheld : Below held 5) (hn : ((n : Nat) : Int) ≠ -1 ∧ Listed w.state ((n : Nat) : Int))
    (hnext : ∀ r, DirLater opensOnly held (DirWp opensOnly may Q (k r) held) w) :
    DirWp opensOnly may Q ((freeBlocks n is).bind k) held w := by
  induction is generalizing w with
  | nil => exact wp_of_later (hnext true)
  | cons i is ih =>
      rw [freeBlocks]
      simp only [bind_eq, Prog.bind_assoc]
      refine wp_read fun w₁ hrely₁ _ => ?_
      refine dataBlockFree_wp _ hheld fun w₂ hrely₂ _ => ?_
      have hn₂ := Listed.rely hn (hrely₁.trans hrely₂)
      rw [if_neg (by decide), Prog.bind_assoc]
      refine wp_fileStep (fun w' hrely hinv _ => fileStep_listed hinv (Listed.rely hn₂ hrely).2)
        fun w₃ hrely₃ _ => ?_
      have hrely := (hrely₁.trans hrely₂).trans hrely₃
      exact ih (Listed.rely hn hrely) fun r => (hnext r).rely hrely

theorem truncate_wp {k : Bool → Op α} {n : Fin inodeTableSize}
    (hheld : Below held 5) (hn : ((n : Nat) : Int) ≠ -1 ∧ Listed w.state ((n : Nat) : Int))
    (hnext : ∀ r, DirLater opensOnly held (DirWp opensOnly may Q (k r) held) w) :
    DirWp opensOnly may Q ((truncate n).bind k) held w := by
  rw [truncate]
  simp only [bind_eq, pure_eq, Prog.bind_assoc]
  refine wp_read fun w₁ hrely₁ _ => ?_
  have hnext₁ := fun r => (hnext r).rely hrely₁
  have hn₁ := Listed.rely hn hrely₁
  split
  · exact wp_of_later (hnext₁ true)
  · rw [Prog.bind_assoc]
    refine freeBlocks_wp _ hheld hn₁ fun freed w₂ hrely₂ _ => ?_
    have hnext₂ := fun r => (hnext₁ r).rely hrely₂
    have hn₂ := Listed.rely hn₁ hrely₂
    -- the size is reset whether or not there is an indirect block to free
    have hreset : ∀ w₃, (dirDiscipline opensOnly).Rely held w₂ w₃ →
        DirWp opensOnly may Q ((Prog.modify fun fs : FS =>
          fs.setInode n { fs.inodeTable n with iSize := 0 }).bind fun _ => (ret true).bind k)
          held w₃ := by
      intro w₃ hrely₃
      refine wp_fileStep (fun w' hrely hinv _ => fileStep_listed hinv
        (Listed.rely hn₂ (hrely₃.trans hrely)).2) fun w₄ hrely₄ _ => ?_
      exact wp_of_later ((hnext₂ true).rely (hrely₃.trans hrely₄))
    split
    · split
      · simp only [Prog.bind_assoc]
        refine wp_read fun w₃ hrely₃ _ => ?_
        refine dataBlockFree_wp _ hheld fun w₄ hrely₄ _ => ?_
        rw [if_neg (by decide), Prog.bind_assoc]
        refine wp_fileStep (fun w' hrely hinv _ => fileStep_listed hinv
          (Listed.rely hn₂ ((hrely₃.trans hrely₄).trans hrely)).2) fun w₅ hrely₅ _ => ?_
        exact hreset w₅ ((hrely₃.trans hrely₄).trans hrely₅)
      · exact hreset w₂ Relation.ReflTransGen.refl
    · exact wp_of_later (hnext₂ false)

/-- `tfs_open` on a name that was found, with only `open_file_lock` held. -/
theorem openExisting_wp {k : Option (Int × Nat) → Op α} {inum : Int} {flags : BitVec 32}
    (hn : inum ≠ -1 ∧ Listed w.state inum)
    (hnext : ∀ opened w', opened = none ∨ (∃ offset, opened = some (inum, offset)) →
      KeepsEntries w.state w'.state → DirWp opensOnly may Q (k opened) [] w') :
    DirWp opensOnly may Q ((openExisting inum flags).bind k) [(.openFileLock, .write)] w := by
  unfold openExisting
  split
  · trivial
  · rename_i n hn'
    rw [index?_eq_some] at hn'
    subst hn'
    simp only [bind_eq, pure_eq, Prog.bind_assoc]
    refine wp_lock fun w₁ hrely₁ _ => ⟨?_, fun _ => ?_⟩
    · exact (below_nil.cons (by decide)).mono (two_le_rank_inode n)
    have hbelow : Below [(.inode n, .write), (.openFileLock, .write)] 5 :=
      (below_nil.cons (by decide)).cons ((rank_inode_le n).trans_lt (by decide))
    -- both locks are given back in the order in which they were taken
    have hleave : ∀ opened w₂,
        opened = none ∨ (∃ offset, opened = some (((n : Nat) : Int), offset)) →
        KeepsEntries w.state w₂.state →
        DirWp opensOnly may Q ((unlock Lock.openFileLock).bind fun _ =>
          (unlock (Lock.inode n)).bind fun _ => (ret opened).bind k)
          [(.inode n, .write), (.openFileLock, .write)] w₂ := by
      intro opened w₂ hopened hkeeps₂
      refine wp_unlock fun w₃ hrely₃ _ => ⟨fun _ => trivial, ?_⟩
      rw [dropLock_cons_of_ne (by simp), dropLock_cons_self]
      refine wp_unlock fun w₄ hrely₄ _ => ⟨fun _ => trivial, ?_⟩
      rw [dropLock_cons_self]
      exact hnext opened w₄ hopened
        (hkeeps₂.trans ((rely_entries hrely₃).trans (rely_entries hrely₄)))
    have hgo : ∀ (truncated : Bool) w₂, KeepsEntries w.state w₂.state →
        DirWp opensOnly may Q ((if truncated then
            if hasFlag flags tfsOAppend then
              (Prog.read fun fs : FS => (fs.inodeTable n).iSize).bind fun offset =>
                (unlock Lock.openFileLock).bind fun _ => (unlock (Lock.inode n)).bind fun _ =>
                  ret (some (((n : Nat) : Int), offset))
            else (ret 0).bind fun offset =>
              (unlock Lock.openFileLock).bind fun _ => (unlock (Lock.inode n)).bind fun _ =>
                ret (some (((n : Nat) : Int), offset))
          else (unlock Lock.openFileLock).bind fun _ => (unlock (Lock.inode n)).bind fun _ =>
            ret none).bind k) [(.inode n, .write), (.openFileLock, .write)] w₂ := by
      intro truncated w₂ hkeeps₂
      split
      · split
        · simp only [Prog.bind_assoc]
          refine wp_read fun w₃ hrely₃ _ => ?_
          exact hleave _ w₃ (Or.inr ⟨_, rfl⟩) (hkeeps₂.trans (rely_entries hrely₃))
        · simp only [Prog.ret_bind, Prog.bind_assoc]
          exact hleave _ w₂ (Or.inr ⟨_, rfl⟩) hkeeps₂
      · simp only [Prog.bind_assoc]
        exact hleave _ w₂ (Or.inl rfl) hkeeps₂
    split
    · rw [Prog.bind_assoc]
      refine truncate_wp hbelow (Listed.rely hn hrely₁) fun truncated w₂ hrely₂ _ => ?_
      exact hgo truncated w₂ ((rely_entries hrely₁).trans (rely_entries hrely₂))
    · exact hgo true w₁ (rely_entries hrely₁)

/-! ## Creating a file -/

/-- A name that no entry is found under is in no entry at all. -/
theorem nameFree_of_not_maps {fs : FS} {name : CString} (hinv : DirInv opensOnly fs)
    (hne : name.bytes ≠ []) (hlen : name.bytes.length ≤ 39)
    (hnot : ∀ r, ¬ Maps fs (name.bytes.take maxFileName) r) : NameFree fs name := by
  intro i hi
  rw [List.take_of_length_le hlen] at hi
  rw [List.take_of_length_le (hlen.trans (by decide))] at hnot
  refine hnot (entryNumber fs i) ⟨fun hempty => hne ?_, i, rfl, hi⟩
  rw [← hi]
  exact hinv.unnamed i hempty

theorem NameFree.of_bytes {fs fs' : FS} {name : CString} (hm : DirBytes fs.fsData fs')
    (hfree : NameFree fs name) : NameFree fs' name := by
  intro i
  rw [(entry_congr hm i).2]
  exact hfree i

/-- `tfs_open` on a name that is not found, with only `open_file_lock` held: the file is
created and listed under its name, or it is not there. -/
theorem openCreated_wp {k : Option (Int × Nat) → Op α} {name : CString}
    (hname : name.tail.bytes ≠ []) (hfree : opensOnly → NameFree w.state name.tail)
    (hnone : ∀ w', DirWp opensOnly may Q (k none) [] w')
    (hnew : ∀ (n : Fin inodeTableSize) w', FileNumber w'.state ((n : Nat) : Int) →
      (opensOnly → Maps w'.state (name.tail.bytes.take 39) ((n : Nat) : Int)) →
      DirWp opensOnly may Q (k (some (((n : Nat) : Int), 0))) [] w') :
    DirWp opensOnly may Q ((openCreated name).bind k) [(.openFileLock, .write)] w := by
  have hbelow : Below [(.openFileLock, Mode.write)] 2 := below_nil.cons (by decide)
  rw [openCreated]
  simp only [bind_eq, pure_eq, Prog.bind_assoc]
  refine inodeCreate_wp (m := w.state.fsData) hbelow List.mem_cons_self (fun _ _ => rfl) ?_ ?_
  · intro w₁ _ _
    have hminus : index? inodeTableSize (-1) = none := index?_eq_none.mpr (Or.inl (by decide))
    rw [hminus]
    simp only [Prog.bind_assoc]
    refine wp_unlock fun w₂ _ _ => ⟨fun _ => trivial, ?_⟩
    rw [dropLock_cons_self]
    exact hnone w₂
  · intro n w₁ hfresh₁ hsize₁ hm₁
    have hrank : rank (.inode n) = 2 := by
      simp only [rank, if_neg hfresh₁.notRoot]
    have hlock : (.openFileLock, .write) ∈
        [(Lock.inode n, Mode.write), (Lock.openFileLock, Mode.write)] :=
      List.mem_cons_of_mem _ List.mem_cons_self
    rw [index?_natCast]
    simp only [Prog.bind_assoc]
    refine wp_lock fun w₂ hrely₂ _ => ⟨hbelow.mono (two_le_rank_inode n), fun _ => ?_⟩
    rcases hfresh₁.rely hrely₂ List.mem_cons_self with ⟨hfresh₂, hinode₂⟩
    have hm₂ := hm₁.rely hrely₂ List.mem_cons_self
    -- both locks are given back in the order in which they were taken
    have hleave : ∀ opened w₃, (∀ w₄, KeepsEntries w₃.state w₄.state →
          DirWp opensOnly may Q (k opened) [] w₄) →
        DirWp opensOnly may Q ((unlock Lock.openFileLock).bind fun _ =>
          (unlock (Lock.inode n)).bind fun _ => (ret opened).bind k)
          [(.inode n, .write), (.openFileLock, .write)] w₃ := by
      intro opened w₃ hopened
      refine wp_unlock fun w₄ hrely₄ _ => ⟨fun _ => trivial, ?_⟩
      rw [dropLock_cons_of_ne (by simp), dropLock_cons_self]
      refine wp_unlock fun w₅ hrely₅ _ => ⟨fun _ => trivial, ?_⟩
      rw [dropLock_cons_self]
      exact hopened w₅ ((rely_entries hrely₄).trans (rely_entries hrely₅))
    refine addDirEntry_wp ((hbelow.mono (by decide)).cons (hrank.trans_lt (by decide))) hlock hname
      hfresh₂ (fun ho => (hfree ho).of_bytes hm₂) ?_ ?_
    · intro w₃ hrely₃ _
      rcases hfresh₂.rely hrely₃ hlock with ⟨hfresh₃, hinode₃⟩
      rw [if_pos rfl]
      simp only [Prog.bind_assoc]
      refine inodeDelete_wp hlock hfresh₃ ?_ fun _ w₄ => hleave none w₄ fun w₅ _ => hnone w₅
      rw [hinode₃, hinode₂]
      exact hsize₁
    · intro w₃ hfile₃ hmaps₃
      rw [if_neg (by decide)]
      simp only [Prog.bind_assoc]
      refine hleave _ w₃ fun w₄ hkeeps => hnew n w₄ (hfile₃.keeps hkeeps) fun ho =>
        (hmaps₃ ho).keeps hkeeps ?_
      simpa using hname

/-! ## `tfs_open` -/

theorem tfsOpen_wp {k : Int → Op α} {name : CString} {flags : BitVec 32}
    (hlen : opensOnly → name.tail.bytes.length ≤ 39)
    (hfail : ∀ w', DirWp opensOnly may Q (k (-1)) [] w')
    (hopened : ∀ (h : Fin maxOpenFiles) w', (opensOnly → ∃ n, OpenFor w'.state h n ∧
        Maps w'.state name.tail.bytes n) → DirWp opensOnly may Q (k ((h : Nat) : Int)) [] w') :
    DirWp opensOnly may Q ((tfsOpen name flags).bind k) [] w := by
  unfold tfsOpen
  split
  · rename_i hvalid
    have hname := tail_ne_nil hvalid
    -- a name of at most 39 bytes is stored and compared as it is
    have htake : ∀ {c}, 39 ≤ c → opensOnly → name.tail.bytes.take c = name.tail.bytes :=
      fun hc ho => List.take_of_length_le ((hlen ho).trans hc)
    -- the handle is added when all locks have been given back
    have hadd : ∀ inum offset w', FileNumber w'.state inum →
        (opensOnly → Maps w'.state name.tail.bytes inum) →
        DirWp opensOnly may Q ((addToOpenFileTable inum offset).bind k) [] w' := by
      intro inum offset w' hfile hmaps
      refine addToOpenFileTable_wp below_nil hfile (fun w₁ _ _ => hfail w₁) fun h w₁ hkeeps hopen =>
        hopened h w₁ fun ho => ⟨inum, hopen ho, (hmaps ho).keeps hkeeps hname⟩
    simp only [bind_eq, pure_eq, Prog.bind_assoc]
    refine wp_lock fun w₁ _ hinv₁ => ⟨below_nil, fun _ => ?_⟩
    refine tfsLookup_wp (below_nil.cons (by decide)) hvalid ?_ ?_
    · intro r w₂ _ hinv₂ hmaps₂
      rcases hmaps₂ with ⟨hr, i, hi, hentry⟩
      rcases hinv₂.numbers i (by rw [hi]; exact hr) with ⟨n, hn, -, -⟩
      have hpos : 0 ≤ r := by
        rw [← hi, hn]
        exact Int.natCast_nonneg _
      rw [if_pos hpos, Prog.bind_assoc]
      refine openExisting_wp ⟨hr, i, hi⟩ fun opened w₃ hres hkeeps₃ => ?_
      rcases hres with rfl | ⟨offset, rfl⟩
      · exact hfail w₃
      · refine hadd r offset w₃ (FileNumber.keeps (Or.inr ⟨hr, i, hi⟩) hkeeps₃) fun ho => ?_
        refine Maps.keeps hkeeps₃ hname ⟨hr, i, hi, ?_⟩
        rw [hentry, htake (by decide) ho]
    · intro hnot w₂ hrely₂ _
      rw [if_neg (by decide)]
      split
      · rw [Prog.bind_assoc]
        refine openCreated_wp hname ?_ (fun w₃ => hfail w₃) fun n w₃ hfile₃ hmaps₃ => ?_
        · intro ho
          exact (nameFree_of_not_maps hinv₁ hname (hlen ho) hnot).rely hrely₂ List.mem_cons_self
        · refine hadd _ _ w₃ hfile₃ fun ho => ?_
          rw [← htake le_rfl ho]
          exact hmaps₃ ho
      · simp only [Prog.bind_assoc]
        refine wp_unlock fun w₃ _ _ => ⟨fun _ => trivial, ?_⟩
        rw [dropLock_cons_self]
        exact hfail w₃
  · exact hfail w

/-! ## Runs of `tfs_open` and `tfs_lookup` -/

/-- A path: `/` and 1 to 39 bytes. -/
def ShortPath (name : CString) : Prop :=
  name.bytes.head? = some '/'.toUInt8 ∧ 2 ≤ name.bytes.length ∧ name.bytes.length ≤ 40

instance (name : CString) : Decidable (ShortPath name) := inferInstanceAs (Decidable (_ ∧ _ ∧ _))

/-- `tfs_lookup` and `tfs_open`, with any flags, on such a path. -/
def CreationCall : Call → Prop
  | .lookup name => ShortPath name
  | .open name _ => ShortPath name
  | _ => False

instance : DecidablePred CreationCall
  | .lookup name => inferInstanceAs (Decidable (ShortPath name))
  | .open name _ => inferInstanceAs (Decidable (ShortPath name))
  | .close _ => isFalse id
  | .write _ _ => isFalse id
  | .read _ _ => isFalse id

theorem ShortPath.valid {name : CString} (h : ShortPath name) :
    validPathname name = true ∧ name.tail.bytes.length ≤ 39 := by
  rcases h with ⟨hhead, htwo, hforty⟩
  refine ⟨?_, ?_⟩
  · rw [validPathname, hhead]
    exact Bool.and_eq_true_iff.mpr ⟨decide_eq_true htwo, beq_self_eq_true _⟩
  · simp only [CString.tail, List.length_tail]
    omega

/-- The file with this number is listed under the path. -/
def NameOf (fs : FS) (name : CString) (n : Int) : Prop :=
  name.tail.bytes ≠ [] ∧ Maps fs name.tail.bytes n

/-- What the answer to a call says about the directory and the handles. -/
def Answer (fs : FS) : Call → Ret → Prop
  | .lookup name, r => 0 ≤ r.value → NameOf fs name r.value
  | .open name _, r => 0 ≤ r.value → ∃ (h : Fin maxOpenFiles) (n : Int),
      r.value = ((h : Nat) : Int) ∧ OpenFor fs h n ∧ NameOf fs name n
  | _, _ => True

/-- A lookup answers what earlier lookups of the path have answered. -/
def Agrees {T : Type} (c : Call) (before : List (Done T Call Ret)) (r : Ret) : Prop :=
  ∀ name, c = .lookup name → ∀ d ∈ before, d.call = .lookup name → 0 ≤ d.result.value →
    r.value = d.result.value

def creationContract (T : Type) : Contract T FS Lock Cond Call Ret Unit where
  allowed := CreationCall
  may _ _ _ := True
  post c before r w := Answer w.state c r ∧ Agrees c before r
  weight _ _ := ()
  J log w := ∀ d ∈ log, d.start ≤ log.length ∧ Answer w.state d.call d.result ∧
    Agrees d.call (log.take d.start) d.result

theorem Answer.guar {fs fs' : FS} (h : DirGuar True held fs fs') {c : Call} {r : Ret}
    (hanswer : Answer fs c r) : Answer fs' c r := by
  cases c with
  | lookup name =>
      intro hr
      rcases hanswer hr with ⟨hne, hmaps⟩
      exact ⟨hne, hmaps.keeps h.entries hne⟩
  | «open» name flags =>
      intro hr
      rcases hanswer hr with ⟨i, n, hi, ⟨htaken, hnumber⟩, hne, hmaps⟩
      rcases h.handles trivial i htaken with ⟨htaken', hnumber'⟩
      exact ⟨i, n, hi, ⟨htaken', hnumber'.trans hnumber⟩, hne, hmaps.keeps h.entries hne⟩
  | close _ => trivial
  | write _ _ => trivial
  | read _ _ => trivial

theorem NameOf.unique {fs : FS} {name : CString} {n m : Int} (hinv : DirInv True fs)
    (hn : NameOf fs name n) (hm : NameOf fs name m) : n = m :=
  Maps.unique hinv trivial hn.1 hn.2 hm.2

theorem lookup_meets {T : Type} {log : List (Done T Call Ret)} {name : CString}
    (hpath : ShortPath name) (hJ : (creationContract T).J log w) :
    DirWp True may ((creationContract T).Post (.lookup name) log) (exec (.lookup name)) [] w := by
  rcases hpath.valid with ⟨hvalid, hlen⟩
  have hne := tail_ne_nil hvalid
  have htake : name.tail.bytes.take maxFileName = name.tail.bytes :=
    List.take_of_length_le (hlen.trans (by decide))
  -- what earlier lookups have answered
  have hpast : ∀ d ∈ log, d.call = .lookup name → 0 ≤ d.result.value →
      Maps w.state name.tail.bytes d.result.value := by
    intro d hd hcall hpos
    have hanswer := (hJ d hd).2.1
    rw [hcall] at hanswer
    exact (hanswer hpos).2
  rw [exec]
  refine tfsLookup_wp below_nil hvalid ?_ ?_
  · intro r w₁ hrely₁ hinv₁ hmaps₁
    rw [htake] at hmaps₁
    refine wp_ret fun w₂ hrely₂ _ => ⟨rfl, rfl, ?_, ?_⟩
    · exact fun _ => ⟨hne, hmaps₁.keeps (rely_entries hrely₂) hne⟩
    · intro name' hcall d hd hcall' hpos
      cases hcall
      exact hmaps₁.unique hinv₁ trivial hne
        ((hpast d hd hcall' hpos).keeps (rely_entries hrely₁) hne)
  · intro hnot w₁ _ _
    rw [htake] at hnot
    refine wp_ret fun w₂ _ _ => ⟨rfl, rfl, ?_, ?_⟩
    · intro hneg
      exact absurd hneg (by decide)
    · intro name' hcall d hd hcall' hpos
      cases hcall
      exact absurd (hpast d hd hcall' hpos) (hnot _)

theorem open_meets {T : Type} {log : List (Done T Call Ret)} {name : CString} {flags : BitVec 32}
    (hpath : ShortPath name) :
    DirWp True may ((creationContract T).Post (.open name flags) log) (exec (.open name flags)) []
      w := by
  rcases hpath.valid with ⟨hvalid, hlen⟩
  have hagrees : ∀ r, Agrees (.open name flags) log r := fun r name' hcall => nomatch hcall
  rw [exec]
  refine tfsOpen_wp (fun _ => hlen) ?_ ?_
  · intro w₁
    refine wp_ret fun w₂ _ _ => ⟨rfl, rfl, ?_, hagrees _⟩
    intro hneg
    exact absurd hneg (by decide)
  · intro h w₁ hopened
    rcases hopened trivial with ⟨n, hopen, hmaps⟩
    refine wp_ret fun w₂ hrely₂ _ => ⟨rfl, rfl, fun _ => ⟨h, n, rfl, hopen.rely trivial hrely₂,
      tail_ne_nil hvalid, hmaps.keeps (rely_entries hrely₂) (tail_ne_nil hvalid)⟩, hagrees _⟩

theorem creation_meets {T : Type} :
    Meets (dirDiscipline True) (creationContract T) exec where
  start := by
    intro c log w rest hallowed _ hJ _
    cases c with
    | lookup name => exact lookup_meets hallowed hJ
    | «open» name flags => exact open_meets hallowed
    | close _ => exact hallowed.elim
    | write _ _ => exact hallowed.elim
    | read _ _ => exact hallowed.elim
  done := by
    intro t c log before r w _ hJ hbefore hpost d hd
    have hlen := hbefore.length_le
    rw [List.length_append, List.length_singleton]
    rcases List.mem_append.mp hd with hd | hd
    · rcases hJ d hd with ⟨hstart, hanswer, hagrees⟩
      rw [List.take_append_of_le_length hstart]
      exact ⟨by omega, hanswer, hagrees⟩
    · rw [List.mem_singleton] at hd
      subst hd
      have htake : (log ++ [(⟨t, c, r, before.length⟩ : Done T Call Ret)]).take before.length =
          before := by
        rw [List.take_append_of_le_length hlen]
        exact (List.prefix_iff_eq_take.mp hbefore).symm
      rw [htake]
      exact ⟨by simp only; omega, hpost.1, hpost.2⟩
  J_guar := by
    intro held log w w' _ _ hguar _ hJ d hd
    rcases hJ d hd with ⟨hstart, hanswer, hagrees⟩
    exact ⟨hstart, hanswer.guar hguar, hagrees⟩
  J_quieter := by
    intro log w w' _ hquiet hJ d hd
    rw [hquiet.1]
    exact hJ d hd
  single := fun hsingle => hsingle.elim

/-- What concurrent creation keeps. -/
structure CreationAtomic {T : Type} (cfg : Config T FS Lock Cond Call Ret) : Prop where
  /-- A name has at most one entry of the root directory. -/
  oneEntry : ∀ i j, entryNumber cfg.state i ≠ -1 → entryNumber cfg.state j ≠ -1 →
    entryName cfg.state i ≠ [] → entryName cfg.state i = entryName cfg.state j → i = j
  /-- The numbers in the entries are pairwise distinct, and those of i-nodes in use. -/
  distinct : ∀ i j, entryNumber cfg.state i ≠ -1 →
    entryNumber cfg.state i = entryNumber cfg.state j → i = j
  taken : ∀ i, entryNumber cfg.state i ≠ -1 → ∃ n : Fin inodeTableSize,
    entryNumber cfg.state i = ((n : Nat) : Int) ∧ cfg.state.freeinodeTs n = .taken
  /-- All handles returned for a path are of one i-node. -/
  sameInode : ∀ name flags flags', ∀ d ∈ cfg.log, ∀ d' ∈ cfg.log, d.call = .open name flags →
    d'.call = .open name flags' → 0 ≤ d.result.value → 0 ≤ d'.result.value →
    ∃ h h' : Fin maxOpenFiles, d.result.value = ((h : Nat) : Int) ∧
      d'.result.value = ((h' : Nat) : Int) ∧
      (cfg.state.openFileTable h).ofInumber = (cfg.state.openFileTable h').ofInumber
  /-- A lookup that began after one of the same path had found it finds the same file. -/
  sameAnswer : ∀ name, ∀ d' ∈ cfg.log, ∀ d ∈ cfg.log.take d'.start, d.call = .lookup name →
    d'.call = .lookup name → 0 ≤ d.result.value → d'.result.value = d.result.value

/-- In every run of `tfs_open` and `tfs_lookup` on `/` and 1 to 39 bytes, whatever the flags
and the schedule, creation is atomic. -/
theorem creation_atomic {T : Type} [DecidableEq T] [Fintype T]
    {cfg : Config T FS Lock Cond Call Ret}
    (hreach : Reach exec machine.init (Starts CreationCall) cfg) : CreationAtomic cfg := by
  have hfollows : ∀ cfg t cfg', Starts (T := T) CreationCall cfg t cfg' →
      Follows (dirDiscipline True) (creationContract T) cfg t cfg' := by
    intro cfg t cfg' hstarts
    exact ⟨fun task hidle htask => hstarts hidle task htask, fun _ _ => trivial,
      fun _ _ hshared => absurd trivial hshared⟩
  rcases hreach.sound creation_meets (dirInv_start (dirInv_init True)) (fun _ => trivial)
    (fun _ hd => absurd hd List.not_mem_nil) hfollows with ⟨b, g, hsound⟩
  have hinv : DirInv True cfg.state := hsound.inv
  have hanswer : ∀ d ∈ cfg.log, Answer cfg.state d.call d.result := fun d hd =>
    (hsound.log d hd).2.1
  refine
    { oneEntry := fun i j _ _ => hinv.unique trivial i j
      distinct := hinv.distinct
      taken := ?_
      sameInode := ?_
      sameAnswer := ?_ }
  · intro i hi
    rcases hinv.numbers i hi with ⟨n, hn, -, htaken⟩
    exact ⟨n, hn, htaken⟩
  · intro name flags flags' d hd d' hd' hcall hcall' hpos hpos'
    have hd := hanswer d hd
    have hd' := hanswer d' hd'
    rw [hcall] at hd
    rw [hcall'] at hd'
    rcases hd hpos with ⟨h, n, hh, hopen, hname⟩
    rcases hd' hpos' with ⟨h', n', hh', hopen', hname'⟩
    refine ⟨h, h', hh, hh', ?_⟩
    rw [hopen.2, hopen'.2]
    exact hname.unique hinv hname'
  · intro name d' hd' d hd hcall hcall' hpos
    exact (hsound.log d' hd').2.2 name hcall' d hd hcall hpos

/-- Two threads create the same file at the same time, and each looks it up. -/
theorem creation_atomic_two :
    ∃ cfg : Config (Fin 2) FS Lock Cond Call Ret,
      (cfg.log.map fun d => d.result.value) = [0, 1, 1, 1] ∧ CreationAtomic cfg := by
  have hplay : ((Config.init initialFS).play exec (Starts CreationCall)
      ((0, some (.open pathA 1)) :: List.replicate 20 (0, none) ++
        (1, some (.open pathA 1)) :: List.replicate 84 (0, none) ++
        (0, some (.lookup pathA)) :: List.replicate 22 (1, none) ++
        List.replicate 8 (0, none) ++
        (1, some (.lookup pathA)) :: List.replicate 8 (1, none))).map
      (fun cfg : Config (Fin 2) FS Lock Cond Call Ret =>
        decide ((cfg.log.map fun d => d.result.value) = [0, 1, 1, 1])) = some true := by
    decide +kernel
  rcases Option.map_eq_some_iff.mp hplay with ⟨cfg, hplay, hfacts⟩
  have hreach : Reach exec machine.init (Starts CreationCall) cfg := by
    rw [machine_init]
    exact Reach.init.play hplay
  exact ⟨cfg, of_decide_eq_true hfacts, creation_atomic hreach⟩

end TecnicoFS.Part1
