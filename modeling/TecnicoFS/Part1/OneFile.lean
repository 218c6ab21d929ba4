import TecnicoFS.Part1.Start
import TecnicoFS.Lib.Serial
import TecnicoFS.Lib.Schedule

/-!
# Part 1: reads and writes of one file

`tfs_read` and `tfs_write` take the lock of the handle, then the lock of the i-node, and do all
their work before they give that one back: the offset, the size, the block map and the
allocations of a call are one critical section of the file. So any number of threads reading
and writing one file, through shared or distinct handles, end as some sequential order of
their calls does.
-/

namespace TecnicoFS.Part1

open Threads Threads.Prog
open Part2 (Call Ret blockSize dataBlocks inodeTableSize maxOpenFiles blockAddr dataBlockGet
  inodeGet getOpenFileEntry)

/-- Every handle refers to the i-node it referred to. -/
def SameFiles (fs₀ fs : FS) : Prop :=
  ∀ h, (fs.openFileTable h).ofInumber = (fs₀.openFileTable h).ofInumber

/-- A condition on the open file table alone. -/
def OfHandles (I : FS → Prop) : Prop :=
  ∀ fs fs', I fs → fs'.openFileTable = fs.openFileTable → I fs'

/-- A condition that does not depend on blocks, nor on which of them belong to the i-node. -/
structure OfBlocks (n : Fin inodeTableSize) (I : FS → Prop) : Prop where
  marks : ∀ {fs b state}, I fs → I (fs.setBlockState b state)
  data : ∀ {fs m}, I fs → I (fs.setData m)
  inode : ∀ {fs direct table}, I fs → I (fs.setInode n
    { fs.inodeTable n with iDataBlock := direct, iIndirectDataBlock := table })

variable {fs₀ : FS} {n : Fin inodeTableSize} {h : Fin maxOpenFiles}

theorem SameFiles.setOffset {fs : FS} (hsame : SameFiles fs₀ fs) (offset : Nat) :
    SameFiles fs₀ (fs.setHandle h { fs.openFileTable h with ofOffset := offset }) := by
  intro i
  rw [← hsame i]
  by_cases hi : i = h
  · subst hi
    simp
  · simp [hi]

theorem SameFiles.ofHandles : OfHandles (SameFiles fs₀) := by
  intro fs fs' hsame heq h
  rw [heq]
  exact hsame h

/-! ## Blocks -/

section

variable {I : FS → Prop} {g : Lock}

theorem OfHandles.ofBlocks (hI : OfHandles I) : OfBlocks n I :=
  ⟨fun hs => hI _ _ hs rfl, fun hs => hI _ _ hs rfl, fun hs => hI _ _ hs rfl⟩

theorem store?_data {fs fs' : FS} {a : Nat} {bs : List UInt8}
    (hstore : fs.store? a bs = some fs') : ∃ m, fs' = fs.setData m := by
  unfold FS.store? at hstore
  split at hstore
  · cases hstore
    exact ⟨_, rfl⟩
  · cases hstore

theorem OfBlocks.store? (hI : OfBlocks n I) {fs fs' : FS} {a : Nat} {bs : List UInt8} (hs : I fs)
    (hstore : fs.store? a bs = some fs') : I fs' := by
  rcases store?_data hstore with ⟨m, rfl⟩
  exact hI.data hs

theorem allocFirst_keeps (hg : ∀ b, Lock.dataBlock b ≠ g) (hI : OfBlocks n I)
    (bs : List (Fin dataBlocks)) : Keeps g I (allocFirst bs) := by
  induction bs with
  | nil => trivial
  | cons b bs ih =>
      rw [allocFirst]
      refine Keeps.bind (keeps_lock (hg b)) fun _ => Keeps.bind (keeps_read _) fun state => ?_
      split
      · refine Keeps.bind (keeps_modify fun _ hs => hI.marks hs) fun _ => ?_
        exact Keeps.bind (keeps_unlock (hg b)) fun _ => trivial
      · exact Keeps.bind (keeps_unlock (hg b)) fun _ => ih

theorem dataBlockAlloc_keeps (hg : ∀ b, Lock.dataBlock b ≠ g) (hI : OfBlocks n I) :
    Keeps g I dataBlockAlloc := by
  rw [dataBlockAlloc_eq]
  generalize List.finRange dataBlocks = bs
  exact allocFirst_keeps hg hI bs

/-- The end of the functions that find a block: it is looked up again if there is one. -/
theorem found_keeps {f : FS → Option (Fin dataBlocks)} (there : Bool) :
    Keeps g I (if there then Prog.read f else ret none : Op (Option (Fin dataBlocks))) := by
  split
  · exact keeps_read _
  · trivial

theorem writeDirect_keeps (hg : ∀ b, Lock.dataBlock b ≠ g) (hI : OfBlocks n I)
    (i : Fin maxDirectBlocks) : Keeps g I (writeDirect n i) := by
  rw [writeDirect]
  refine Keeps.bind (keeps_read _) fun block => ?_
  simp only [bind_eq, pure_eq]
  split
  · refine Keeps.bind (dataBlockAlloc_keeps hg hI) fun b => ?_
    exact Keeps.bind (keeps_modify fun _ hs => hI.inode hs) fun _ => found_keeps _
  · exact found_keeps true

theorem clearIndirect_keeps (hI : OfBlocks n I) (table : Fin dataBlocks) (count : Nat) :
    Keeps g I (clearIndirect table count) := by
  induction count with
  | zero => trivial
  | succ count ih =>
      rw [clearIndirect]
      exact Keeps.bind ih fun _ => keeps_modify? fun _ _ hs hstore => hI.store? hs hstore

theorem writeIndirectTable_keeps (hg : ∀ b, Lock.dataBlock b ≠ g) (hI : OfBlocks n I) :
    Keeps g I (writeIndirectTable n) := by
  rw [writeIndirectTable]
  refine Keeps.bind (keeps_read _) fun block => ?_
  simp only [bind_eq, pure_eq]
  split
  · refine Keeps.bind (dataBlockAlloc_keeps hg hI) fun b => ?_
    refine Keeps.bind (keeps_modify fun _ hs => hI.inode hs) fun _ => ?_
    split
    · trivial
    · generalize blockSize - maxDirectBlocks = count
      exact Keeps.bind (clearIndirect_keeps hI _ count) fun _ => found_keeps true
  · exact found_keeps true

theorem writeIndirect_keeps (hg : ∀ b, Lock.dataBlock b ≠ g) (hI : OfBlocks n I) (i : Nat) :
    Keeps g I (writeIndirect n i) := by
  rw [writeIndirect]
  refine Keeps.bind (writeIndirectTable_keeps hg hI) fun table => ?_
  simp only [bind_eq, pure_eq]
  split
  · trivial
  · split
    · trivial
    · refine Keeps.bind (keeps_read _) fun block => ?_
      split
      · refine Keeps.bind (dataBlockAlloc_keeps hg hI) fun b => ?_
        exact Keeps.bind (keeps_modify? fun _ _ hs hstore => hI.store? hs hstore)
          fun _ => found_keeps _
      · exact found_keeps true

theorem writeBlock_keeps (hg : ∀ b, Lock.dataBlock b ≠ g) (hI : OfBlocks n I) (i : Nat) :
    Keeps g I (writeBlock n i) := by
  unfold writeBlock
  split
  · exact writeDirect_keeps hg hI _
  · exact writeIndirect_keeps hg hI i

theorem readBlock_keeps (i : Nat) : Keeps g I (readBlock n i) := by
  unfold readBlock
  split
  · exact keeps_read _
  · refine Keeps.bind (keeps_read _) fun table => ?_
    simp only [pure_eq]
    split
    · trivial
    · split
      · trivial
      · exact keeps_read _

end

/-! ## The critical section -/

theorem copyIn_keeps (b : Fin dataBlocks) (bytes : List UInt8) :
    Keeps (.inode n) (SameFiles fs₀) (copyIn h b bytes) :=
  keeps_modify? fun _ _ hsame hstore =>
    OfBlocks.store? (n := n) SameFiles.ofHandles.ofBlocks hsame hstore

theorem advance_keeps (count : Nat) : Keeps (.inode n) (SameFiles fs₀)
    (Prog.modify fun fs : FS => fs.advance h n count : Op Unit) :=
  keeps_modify fun _ hsame => hsame.setOffset _

theorem copyOut_keeps (b : Fin dataBlocks) (offset count : Nat) :
    Keeps (.inode n) (SameFiles fs₀) (copyOut h b offset count) := by
  unfold copyOut
  split
  · refine Keeps.bind (keeps_read _) fun bytes => ?_
    exact Keeps.bind (keeps_modify fun _ hsame => hsame.setOffset _) fun _ => trivial
  · trivial

/-- `leave` gives the handle back, then the i-node. -/
theorem leave_inside {α β : Type} (value : α) (f : α → β) :
    Inside (.inode n) (SameFiles fs₀) ((leave h n value).bind fun a => (ret (f a) : Op β)) :=
  Or.inl ⟨by simp, Or.inr ⟨rfl, f value, rfl⟩⟩

theorem writeLoop_inside {β : Type} (f : Int → β) (last left i : Nat) (buffer : List UInt8)
    (written : Nat) : Inside (.inode n) (SameFiles fs₀)
      ((writeLoop h n last left i buffer written).bind fun r => (ret (f r) : Op β)) := by
  induction left generalizing i buffer written with
  | zero => exact leave_inside _ f
  | succ left ih =>
      rw [writeLoop]
      simp only [bind_eq, Prog.bind_assoc]
      refine Inside.bind (writeBlock_keeps (g := .inode n) (fun _ => by simp)
        SameFiles.ofHandles.ofBlocks i) fun block => ?_
      split
      · exact leave_inside _ f
      · rw [Prog.bind_assoc]
        refine Inside.bind (keeps_read _) fun offset => ?_
        split
        · simp only [Prog.bind_assoc]
          refine Inside.bind (copyIn_keeps _ _) fun _ => ?_
          exact Inside.bind (advance_keeps _) fun _ => ih _ _ _
        · split
          · simp only [Prog.bind_assoc]
            refine Inside.bind (copyIn_keeps _ _) fun _ => ?_
            exact Inside.bind (advance_keeps _) fun _ => leave_inside _ f
          · simp only [Prog.bind_assoc]
            refine Inside.bind (copyIn_keeps _ _) fun _ => ?_
            exact Inside.bind (advance_keeps _) fun _ => ih _ _ _

theorem readLoop_inside {β : Type} (f : Int × List UInt8 → β) (last left i toRead : Nat)
    (bytes : List UInt8) : Inside (.inode n) (SameFiles fs₀)
      ((readLoop h n last left i toRead bytes).bind fun r => (ret (f r) : Op β)) := by
  induction left generalizing i toRead bytes with
  | zero => exact leave_inside _ f
  | succ left ih =>
      rw [readLoop]
      simp only [bind_eq, Prog.bind_assoc]
      refine Inside.bind (readBlock_keeps i) fun block => ?_
      split
      · exact leave_inside _ f
      · rw [Prog.bind_assoc]
        refine Inside.bind (keeps_read _) fun offset => ?_
        split
        · simp only [Prog.bind_assoc]
          exact Inside.bind (copyOut_keeps _ _ _) fun more => ih _ _ _
        · split
          · simp only [Prog.bind_assoc]
            exact Inside.bind (copyOut_keeps _ _ _) fun more => leave_inside _ f
          · simp only [Prog.bind_assoc]
            generalize blockSize = size
            exact Inside.bind (copyOut_keeps _ _ _) fun more => ih _ _ _

/-! ## The calls -/

/-- A read or a write of at least one byte through a handle of the i-node `n`. -/
def OnFile (fs : FS) (n : Fin inodeTableSize) : Call → Prop
  | .read fhandle len => 0 < len ∧ ∃ h : Fin maxOpenFiles, fhandle = ((h : Nat) : Int) ∧
      (fs.openFileTable h).ofInumber = ((n : Nat) : Int)
  | .write fhandle buffer => buffer ≠ [] ∧ ∃ h : Fin maxOpenFiles, fhandle = ((h : Nat) : Int) ∧
      (fs.openFileTable h).ofInumber = ((n : Nat) : Int)
  | _ => False

instance (fs : FS) (n : Fin inodeTableSize) : DecidablePred (OnFile fs n)
  | .lookup _ => isFalse id
  | .open _ _ => isFalse id
  | .close _ => isFalse id
  | .write fhandle buffer => inferInstanceAs (Decidable (buffer ≠ [] ∧
      ∃ h : Fin maxOpenFiles, fhandle = ((h : Nat) : Int) ∧
        (fs.openFileTable h).ofInumber = ((n : Nat) : Int)))
  | .read fhandle len => inferInstanceAs (Decidable (0 < len ∧
      ∃ h : Fin maxOpenFiles, fhandle = ((h : Nat) : Int) ∧
        (fs.openFileTable h).ofInumber = ((n : Nat) : Int)))

/-- A call takes the lock of its handle and reads which i-node it is of; that is the same in
every state. -/
theorem entering_handle {β : Type} {k : Int → Op β}
    (hn : (fs₀.openFileTable h).ofInumber = ((n : Nat) : Int))
    (hk : Entering (.inode n) (SameFiles fs₀) (k ((n : Nat) : Int))) :
    Entering (.inode n) (SameFiles fs₀) ((lock (.openFile h)).bind fun _ =>
      (Prog.read fun fs : FS => (fs.openFileTable h).ofInumber).bind k) := by
  have hread : ∀ fs, SameFiles fs₀ fs → (fs.openFileTable h).ofInumber = ((n : Nat) : Int) :=
    fun fs hsame => (hsame h).trans hn
  refine entering_lock_of_ne (by simp)
    (entering_read (fun fs fs' hsame hsame' => ?_) fun fs hsame => ?_)
  · rw [hread fs hsame, hread fs' hsame']
  · rw [hread fs hsame]
    exact hk

theorem onFile_entering {c : Call} (hc : OnFile fs₀ n c) :
    Entering (.inode n) (SameFiles fs₀) (exec c) := by
  have hget : inodeGet ((n : Nat) : Int) = some n := index?_natCast n
  cases c with
  | read fhandle len =>
      rcases hc with ⟨-, h, rfl, hn⟩
      have hhandle : getOpenFileEntry ((h : Nat) : Int) = some h := index?_natCast h
      rw [exec, tfsRead, hhandle]
      simp only [bind_eq, pure_eq, Prog.bind_assoc]
      refine entering_handle hn ?_
      rw [hget]
      simp only [Prog.bind_assoc]
      refine entering_lock ?_
      refine Inside.bind (keeps_read _) fun offset => ?_
      refine Inside.bind (keeps_read _) fun size => ?_
      split
      · exact leave_inside _ _
      · exact readLoop_inside _ _ _ _ _ _
  | write fhandle buffer =>
      rcases hc with ⟨hbuffer, h, rfl, hn⟩
      have hhandle : getOpenFileEntry ((h : Nat) : Int) = some h := index?_natCast h
      rw [exec, tfsWrite, hhandle]
      simp only [bind_eq, pure_eq, Prog.bind_assoc]
      refine entering_handle hn ?_
      rw [hget]
      simp only [Prog.bind_assoc]
      refine entering_lock ?_
      rw [if_neg (by simpa using hbuffer), Prog.bind_assoc]
      exact Inside.bind (keeps_read _) fun offset => writeLoop_inside _ _ _ _ _ _
  | _ => exact hc.elim

/-! ## Serialisability -/

/-- A sequential order is a run of the machine. -/
theorem run_of_serial {order : List (Call × Ret)} {fs fs' : FS}
    (hserial : Serial exec fs order fs') :
    machine.run fs (order.map Prod.fst) = some (order.map Prod.snd, fs') := by
  induction hserial with
  | nil => rfl
  | snoc _ hexec ih =>
      rw [List.map_append, List.map_append]
      exact Machine.run_snoc ih hexec

/-- From any state, with any number of threads that read and write one file through their
handles, every interleaving in which all calls have returned ends as some sequential order of
the same calls does: every call returns and delivers the same, and the whole state is the
same. Each thread's calls are in the order in which it made them. -/
theorem reads_writes_serialisable {T : Type} [DecidableEq T] {fs : FS} {n : Fin inodeTableSize}
    {cfg : Config T FS Lock Cond Call Ret}
    (hreach : Reach exec fs (Starts (OnFile fs n)) cfg) (hidle : ∀ t, cfg.task t = none) :
    ∃ order : List (Entry T Call Ret), order.Perm (logged cfg.log) ∧
      (∀ t, entriesOf t order = entriesOf t (logged cfg.log)) ∧
      machine.run fs (order.map fun e => e.2.1) =
        some (order.map fun e => e.2.2, cfg.state) := by
  rcases hreach.serial (fun _ => rfl) (fun _ hc => onFile_entering hc) hidle with
    ⟨order, hentries, hserial⟩
  refine ⟨order, perm_of_entriesOf hentries, hentries, ?_⟩
  have hrun := run_of_serial hserial
  rwa [List.map_map, List.map_map] at hrun

/-- A thread reads a new file through one handle while another one writes it through a second
handle: the read waits for the write. -/
theorem reads_writes_serialisable_two :
    ∃ (fs : FS) (cfg : Config (Fin 2) FS Lock Cond Call Ret),
      machine.run machine.init [.open pathA 1, .open pathA 0] = some ([⟨0, []⟩, ⟨1, []⟩], fs) ∧
      (cfg.log.map fun d => d.result) = [⟨3, []⟩, ⟨3, [1, 2, 3]⟩] ∧
      ∃ order : List (Entry (Fin 2) Call Ret), order.Perm (logged cfg.log) ∧
        (∀ t, entriesOf t order = entriesOf t (logged cfg.log)) ∧
        machine.run fs (order.map fun e => e.2.1) =
          some (order.map fun e => e.2.2, cfg.state) := by
  have hplay : ((machine.run initialFS [.open pathA 1, .open pathA 0]).bind fun opened =>
      ((Config.init opened.2).play exec (Starts (OnFile opened.2 1))
        ((0, some (.write 0 [1, 2, 3])) :: List.replicate 5 (0, none) ++
          (1, some (.read 1 3)) :: List.replicate 2 (1, none) ++ List.replicate 15 (0, none) ++
          List.replicate 10 (1, none))).map
        (fun cfg : Config (Fin 2) FS Lock Cond Call Ret =>
          decide (opened.1 = [⟨0, []⟩, ⟨1, []⟩] ∧ (∀ t, (cfg.task t).isNone) ∧
            (cfg.log.map fun d => d.result) = [⟨3, []⟩, ⟨3, [1, 2, 3]⟩]))) = some true := by
    decide +kernel
  rcases Option.bind_eq_some_iff.mp hplay with ⟨⟨opened, fs⟩, hopened, hplay⟩
  rcases Option.map_eq_some_iff.mp hplay with ⟨cfg, hplay, hfacts⟩
  rcases of_decide_eq_true hfacts with ⟨rfl, hidle, hresults⟩
  refine ⟨fs, cfg, ?_, hresults, reads_writes_serialisable (Reach.init.play hplay)
    fun t => Option.isNone_iff_eq_none.mp (hidle t)⟩
  rw [machine_init]
  exact hopened

end TecnicoFS.Part1
