import TecnicoFS.Part1.ManyFiles

/-!
# Part 1: reads and writes of any length

`tfs_write` and `tfs_read` go wrong where they are asked for a whole number of blocks from inside a
block: the number of blocks they go through is one too low. As long as no call does that
(`AtBlock`), and no open truncates, reads and writes may have any lengths, also on one file, opens
may append, a read may come to the end of its file, and files may be copied out in between: every
call gives the result of the abstract file system `Abstract.anyLengths` (`any_lengths_runs`). The
invariant is that of runs in chunks of one byte.
-/

namespace TecnicoFS.Part1

open Threads Threads.Prog
open Part2 (Ret hasFlag tfsOCreat tfsOTrunc tfsOAppend blockSize inodeTableSize maxOpenFiles
  maxFileName maxDirEntries)
open Abstract (Store OpenHandle InChunks UserCall maxBlocks)

namespace Abstract

variable {s : Store} {o : OpenHandle} {c : UserCall} {fhandle : Int} {len : Nat}

/-- What is read or written is no whole number of blocks from inside a block. -/
def AtBlock (offset count : Nat) : Prop :=
  0 < count → count % blockSize ≠ 0 ∨ offset % blockSize = 0

instance (offset count : Nat) : Decidable (AtBlock offset count) :=
  inferInstanceAs (Decidable (_ → _))

/-- The calls of runs without truncation: paths fit into a directory entry, no open creates a file
too many, only open handles are used, every write has bytes and stays within the largest size of a
file and the number of blocks, and no call is for whole blocks from inside a block. -/
def AnyLength (s : Store) : UserCall → Prop
  | .call (.lookup path) => PathFits path
  | .call (.open path flags) =>
      PathFits path ∧ hasFlag flags tfsOTrunc = false ∧
        (hasFlag flags tfsOCreat = true → s.find path.tail.bytes = none →
          s.files.length < maxDirEntries)
  | .call (.close fhandle) => (s.opened fhandle).isSome
  | .call (.write fhandle buffer) =>
      (s.opened fhandle).isSome ∧ buffer ≠ [] ∧ ∀ o ∈ s.opened fhandle,
        AtBlock o.offset buffer.length ∧
          o.offset + buffer.length ≤ maxFileBlocks * blockSize ∧
            (s.write fhandle buffer).2.blocks ≤ maxBlocks
  | .call (.read fhandle len) =>
      (s.opened fhandle).isSome ∧ ∀ o ∈ s.opened fhandle,
        AtBlock o.offset (min (o.file.bytes.length - o.offset) len)
  | .copyOut path => PathFits path

instance : ∀ s c, Decidable (AnyLength s c)
  | _, .call (.lookup _) => inferInstanceAs (Decidable (_ ∧ _))
  | _, .call (.open _ _) => inferInstanceAs (Decidable ((_ ∧ _) ∧ _ ∧ (_ → _ → _)))
  | _, .call (.close _) => inferInstanceAs (Decidable (_ = true))
  | _, .call (.write _ _) => inferInstanceAs (Decidable (_ ∧ _ ∧ ∀ o ∈ _, _ ∧ _ ∧ _))
  | _, .call (.read _ _) => inferInstanceAs (Decidable (_ ∧ ∀ o ∈ _, _))
  | _, .copyOut _ => inferInstanceAs (Decidable (_ ∧ _))

/-- Sizes and offsets are in bounds: the invariant of runs in chunks of one byte. -/
abbrev InBounds (s : Store) : Prop := InChunks (fun _ => 1) s

theorem InBounds.readUpTo (hs : InBounds s) (ho : s.opened fhandle = some o) :
    InBounds (s.readUpTo fhandle len).2 := by
  obtain ⟨-, -, hle⟩ := hs.opened ho
  obtain ⟨-, -, hf⟩ := Store.opened_eq_some.mp ho
  rw [Store.readUpTo, ho]
  refine hs.setHandle fun e he => ?_
  cases he
  refine ⟨o.file, hf, one_dvd _, ?_⟩
  simp only [List.length_take, List.length_drop]
  omega

theorem InBounds.openAt {name : List UInt8} {flags : BitVec 32} (hs : InBounds s)
    (hnamed : name ≠ []) (hshort : name.length < maxFileName)
    (hcount : hasFlag flags tfsOCreat = true → s.find name = none →
      s.files.length < maxDirEntries) : InBounds (s.openAt name flags).2 := by
  rw [Store.openAt]
  cases hfind : s.find name with
  | some i =>
      obtain ⟨f, hf, -⟩ := Store.find_eq_some hfind
      refine hs.addHandleAt hf (one_dvd _) ?_
      rw [Store.bytes_eq hf]
      split
      · exact le_refl _
      · exact Nat.zero_le _
  | none =>
      dsimp only
      split
      · next hcreat =>
          have hnew : (s.create name).files[s.files.length]? = some ⟨name, []⟩ := by
            simp [Store.create]
          exact (hs.create (hcount hcreat hfind) hfind hnamed hshort).addHandle hnew
      · exact hs

/-- Every call keeps sizes and offsets in bounds. -/
theorem execAny_inBounds (hs : InBounds s) (hok : AnyLength s c) : InBounds (s.execAny c).2 := by
  cases c with
  | copyOut path => exact hs
  | call c =>
      cases c with
      | lookup path => exact hs
      | «open» path flags =>
          obtain ⟨hpath, -, hcount⟩ := hok
          obtain ⟨hnamed, hshort⟩ := PathFits.tail hpath
          exact hs.openAt hnamed hshort hcount
      | close fhandle =>
          obtain ⟨o, ho⟩ := Option.isSome_iff_exists.mp hok
          rw [Store.execAny, Store.exec, Store.close, ho]
          exact hs.setHandle fun e he => by cases he
      | write fhandle buffer =>
          obtain ⟨hopen, -, hwrite⟩ := hok
          obtain ⟨o, ho⟩ := Option.isSome_iff_exists.mp hopen
          obtain ⟨-, hlimit, hblocks⟩ := hwrite o ho
          exact hs.write ho (one_dvd _) hlimit hblocks
      | read fhandle len =>
          obtain ⟨o, ho⟩ := Option.isSome_iff_exists.mp hok.1
          exact hs.readUpTo ho

end Abstract

/-! ## Copying out -/

variable {a : Store} {fs : FS} {env : Outside} {path : CString}

/-- Iterations that are enough for a file of the largest size. -/
abbrev copyFuel : Nat := maxFileBlocks + 1

/-- A call of the library, or of `tfs_copy_to_external_fs`. -/
def userExec (env : Outside) (fs : FS) : UserCall → Option (Ret × FS)
  | .call c => machine.exec fs c
  | .copyOut path =>
      match (tfsCopyToExternalFs env path copyFuel).eval fs with
      | some (some (r, copied), fs') => some (⟨r, copied⟩, fs')
      | _ => none

/-- The library, used by a program that also copies files out. -/
def userMachine (env : Outside) : Machine FS UserCall Ret := ⟨machine.init, userExec env⟩

/-- The calls outside the file system all succeed. -/
structure Outside.Succeeds (env : Outside) : Prop where
  fopen : env.fopen = true
  malloc : env.malloc = true
  fwrite : ∀ call, blockSize ≤ env.fwrite call

/-- A file that is open for copying is copied, and its handle is given back. -/
theorem copy_found {n : Fin inodeTableSize} {h : Fin maxOpenFiles} {f : Abstract.File}
    (henv : env.Succeeds) (hsim : Sim a fs) (hf : FileSim fs n f)
    (hlimit : f.bytes.length ≤ maxFileSize)
    (hopen : (tfsOpen path 0).eval fs = some (((h : Nat) : Int), fs.give h ((n : Nat) : Int) 0)) :
    (tfsCopyToExternalFs env path copyFuel).eval fs =
      some (some (0, f.bytes), fs.giveBack h n f.bytes.length) := by
  have hblocks : ∀ j, j < stopBlock (fs.inodeTable n).iSize → fs.blockAt n j ≠ none := by
    intro j hj hnone
    obtain ⟨b, hb⟩ := blockAt_of_slot (hsim.consistent.layout.file hf.isFile)
      (hf.mapped hlimit j hj)
    rw [hnone] at hb
    cases hb
  have hmax : (fs.inodeTable n).iSize ≤ maxFileSize := by
    rw [hf.size]
    exact hlimit
  have hfuel : (fs.inodeTable n).iSize < (0 + copyFuel) * blockSize := by
    simp only [maxFileSize, copyFuel, blockSize] at hmax ⊢
    omega
  obtain ⟨bytes, heval, hbytes⟩ := @copyLoop_all (fs.give h ((n : Nat) : Int) 0) n h 0 env
    copyFuel 0 [] henv.fwrite (by simp [FS.give]) (by simp [FS.give])
    (by rw [Nat.zero_mul]; exact Nat.zero_le _) hmax hblocks hfuel
  have hcontents : bytes.map some = fs.contents n := by
    rw [hbytes, FS.contents, FS.fileBytes, List.range_eq_range', Nat.zero_mul, Nat.sub_zero]
    rfl
  have hsame : bytes = f.bytes :=
    List.map_injective_iff.mpr (Option.some_injective _) (hcontents.trans hf.contents)
  have hlength : ((fs.give h ((n : Nat) : Int) 0).inodeTable n).iSize = f.bytes.length := hf.size
  rw [List.nil_append, hsame, hlength] at heval
  rw [copy_opened hopen, if_pos ⟨henv.fopen, henv.malloc⟩, eval_bind, heval, Option.bind_some,
    finishCopy_all]

/-- Copying out gives the bytes of the file on both sides, and changes nothing. -/
theorem Sim.copyOut (henv : env.Succeeds) (hsim : Sim a fs) (hbounds : Abstract.InBounds a)
    (hpath : PathFits path) :
    ∃ fs', userExec env fs (.copyOut path) = some (a.copyOut path.tail.bytes, fs') ∧
      Sim a fs' := by
  have hlookup := hsim.lookup hbounds hpath
  rw [Store.lookup] at hlookup
  rw [Store.copyOut, userExec]
  cases hfind : a.find path.tail.bytes with
  | none =>
      rw [hfind] at hlookup
      have hcreat : ¬ hasFlag 0 tfsOCreat = true := by decide
      have hopen := tfsOpen_absent hpath.1 hlookup hcreat
      refine ⟨fs, ?_, hsim⟩
      rw [tfsCopyToExternalFs, bind_eq, eval_bind, hopen]
      rfl
  | some i =>
      rw [hfind] at hlookup
      obtain ⟨f, hf, -⟩ := Store.find_eq_some hfind
      have hi := (List.getElem?_eq_some_iff.mp hf).1
      obtain ⟨n, hn⟩ := exists_inode (hi.le.trans hbounds.count)
      have hfile := hsim.files i f n hn hf
      dsimp only at hlookup ⊢
      rw [← hn] at hlookup
      obtain ⟨h, hfree, hopen⟩ | ⟨hfull, hopen⟩ := tfsOpen_source hlookup
      · have hnone : a.handles h = none := by
          rw [← Option.isNone_iff_eq_none]
          exact (hsim.handle_none_iff h).mpr hfree
        have hlimit := (hbounds.files i f hf).limit
        rw [copy_found henv hsim hfile hlimit hopen, if_pos ⟨h, hnone⟩, Store.bytes_eq hf]
        refine ⟨_, rfl, ?_⟩
        have hsame := Store.setHandle_same hnone
        rw [← hsame]
        refine hsim.setHandle (n := n) (giveBack_sameStore _) ?_ hfile.isFile (fun k hk => ?_)
          (Or.inl ⟨Store.setHandle_self, ?_⟩)
        · simp [FS.giveBack, FS.give, FS.seek]
        · simp [FS.giveBack, FS.give, FS.seek, hk]
        · simp [FS.giveBack]
      · have hnone : ¬ ∃ h, a.handles h = none := by
          rintro ⟨h, hh⟩
          have hfree := (hsim.handle_none_iff h).mp (by rw [hh]; rfl)
          rw [hfull h] at hfree
          cases hfree
        rw [if_neg hnone]
        refine ⟨fs, ?_, hsim⟩
        rw [tfsCopyToExternalFs, bind_eq, eval_bind, hopen]
        rfl

/-! ## The refinement -/

/-- Every call gives the same result on both sides. -/
theorem userExec_sim (henv : env.Succeeds) (hsim : Sim a fs) (hbounds : Abstract.InBounds a)
    {c : UserCall} (hok : Abstract.AnyLength a c) :
    ∃ fs', userExec env fs c = some ((a.execAny c).1, fs') ∧ Sim (a.execAny c).2 fs' := by
  cases c with
  | copyOut path => exact hsim.copyOut henv hbounds hok
  | call c =>
      change ∃ fs', (exec c).eval fs = some ((a.execAny (.call c)).1, fs') ∧
        Sim (a.execAny (.call c)).2 fs'
      cases c with
      | lookup path =>
          refine ⟨fs, ?_, hsim⟩
          rw [exec, bind_eq, eval_bind, hsim.lookup hbounds hok]
          rfl
      | «open» path flags =>
          obtain ⟨hpath, htrunc, hcount⟩ := hok
          obtain ⟨fs', heval, hsim'⟩ := hsim.openAt hbounds hpath htrunc hcount
          refine ⟨fs', ?_, hsim'⟩
          rw [exec, bind_eq, eval_bind, heval]
          rfl
      | close fhandle =>
          obtain ⟨o, ho⟩ := Option.isSome_iff_exists.mp hok
          obtain ⟨fs', heval, hsim'⟩ := hsim.close hbounds ho
          refine ⟨fs', ?_, hsim'⟩
          rw [exec, bind_eq, eval_bind, heval]
          rfl
      | write fhandle buffer =>
          obtain ⟨hopen, hbuffer, hwrite⟩ := hok
          obtain ⟨o, ho⟩ := Option.isSome_iff_exists.mp hopen
          obtain ⟨hat, hlimit, hblocks⟩ := hwrite o ho
          have hreg := hat (List.length_pos_iff.mpr hbuffer)
          obtain ⟨fs', heval, hsim'⟩ := hsim.writeAny hbounds ho hbuffer hreg hlimit hblocks
          refine ⟨fs', ?_, hsim'⟩
          rw [exec, bind_eq, eval_bind, heval, Store.execAny, Store.exec, Store.write_opened ho]
          rfl
      | read fhandle len =>
          obtain ⟨hopen, hread⟩ := hok
          obtain ⟨o, ho⟩ := Option.isSome_iff_exists.mp hopen
          obtain ⟨fs', heval, hsim'⟩ := hsim.readUpTo hbounds ho (hread o ho)
          refine ⟨fs', ?_, hsim'⟩
          rw [exec, bind_eq, eval_bind, heval]
          rfl

/-- Every run of opens without truncation, closes, copies to files outside, and reads and writes of
any lengths that are not for whole blocks from inside a block returns, with the results of the
abstract file system: what is read and what is copied out are the bytes that were written. The
blocks in use are those that the sizes of the files call for. -/
theorem any_lengths_runs (env : Outside) (henv : env.Succeeds) (calls : List UserCall)
    (hcalls : Abstract.anyLengths.Admits Abstract.AnyLength Abstract.anyLengths.init calls) :
    ∃ results store fs,
      Abstract.anyLengths.run Abstract.anyLengths.init calls = some (results, store) ∧
      (userMachine env).run (userMachine env).init calls = some (results, fs) ∧
      ∀ b, fs.freeBlocks b = .free ↔ store.blocks ≤ (b : Nat) := by
  have hstep : ∀ (fs : FS) (a : Store) c, Abstract.InBounds a ∧ Sim a fs →
      Abstract.AnyLength a c → ∃ r fs' a', (userMachine env).exec fs c = some (r, fs') ∧
        Abstract.anyLengths.exec a c = some (r, a') ∧ Abstract.InBounds a' ∧ Sim a' fs' := by
    intro fs a c ⟨hbounds, hsim⟩ hok
    obtain ⟨fs', hexec, hsim'⟩ := userExec_sim henv hsim hbounds hok
    exact ⟨_, fs', _, hexec, rfl, Abstract.execAny_inBounds hbounds hok, hsim'⟩
  have hinit : Abstract.InBounds Abstract.anyLengths.init ∧
      Sim Abstract.anyLengths.init (userMachine env).init := by
    rw [userMachine, machine_init]
    exact ⟨Abstract.inChunks_empty, sim_init⟩
  obtain ⟨results, fs, store, hrun, habs, -, hsim⟩ :=
    Machine.run_refines (userMachine env) Abstract.anyLengths _ Abstract.AnyLength hstep calls _ _
      hinit hcalls
  exact ⟨results, store, fs, habs, hrun, hsim.marks⟩

/-- One file is written in pieces of 1000, 3 and 1500 bytes, the last at its end, copied out, and
read in pieces of 700 and 5000 bytes, of which the second comes to the end. -/
theorem any_lengths_runs_mixed : ∃ results store fs,
    Abstract.anyLengths.run Abstract.anyLengths.init
        [.call (.open pathA tfsOCreat), .call (.write 0 (List.replicate 1000 7)),
          .call (.write 0 [1, 2, 3]), .call (.open pathA tfsOAppend),
          .call (.write 1 (List.replicate 1500 8)), .copyOut pathA, .call (.close 0),
          .call (.open pathA 0), .call (.read 0 700), .call (.read 0 5000)] =
      some (results, store) ∧
    (userMachine ⟨true, true, fun _ => blockSize⟩).run (userMachine
        ⟨true, true, fun _ => blockSize⟩).init
        [.call (.open pathA tfsOCreat), .call (.write 0 (List.replicate 1000 7)),
          .call (.write 0 [1, 2, 3]), .call (.open pathA tfsOAppend),
          .call (.write 1 (List.replicate 1500 8)), .copyOut pathA, .call (.close 0),
          .call (.open pathA 0), .call (.read 0 700), .call (.read 0 5000)] =
      some (results, fs) ∧
    ∀ b, fs.freeBlocks b = .free ↔ store.blocks ≤ (b : Nat) :=
  any_lengths_runs ⟨true, true, fun _ => blockSize⟩ ⟨rfl, rfl, fun _ => le_refl _⟩ _
    (by decide +kernel)

end TecnicoFS.Part1
