import TecnicoFS.Part1.Runs
import TecnicoFS.Part1.LockOrder
import TecnicoFS.Part1.Release
import TecnicoFS.Lib.Alone

/-!
# Part 1: sequential runs with the locks that are left

`machine` runs each call with all locks free. Here the locks stay as the calls leave them, so that a
call which comes to a lock that an earlier one has left does not return. As long as no call keeps
its locks (`Returning`), none is left, and the runs are those of `machine`.
-/

namespace TecnicoFS.Part1

open Threads Threads.Prog
open Part2 (Call Ret)

/-- A state, and the locks that the calls so far have left. -/
abbrev Left : Type := FS × List (Lock × Mode)

/-- The file system after `tfs_init`, one call after the other, each on the locks that are left. -/
def lockMachine : Machine Left Call Ret where
  init := (machine.init, [])
  exec s c := (exec c).alone s.1 s.2

/-- The calls of a guard that give back their locks. -/
def Returning (ok : Machine.Guard FS Call Ret) : Machine.Guard Left Call Ret :=
  fun tr s c => ok tr s.1 c ∧ ¬ KeepsLocks (fun _ _ => False) s.1 c

variable {ok : Machine.Guard FS Call Ret} {tr tr' : Machine.Trace Call Ret} {fs fs' : FS}
  {held held' : List (Lock × Mode)} {c : Call} {r : Ret}

/-- A run on the locks that are left is one with all locks free, as far as it goes. -/
theorem Reach.eval (hreach : lockMachine.Reach (fun tr s c => ok tr s.1 c) (tr, fs, held)) :
    machine.Reach ok (tr, fs) := by
  refine hreach.invariant (P := fun tr (s : Left) => machine.Reach ok (tr, s.1))
    Machine.Reach.start fun tr s c r s' hrun hok hexec => ?_
  exact hrun.step hok (eval_of_alone hexec)

/-- A call that gives back its locks. -/
theorem lockMachine_exec (hkeeps : ¬ KeepsLocks (fun _ _ => False) fs c)
    (hexec : lockMachine.exec (fs, held) c = some (r, fs', held')) :
    held' = held ∧ machine.exec fs c = some (r, fs') :=
  ⟨(exec_balanced hkeeps).alone hexec, eval_of_alone hexec⟩

/-- No lock is left by the calls of a run, and the run is one with all locks free. -/
theorem Later.unlocked
    (hlater : lockMachine.Later (Returning ok) (tr, fs, held) (tr', fs', held')) :
    held' = held ∧ machine.Later ok (tr, fs) (tr', fs') := by
  refine hlater.invariant
    (P := fun tr' (s : Left) => s.2 = held ∧ machine.Later ok (tr, fs) (tr', s.1)) ?_ ?_
  · exact ⟨rfl, Relation.ReflTransGen.refl⟩
  · rintro tr₁ ⟨fs₁, held₁⟩ c r ⟨fs₂, held₂⟩ ⟨rfl, hrun⟩ ⟨hok, hkeeps⟩ hexec
    rcases lockMachine_exec hkeeps hexec with ⟨heq, hexec⟩
    exact ⟨heq, hrun.tail (.call hok hexec)⟩

/-- The same from the start. -/
theorem Reach.unlocked (hreach : lockMachine.Reach (Returning ok) (tr, fs, held)) :
    held = [] ∧ machine.Reach ok (tr, fs) := Later.unlocked hreach

/-! ## Runs to evaluate -/

/-- A call other than a write of no bytes. -/
theorem NonEmptyWrite.returns (hc : NonEmptyWrite c) (other : FS → FS → Prop) :
    ¬ KeepsLocks other fs c := by
  rintro ⟨fhandle, h, fs', n, rfl, -⟩
  exact hc rfl

/-- The calls of a list, with short writes of at least one byte only. -/
theorem reach_locked {cs : List Call} {cfg : Machine.Trace Call Ret × Left}
    (hplay : lockMachine.play (fun tr s c => Writes DirectOk tr s.1 c ∧ NonEmptyWrite c)
      ([], initialFS, []) cs = some cfg) :
    lockMachine.Reach (Returning (Writes WriteOk)) cfg := by
  have hstart : lockMachine.Reach (fun tr s c => Writes DirectOk tr s.1 c ∧ NonEmptyWrite c)
      ([], initialFS, []) := by
    rw [← machine_init]
    exact Machine.Reach.start
  exact (hstart.play hplay).mono fun _ _ _ hw =>
    ⟨hw.1.mono fun _ _ _ _ hd => hd.writeOk, hw.2.returns _⟩

end TecnicoFS.Part1
