import TecnicoFS.Part2.Closing
import TecnicoFS.Lib.Phase
import TecnicoFS.Lib.Schedule

/-!
# Part 2: opening after `tfs_destroy_after_all_closed`

Threads use the library: they open, close and destroy, with no server about. `tfs_open` checks
`open_flag` and gives the mutex back before it adds its handle, so the check can be stale: the
destroyer finds the counter 0, lowers the flag and returns, and then the open returns a handle.

As long as the flag is only lowered while no open is between its check and its return, every
open that goes on afterwards is refused, and the flag is down only while nothing is open.
-/

namespace TecnicoFS.Part2.Concurrent

open Threads Threads.Prog

/-- The calls of a program that uses the library. -/
inductive LibraryCall where
  | open (name : CString) (flags : BitVec 32)
  | close (fhandle : Int)
  | destroy
deriving DecidableEq

/-- Threads that use the library have no sessions. -/
abbrev Library : Type := Shared Empty

/-- The programs of the calls. -/
def libraryBody : LibraryCall → Op Empty Int
  | .open name flags => tfsOpen name flags
  | .close fhandle => tfsClose fhandle
  | .destroy => tfsDestroyAfterAllClosed

/-- The call is an open. -/
def LibraryCall.IsOpen : LibraryCall → Prop
  | .open _ _ => True
  | _ => False

instance : DecidablePred LibraryCall.IsOpen
  | .open _ _ => .isTrue trivial
  | .close _ => .isFalse id
  | .destroy => .isFalse id

/-- The runs of the library. -/
abbrev LibraryConfig (T : Type) : Type := Config T Library (Lock Empty) Cond LibraryCall Int

/-- An open that is not past its check of `open_flag`: it has not begun, or is refused. -/
inductive BeforeCheck (name : CString) (flags : BitVec 32) : Op Empty Int → Prop
  | begin : BeforeCheck name flags (tfsOpen name flags)
  | refused : BeforeCheck name flags (.release .openFilesMutex (.ret (-1)))
  | failed : BeforeCheck name flags (.ret (-1))

variable {T : Type}

/-- A step lowers `open_flag` only while no open is past its check of it. -/
def LowersAlone (cfg : LibraryConfig T) (_ : T) (cfg' : LibraryConfig T) : Prop :=
  cfg.state.fs.openFlag ≠ 0 → cfg'.state.fs.openFlag = 0 →
    ∀ u task name flags, cfg.task u = some task → task.call = .open name flags →
      BeforeCheck name flags task.prog

/-! ## What the calls do once the flag is down -/

/-- `open_flag` is 0. -/
def FlagDown (s : Library) : Prop := s.fs.openFlag = 0

/-- No step raises the flag. -/
def KeepsDown (s s' : Library) : Prop := FlagDown s → FlagDown s'

/-- Whatever the state, the calls do not raise the flag. -/
abbrev NeverRaises (p : Op Empty Int) : Prop :=
  Within (fun _ => True) KeepsDown (fun _ => True) p

/-- With the flag down the program changes nothing and returns -1. -/
abbrev IsRefused (p : Op Empty Int) : Prop :=
  Within FlagDown (fun s s' => s' = s) (fun r => r = -1) p

theorem addToOpenFileTable_neverRaises (inumber : Int) (offset : Nat) :
    NeverRaises (addToOpenFileTable inumber offset) := by
  unfold addToOpenFileTable
  simp only [bind_eq, pure_eq]
  refine within_read (fun s h => h) fun s _ => ?_
  split
  · trivial
  · refine within_lock (within_modify (fun s _ h => h) ?_)
    exact within_modify (fun s _ h => h) (within_unlock trivial)

theorem tfsOpenUnsynchronized_neverRaises (name : CString) (flags : BitVec 32) :
    NeverRaises (tfsOpenUnsynchronized name flags) := by
  intro s _
  constructor
  · intro s' hs' hdown
    rcases Option.map_eq_some_iff.mp hs' with ⟨⟨found, fs'⟩, hopen, rfl⟩
    exact (openFile_sameHandles hopen).flag.trans hdown
  · simp only
    split
    · exact addToOpenFileTable_neverRaises _ _
    · trivial

theorem removeFromOpenFileTable_neverRaises (fhandle : Int) :
    NeverRaises (removeFromOpenFileTable fhandle) := by
  unfold removeFromOpenFileTable
  cases index? maxOpenFiles fhandle with
  | none => trivial
  | some h =>
      simp only [bind_eq, pure_eq]
      refine within_read (fun s h => h) fun s _ => ?_
      split
      · trivial
      have hfree : NeverRaises ((Prog.modify fun s => s.setFs (markFree s.fs h)).bind fun _ =>
          (unlock Lock.openFilesMutex).bind fun _ => ret 0) :=
        within_modify (fun s _ h => h) (within_unlock trivial)
      refine within_lock (within_modify (fun s _ h => h) ?_)
      refine within_read (fun s h => h) fun s _ => ?_
      split
      · exact within_wakeOne hfree
      · exact hfree

theorem libraryBody_neverRaises (call : LibraryCall) : NeverRaises (libraryBody call) := by
  cases call with
  | «open» name flags =>
      rw [libraryBody, tfsOpen]
      simp only [bind_eq, pure_eq]
      refine within_lock (within_read (fun s h => h) fun s _ => ?_)
      split
      · exact within_unlock trivial
      · refine within_unlock (within_lock ?_)
        exact (tfsOpenUnsynchronized_neverRaises name flags).bind fun r _ => within_unlock trivial
  | close fhandle =>
      rw [libraryBody, tfsClose]
      simp only [bind_eq, pure_eq]
      refine within_lock ?_
      exact (removeFromOpenFileTable_neverRaises fhandle).bind fun r _ => within_unlock trivial
  | destroy =>
      rw [libraryBody, tfsDestroyAfterAllClosed]
      simp only [bind_eq, pure_eq]
      exact within_lock (within_modify (fun s _ _ => rfl) (within_unlock trivial))

/-- An open that finds the flag down is refused. -/
theorem tfsOpen_isRefused (name : CString) (flags : BitVec 32) :
    IsRefused (tfsOpen name flags) := by
  rw [tfsOpen]
  simp only [bind_eq, pure_eq]
  refine within_lock (within_read (fun s => rfl) fun s hdown => ?_)
  rw [if_pos (show s.fs.openFlag = 0 from hdown)]
  exact within_unlock rfl

theorem BeforeCheck.isRefused {name : CString} {flags : BitVec 32} {p : Op Empty Int}
    (h : BeforeCheck name flags p) : IsRefused p := by
  cases h with
  | begin => exact tfsOpen_isRefused name flags
  | refused => exact rfl
  | failed => exact rfl

/-- An open acts on the state only once it has begun its check. -/
theorem BeforeCheck.not_act {name : CString} {flags : BitVec 32} {e : Library → Option Library}
    {next : Library → Op Empty Int} : ¬ BeforeCheck name flags (.act e next) := by
  generalize hp : Prog.act e next = p
  intro h
  cases h with
  | begin => exact nomatch hp
  | refused => exact nomatch hp
  | failed => exact nomatch hp

/-! ## Runs in which the flag is lowered alone -/

/-- No call raises the flag, and once it is down every open is refused. -/
structure Refusing (cfg : LibraryConfig T) : Prop where
  never : Settled (fun _ => True) (fun _ => True) KeepsDown (fun _ => True) cfg
  opens : FlagDown cfg.state →
    Settled LibraryCall.IsOpen FlagDown (fun s s' => s' = s) (fun r => r = -1) cfg

theorem refusing_init (s : Library) : Refusing (Config.init s : LibraryConfig T) :=
  ⟨fun _ _ h => (nomatch h), fun _ _ _ h => (nomatch h)⟩

theorem libraryBody_isRefused (call : LibraryCall) (hopen : call.IsOpen) :
    IsRefused (libraryBody call) := by
  cases call with
  | «open» name flags => exact tfsOpen_isRefused name flags
  | close fhandle => exact hopen.elim
  | destroy => exact hopen.elim

variable [DecidableEq T] {cfg cfg' : LibraryConfig T} {t : T}

theorem Refusing.down (h : Refusing cfg) (hstep : Step libraryBody cfg t cfg')
    (hdown : FlagDown cfg.state) : FlagDown cfg'.state :=
  h.never.effect trivial (fun _ h => h) (fun _ _ => trivial) hstep hdown

/-- An open that the flag stopped stays stopped, and a step that lowers the flag finds no open
past its check. -/
theorem Refusing.step (h : Refusing cfg) (hstep : Step libraryBody cfg t cfg')
    (hlowers : LowersAlone cfg t cfg') : Refusing cfg' := by
  refine ⟨h.never.step trivial (fun c _ => libraryBody_neverRaises c) hstep, fun hdown' => ?_⟩
  by_cases hdown : FlagDown cfg.state
  · exact (h.opens hdown).step hdown libraryBody_isRefused hstep
  · -- the step lowers the flag, so it is not one of an open
    have hbefore : Settled LibraryCall.IsOpen FlagDown (fun s s' => s' = s) (fun r => r = -1)
        cfg := by
      rintro u ⟨c, p, k, a⟩ hu hopen
      cases c with
      | «open» name flags => exact (hlowers hdown hdown' u _ name flags hu rfl).isRefused
      | close fhandle => exact hopen.elim
      | destroy => exact hopen.elim
    cases hstep with
    | @act c k e next s' htask heff =>
        refine hbefore.put fun hopen => ?_
        cases c with
        | «open» name flags =>
            exact absurd (hlowers hdown hdown' t _ name flags htask rfl) BeforeCheck.not_act
        | close fhandle => exact hopen.elim
        | destroy => exact hopen.elim
    | _ => exact absurd hdown' hdown

/-- What the calls of the library promise: an open changes nothing once the flag is down. -/
def libraryContract (T : Type) : Contract T Library (Lock Empty) Cond LibraryCall Int Nat where
  allowed _ := True
  may c s s' := c.IsOpen → FlagDown s → s' = s
  post _ _ _ _ := True
  weight _ _ := 0
  J _ _ := True

omit [DecidableEq T] in
theorem library_meets : Meets (closeDiscipline Empty False) (libraryContract T) libraryBody where
  start c log w rest _ _ _ _ := by
    cases c with
    | «open» name flags =>
        exact tfsOpen_wp (fun _ s s' hmay hdown => hmay trivial hdown) fun _ _ =>
          ⟨rfl, rfl, trivial⟩
    | close fhandle => exact tfsClose_wp fun _ _ => ⟨rfl, rfl, trivial⟩
    | destroy =>
        exact tfsDestroyAfterAllClosed_wp (fun hserver => hserver.elim) fun _ _ =>
          ⟨rfl, rfl, trivial⟩
  done _ _ _ _ := trivial
  J_guar _ _ _ _ _ := trivial
  J_quieter _ _ _ := trivial
  single hserver := hserver.elim

theorem Refusing.follows (h : Refusing cfg) (hstep : Step libraryBody cfg t cfg') :
    Follows (closeDiscipline Empty False) (libraryContract T) cfg t cfg' := by
  refine ⟨fun _ _ _ => trivial, fun task htask hopen hdown => ?_, fun _ _ hl => absurd trivial hl⟩
  refine (h.opens hdown).effect hdown (fun _ => rfl) (fun task' htask' => ?_) hstep
  rw [htask] at htask'
  cases htask'
  exact hopen

/-- In every run in which `open_flag` is only lowered while no open is past its check of it:
in every state with the flag down nothing is open, and whatever thread goes on from there, the
flag stays down and an open that returns returns -1. -/
theorem refused_after_destroy [Fintype T]
    (hreach : Reach libraryBody (Shared.start machine.init) LowersAlone cfg)
    (hdown : cfg.state.fs.openFlag = 0) :
    cfg.state.fs.openFilesCount = 0 ∧
      ∀ t cfg', Step libraryBody cfg t cfg' → cfg'.state.fs.openFlag = 0 ∧
        ∀ d ∈ cfg'.log, d ∉ cfg.log → d.call.IsOpen → d.result = -1 := by
  have hrefusing : Refusing cfg := hreach.invariant (refusing_init _)
    fun _ _ _ hrefusing hstep hlowers => hrefusing.step hstep hlowers
  have hstrong := hreach.strengthen (refusing_init _)
    fun _ _ _ hrefusing hstep hlowers => hrefusing.step hstep hlowers
  rcases init_open with ⟨hflag, hcount, hclosed⟩
  rcases hstrong.sound library_meets (closeInv_start False hflag)
    (closeLock_start False hcount hclosed) trivial
    (fun _ _ _ hok => hok.1.follows hok.2.1) with ⟨b, g, hsound⟩
  refine ⟨(hsound.inv.shut id hdown).1, fun t cfg' hstep => ⟨hrefusing.down hstep hdown, ?_⟩⟩
  intro d hd hnew hopen
  exact (hrefusing.opens hdown).returns hstep hd hnew hopen

/-! ## Two threads -/

/-- The thread goes on for so many steps. -/
def goes (t : Fin 2) (count : Nat) : List (Move (Fin 2) LibraryCall) :=
  List.replicate count (t, none)

/-- The thread calls and goes on for so many steps. -/
def calls (t : Fin 2) (call : LibraryCall) (count : Nat) : List (Move (Fin 2) LibraryCall) :=
  (t, some call) :: goes t count

/-- The flag is lowered while no open runs at all. -/
def LowersIdle (cfg : LibraryConfig (Fin 2)) (_ : Fin 2) (cfg' : LibraryConfig (Fin 2)) : Prop :=
  cfg.state.fs.openFlag ≠ 0 → cfg'.state.fs.openFlag = 0 →
    ∀ u, ∀ task ∈ cfg.task u, ¬ task.call.IsOpen

instance : ∀ cfg t cfg', Decidable (LowersIdle cfg t cfg') := fun cfg _ cfg' =>
  inferInstanceAs (Decidable (cfg.state.fs.openFlag ≠ 0 → cfg'.state.fs.openFlag = 0 →
    ∀ u, ∀ task ∈ cfg.task u, ¬ task.call.IsOpen))

/-- Thread 0 opens and closes "/a", thread 1 destroys, and the next open is refused. -/
theorem refused_after_destroy_two :
    ∃ cfg : LibraryConfig (Fin 2), cfg.log.map (fun d => (d.thread, d.result)) =
        [(0, 0), (0, 0), (1, 0), (0, -1)] ∧
      cfg.state.fs.openFlag = 0 ∧
      (cfg.state.fs.openFilesCount = 0 ∧
        ∀ t cfg', Step libraryBody cfg t cfg' → cfg'.state.fs.openFlag = 0 ∧
          ∀ d ∈ cfg'.log, d ∉ cfg.log → d.call.IsOpen → d.result = -1) := by
  have hplay : ((Config.init (Shared.start machine.init)).play libraryBody LowersIdle
      (calls 0 (.open pathA tfsOCreat) 12 ++ calls 0 (.close 0) 10 ++ calls 1 .destroy 5 ++
        calls 0 (.open pathA tfsOCreat) 4)).map (fun cfg =>
          decide (cfg.log.map (fun d => (d.thread, d.result)) =
            [(0, 0), (0, 0), (1, 0), (0, -1)] ∧ cfg.state.fs.openFlag = 0)) = some true := by
    decide +kernel
  rcases Option.map_eq_some_iff.mp hplay with ⟨cfg, hplay, hfacts⟩
  rcases of_decide_eq_true hfacts with ⟨hlog, hdown⟩
  refine ⟨cfg, hlog, hdown, refused_after_destroy ((Reach.init.play hplay).mono ?_) hdown⟩
  intro cfg t cfg' hidle hup hdown u task name flags hu hcall
  have hnone := hidle hup hdown u task hu
  rw [hcall] at hnone
  exact absurd trivial hnone

/-- Thread 0 passes the check of the flag, thread 1 destroys, and then thread 0 returns
handle 0 and leaves the counter at 1. -/
theorem opened_after_destroy :
    ∃ cfg : LibraryConfig (Fin 2),
      Reach libraryBody (Shared.start machine.init) (fun _ _ _ => True) cfg ∧
        cfg.state.fs.openFlag = 0 ∧ cfg.state.fs.openFilesCount = 1 ∧
        cfg.log = [⟨1, .destroy, 0, 0⟩, ⟨0, .open pathA tfsOCreat, 0, 0⟩] := by
  have hplay : ((Config.init (Shared.start machine.init)).play libraryBody (fun _ _ _ => True)
      (calls 0 (.open pathA tfsOCreat) 3 ++ calls 1 .destroy 5 ++ goes 0 9)).map
        (fun cfg : LibraryConfig (Fin 2) =>
          decide (cfg.state.fs.openFlag = 0 ∧ cfg.state.fs.openFilesCount = 1 ∧
            cfg.log = [⟨1, .destroy, 0, 0⟩, ⟨0, .open pathA tfsOCreat, 0, 0⟩])) = some true := by
    decide +kernel
  rcases Option.map_eq_some_iff.mp hplay with ⟨cfg, hplay, hfacts⟩
  exact ⟨cfg, Reach.init.play hplay, of_decide_eq_true hfacts⟩

end TecnicoFS.Part2.Concurrent
