import TecnicoFS.Part2.ExactlyOnce
import TecnicoFS.Part2.Refinement
import TecnicoFS.Part2.Lifecycle

/-!
# Part 2: the server serves one file system

Many clients send requests, and 64 workers handle them. Every handled request is a call of the
library that the workers share, and the global lock makes each call one step, but for the check of
`open_flag` in `tfs_open`. So what the clients are told is what one sequential run of the library
returns: `Hub.handled` lists its calls, in an order that agrees with the order of every client, and
with real time. Only a shutdown that lowers the flag between that check and the open has no place
in such an order.

* `served_in_sequence`: the answers are those of a run of the library on the requests.
* `served_as_abstract`: where the requests are ones that the abstract file system answers, the
  calls of the clients return what it returns.
-/

namespace TecnicoFS.Part2

/-! ## The library behind the server -/

/-- The calls that the workers make of the library. -/
inductive LibCall where
  | call (c : Call)
  | destroyAfterAllClosed
deriving DecidableEq

/-- One call of the library. The name that a handler opens is in a buffer (`tfsOpenInBuffer`). -/
def libExec (fs : FS) : LibCall → Option (Ret × FS)
  | .call (.open name flags) =>
      match tfsOpenInBuffer fs name flags with
      | (ret, fs') => some (⟨ret, []⟩, fs')
  | .call c => exec fs c
  | .destroyAfterAllClosed =>
      (Lifecycle.tfsDestroyAfterAllClosed fs).map fun p => (⟨p.1, []⟩, p.2)

/-- The library of the server, after `tfs_init`. -/
def library : Machine FS LibCall Ret := ⟨machine.init, libExec⟩

variable (sys : System)

/-- What a handler writes to the client once the library has returned. -/
def answerOf : LibCall → Ret → Answer
  | .call (.write _ _), r => [intBytes sizeofSsizeT r.value]
  | .call (.read _ _), r =>
      match writeBuffer sys r.bytes (r.value % wordSize).toNat with
      | (chunks, true) => intBytes sizeofSsizeT r.value :: chunks
      | (chunks, false) => intBytes sizeofSsizeT r.value :: (chunks ++ [failureCode])
  | _, r => [intBytes sizeofInt r.value]

/-- The library call that a handled request has led to. A mount and an unmount lead to none, nor
does a buffer that `malloc` does not find, nor a second shutdown. -/
def Handled.libCall (h : Handled) : Option LibCall :=
  match h.call with
  | .mount _ => none
  | .unmount => none
  | .open name flags => some (.call (.open name flags))
  | .close fhandle => some (.call (.close fhandle))
  | .write fhandle buffer =>
      if sys.malloc buffer.length then some (.call (.write fhandle buffer)) else none
  | .read fhandle len => if sys.malloc len then some (.call (.read fhandle len)) else none
  | .shutdown => if h.answer = [failureCode] then none else some .destroyAfterAllClosed

/-- The handled requests that led to a call of the library, with the call. -/
def served (handled : List Handled) : List (Handled × LibCall) :=
  handled.filterMap fun h => (h.libCall sys).map fun c => (h, c)

/-- The calls of the library, in the order in which they were made. -/
def libCalls (handled : List Handled) : List LibCall := (served sys handled).map Prod.snd

/-- The answers are those to a run of the library from `tfs_init` to this state. -/
def InSequence (handled : List Handled) (fs : FS) : Prop :=
  ∃ results, library.run library.init (libCalls sys handled) = some (results, fs) ∧
    List.Forall₂ (fun e r => e.1.answer = answerOf sys e.2 r) (served sys handled) results

/-- What it takes for one request to be handled: the call of the library, if there is one. -/
def Serves (fs : FS) (h : Handled) (fs' : FS) : Prop :=
  match h.libCall sys with
  | none => fs' = fs
  | some c => ∃ r, libExec fs c = some (r, fs') ∧ h.answer = answerOf sys c r

variable {sys}

/-! ## The library and `open_flag` -/

variable {fs fs' : FS}

/-- Where `tfs_open` does not crash, the buffer makes no difference. -/
theorem tfsOpenInBuffer_of_tfsOpen {name : CString} {flags : BitVec 32} {out : Int × FS}
    (hopen : tfsOpen fs name flags = some out) : tfsOpenInBuffer fs name flags = out := by
  unfold tfsOpen at hopen
  unfold tfsOpenInBuffer
  split at hopen
  · rw [if_pos ‹_›]
    exact Option.some.inj hopen
  · rw [if_neg ‹_›, openInBuffer, hopen]

/-- Where the library alone does not crash, it does the same behind the server. -/
theorem libExec_of_exec {c : Call} {out : Ret × FS} (hexec : exec fs c = some out) :
    libExec fs (.call c) = some out := by
  cases c with
  | «open» name flags =>
      obtain ⟨p, hopen, rfl⟩ := Option.map_eq_some_iff.mp hexec
      rw [libExec, tfsOpenInBuffer_of_tfsOpen hopen]
  | lookup name => exact hexec
  | close fhandle => exact hexec
  | write fhandle buffer => exact hexec
  | read fhandle len => exact hexec

theorem addToOpenFileTable_flag (fs : FS) (inumber : Int) (offset : Nat) :
    (addToOpenFileTable fs inumber offset).2.openFlag = fs.openFlag := by
  unfold addToOpenFileTable
  split
  · rfl
  · rfl

theorem openInBuffer_flag (fs : FS) (name : CString) (flags : BitVec 32) :
    (openInBuffer fs name flags).2.openFlag = fs.openFlag := by
  unfold openInBuffer
  rw [Concurrent.tfsOpenUnsynchronized_eq]
  cases hopen : Concurrent.openFile fs name flags with
  | none =>
      have hcreate := (Concurrent.inodeCreate_file_sameHandles fs).flag
      exact (Concurrent.inodeDelete_sameHandles _ _).flag.trans hcreate
  | some p =>
      obtain ⟨found, fs₁⟩ := p
      have hsame := (Concurrent.openFile_sameHandles hopen).flag
      cases found with
      | none => exact hsame
      | some entry => exact (addToOpenFileTable_flag _ _ _).trans hsame

theorem tfsOpenInBuffer_flag (fs : FS) (name : CString) (flags : BitVec 32) :
    (tfsOpenInBuffer fs name flags).2.openFlag = fs.openFlag := by
  unfold tfsOpenInBuffer
  split
  · rfl
  · exact openInBuffer_flag fs name flags

theorem allocIfEmpty_flag (fs : FS) (n : Fin inodeTableSize) :
    (allocIfEmpty fs n).openFlag = fs.openFlag := by
  unfold allocIfEmpty dataBlockAlloc
  split
  · split
    · rename_i heq
      split at heq <;> cases heq <;> rfl
  · rfl

theorem tfsWrite_flag {fhandle ret : Int} {buffer : List UInt8}
    (hwrite : tfsWrite fs fhandle buffer = some (ret, fs')) : fs'.openFlag = fs.openFlag := by
  unfold tfsWrite at hwrite
  split at hwrite
  · cases hwrite
    rfl
  split at hwrite
  · cases hwrite
    rfl
  simp only at hwrite
  split at hwrite
  · cases hwrite
    rfl
  split at hwrite
  · cases hwrite
    exact allocIfEmpty_flag _ _
  split at hwrite
  · cases hwrite
  · cases hwrite
    exact allocIfEmpty_flag _ _

theorem tfsRead_flag {fhandle ret : Int} {len : Nat} {payload : List UInt8}
    (hread : tfsRead fs fhandle len = some ((ret, payload), fs')) :
    fs'.openFlag = fs.openFlag := by
  unfold tfsRead at hread
  split at hread
  · cases hread
    rfl
  split at hread
  · cases hread
    rfl
  simp only at hread
  split at hread
  · cases hread
    rfl
  split at hread
  · cases hread
    rfl
  split at hread
  · cases hread
  · cases hread
    rfl

/-- Only the destroy lowers the flag. -/
theorem libExec_flag {c : Call} {r : Ret} (hexec : libExec fs (.call c) = some (r, fs')) :
    fs'.openFlag = fs.openFlag := by
  cases c with
  | lookup name =>
      cases hexec
      rfl
  | «open» name flags =>
      cases hexec
      exact tfsOpenInBuffer_flag fs name flags
  | close fhandle =>
      cases hexec
      unfold tfsClose removeFromOpenFileTable
      split
      · rfl
      · split
        · rfl
        · rfl
  | write fhandle buffer =>
      obtain ⟨p, hwrite, heq⟩ := Option.map_eq_some_iff.mp hexec
      cases heq
      exact tfsWrite_flag hwrite
  | read fhandle len =>
      obtain ⟨p, hread, heq⟩ := Option.map_eq_some_iff.mp hexec
      cases heq
      exact tfsRead_flag hread

/-! ## One more request -/

theorem libCalls_mono {hs hs' : List Handled} {c : LibCall} (hpre : hs <+: hs')
    (hc : c ∈ libCalls sys hs) : c ∈ libCalls sys hs' := by
  obtain ⟨more, rfl⟩ := hpre
  simp only [libCalls, served, List.filterMap_append, List.map_append, List.mem_append]
  exact Or.inl hc

theorem served_snoc_of_none {hs : List Handled} {h : Handled} (hnone : h.libCall sys = none) :
    served sys (hs ++ [h]) = served sys hs := by
  simp [served, hnone]

theorem served_snoc_of_some {hs : List Handled} {h : Handled} {c : LibCall}
    (hsome : h.libCall sys = some c) : served sys (hs ++ [h]) = served sys hs ++ [(h, c)] := by
  simp [served, hsome]

theorem inSequence_nil : InSequence sys [] library.init := by
  refine ⟨[], ?_, .nil⟩
  have hnone : libCalls sys [] = [] := rfl
  rw [hnone, Machine.run]

theorem library_init : library.init = machine.init := by simp only [library]

/-- A request that is no shutdown leaves the flag as it is. -/
theorem Serves.flag {h : Handled} (hserves : Serves sys fs h fs') (hcall : h.call ≠ .shutdown) :
    fs'.openFlag = fs.openFlag := by
  unfold Serves at hserves
  split at hserves
  · rw [hserves]
  · rename_i c hc
    obtain ⟨r, hexec, -⟩ := hserves
    cases c with
    | call c => exact libExec_flag hexec
    | destroyAfterAllClosed =>
        unfold Handled.libCall at hc
        cases hkind : h.call with
        | shutdown => exact absurd hkind hcall
        | mount path => simp [hkind] at hc
        | unmount => simp [hkind] at hc
        | «open» name flags => simp [hkind] at hc
        | close fhandle => simp [hkind] at hc
        | write fhandle buffer => simp [hkind] at hc
        | read fhandle len => simp [hkind] at hc

/-- A request that is handled extends the sequence by at most one call. -/
theorem InSequence.snoc {hs : List Handled} {h : Handled}
    (hseq : InSequence sys hs fs) (hserves : Serves sys fs h fs') :
    InSequence sys (hs ++ [h]) fs' := by
  obtain ⟨results, hrun, hanswers⟩ := hseq
  unfold Serves at hserves
  split at hserves
  · rename_i hnone
    subst hserves
    have hsame : libCalls sys (hs ++ [h]) = libCalls sys hs := by
      simp [libCalls, served_snoc_of_none hnone]
    refine ⟨results, ?_, ?_⟩
    · rw [hsame]
      exact hrun
    · rw [served_snoc_of_none hnone]
      exact hanswers
  · rename_i c hsome
    obtain ⟨r, hexec, hanswer⟩ := hserves
    have hmore : libCalls sys (hs ++ [h]) = libCalls sys hs ++ [c] := by
      simp [libCalls, served_snoc_of_some hsome]
    refine ⟨results ++ [r], ?_, ?_⟩
    · rw [hmore]
      exact Machine.run_snoc hrun hexec
    · rw [served_snoc_of_some hsome]
      exact List.rel_append hanswers (.cons hanswer .nil)

namespace Hub

/-! ## What a step handles -/

variable {s s' : Hub} {i : Fin maxClients} {call : ApiCall} {answer : Answer}

/-- What a worker that computes an answer does to the file system. -/
theorem handle_serves {c : CString} {session : Session} {backend backend' : Backend} {reply : Reply}
    (hmount : call.isMount = false) (hshutdown : call ≠ .shutdown)
    (hhandle : handle sys backend call = some (reply, backend')) :
    Serves sys backend.fs ⟨c, session, call, reply.chunks⟩ backend'.fs := by
  cases call with
  | mount path => cases hmount
  | shutdown => exact absurd rfl hshutdown
  | unmount =>
      cases hhandle
      rfl
  | «open» name flags =>
      cases hhandle
      exact ⟨⟨_, []⟩, rfl, rfl⟩
  | close fhandle =>
      simp only [handle, caseCloseReply] at hhandle
      cases hhandle
      exact ⟨⟨_, []⟩, rfl, rfl⟩
  | write fhandle buffer =>
      simp only [handle, caseWriteReply] at hhandle
      unfold Serves Handled.libCall
      dsimp only
      split at hhandle
      · rename_i hm
        rw [if_pos hm]
        split at hhandle
        · cases hhandle
        · rename_i ret fs' hwrite
          cases hhandle
          exact ⟨⟨ret, []⟩, by simp [libExec, Part2.exec, hwrite], rfl⟩
      · rename_i hm
        rw [if_neg hm]
        cases hhandle
        rfl
  | read fhandle len =>
      simp only [handle, caseReadReply] at hhandle
      unfold Serves Handled.libCall
      dsimp only
      split at hhandle
      · rename_i hm
        rw [if_pos hm]
        split at hhandle
        · cases hhandle
        · rename_i ret buffer fs' hread
          refine ⟨⟨ret, buffer⟩, ?_, ?_⟩
          · split at hhandle
            · cases hhandle
              simp [libExec, Part2.exec, hread]
            · cases hhandle
              simp [libExec, Part2.exec, hread]
          · split at hhandle
            · rename_i chunks hbuffer
              cases hhandle
              simp [answerOf, hbuffer]
            · rename_i chunks hbuffer
              cases hhandle
              simp [answerOf, hbuffer]
      · rename_i hm
        rw [if_neg hm]
        cases hhandle
        rfl

/-- The open of a worker that is past the check of the flag: it found the flag up. -/
def OpensChecked (s : Hub) : Prop :=
  ∀ i, s.workers i = .opening → s.fs.openFlag ≠ 0

/-- What a step does to the file system and to the requests handled. -/
def Handles (sys : System) (s s' : Hub) : Prop :=
  (s'.handled = s.handled ∧ s'.fs = s.fs) ∨
    ∃ h, s'.handled = s.handled ++ [h] ∧ (s.OpensChecked → Serves sys s.fs h s'.fs)

theorem Handles.extends (h : Handles sys s s') : s.handled <+: s'.handled := by
  obtain ⟨hhandled, -⟩ | ⟨handled, hhandled, -⟩ := h
  · rw [hhandled]
  · rw [hhandled]
    exact List.prefix_append _ _

theorem take_others (hs : s.take = some s') :
    s'.handled = s.handled ∧ s'.fs = s.fs ∧ s'.workers = s.workers := by
  unfold take at hs
  split at hs
  · cases hs
  · split at hs
    · split at hs
      · cases hs
      · cases hs
        exact ⟨rfl, rfl, rfl⟩
    · split at hs
      · cases hs
      · split at hs
        · cases hs
          exact ⟨rfl, rfl, rfl⟩
        · cases hs
          exact ⟨rfl, rfl, rfl⟩

theorem fill_others {header : Header} (hs : s.fill i header = some s') :
    s'.handled = s.handled ∧ s'.fs = s.fs ∧ s'.workers = s.workers := by
  unfold fill at hs
  simp only at hs
  split at hs
  · cases hs
    exact ⟨rfl, rfl, rfl⟩
  · cases hs

/-- The receiver handles nothing, and brings no worker past a check. -/
theorem receiverStep_others (hs : s.receiverStep = some s') :
    s'.handled = s.handled ∧ s'.fs = s.fs ∧
      ∀ j, s'.workers j = .opening → s.workers j = .opening := by
  unfold receiverStep at hs
  split at hs
  · obtain ⟨hhandled, hfs, hworkers⟩ := take_others hs
    exact ⟨hhandled, hfs, fun j hj => hworkers ▸ hj⟩
  · split at hs
    · cases hs
      exact ⟨rfl, rfl, fun _ => id⟩
    · cases hs
  · obtain ⟨hhandled, hfs, hworkers⟩ := fill_others hs
    exact ⟨hhandled, hfs, fun j hj => hworkers ▸ hj⟩
  · cases hs
    exact ⟨rfl, rfl, fun _ => id⟩
  · rename_i k _
    cases hs
    refine ⟨rfl, rfl, fun j hj => ?_⟩
    -- the worker that is woken is outside
    cases hpos : s.workers k
    case waiting =>
      simp only [hpos] at hj
      by_cases hjk : j = k
      · subst hjk
        rw [Function.update_self] at hj
        cases hj
      · rwa [Function.update_of_ne hjk] at hj
    all_goals
      simp only [hpos] at hj
      exact hj
  · cases hs
    exact ⟨rfl, rfl, fun _ => id⟩

theorem executeCall_handles (hmount : call.isMount = false) (hshutdown : call ≠ .shutdown)
    (hs : s.executeCall sys i call = some s') : Handles sys s s' := by
  unfold executeCall at hs
  split at hs
  · cases hs
  · split at hs
    · cases hs
    · rename_i c _ reply backend' hhandle
      cases hs
      exact Or.inr ⟨_, rfl, fun _ => handle_serves hmount hshutdown hhandle⟩

/-- The refused shutdown calls nothing, and neither does a mount. -/
theorem execute_handles (hs : s.execute sys i = some s') : Handles sys s s' := by
  unfold execute at hs
  split at hs
  · cases hs
    exact Or.inl ⟨rfl, rfl⟩
  · rename_i call _
    cases call with
    | mount path =>
        cases hs
        exact Or.inr ⟨_, rfl, fun _ => rfl⟩
    | shutdown =>
        dsimp only at hs
        split at hs
        · cases hs
        · split at hs
          · cases hs
            exact Or.inr ⟨_, rfl, fun _ => rfl⟩
          · cases hs
            exact Or.inl ⟨rfl, rfl⟩
    | «open» name flags =>
        dsimp only at hs
        split at hs
        · exact executeCall_handles rfl (by simp) hs
        · cases hs
          exact Or.inl ⟨rfl, rfl⟩
    | _ => exact executeCall_handles rfl (by simp) hs

/-- If the flag is still up, this is all of `tfs_open`. -/
theorem openPast_handles (hpos : s.workers i = .opening) (hs : s.openPast i = some s') :
    Handles sys s s' := by
  unfold openPast at hs
  split at hs
  · cases hs
    refine Or.inr ⟨_, rfl, fun hchecked => ⟨⟨_, []⟩, ?_, rfl⟩⟩
    simp only [libExec, tfsOpenInBuffer, if_neg (hchecked i hpos)]
    rfl
  · cases hs

/-- The shutdown that is accepted lowers the flag once no file is open. -/
theorem close_cases (hs : s.close i = some s') : s.fs.openFilesCount = 0 ∧
    ∃ c, s' = { s with fs := { s.fs with openFlag := 0 } }.answer i c .shutdown
      [intBytes sizeofInt 0] .exit := by
  unfold close at hs
  split at hs
  · cases hs
  · unfold caseShutdownReply at hs
    rw [if_neg Bool.false_ne_true] at hs
    split at hs
    · cases hs
    · rename_i c _ _ reply backend' hreply
      split at hreply
      · rename_i hcount
        cases hreply
        exact ⟨hcount, c, (Option.some.inj hs).symm⟩
      · cases hreply

theorem accepted_libCall (c : CString) (session : Session) :
    (Handled.mk c session .shutdown [intBytes sizeofInt 0]).libCall sys =
      some .destroyAfterAllClosed := by
  have haccepted : ([intBytes sizeofInt 0] : Answer) ≠ [failureCode] := by decide
  simp only [Handled.libCall, if_neg haccepted]

theorem close_handles (hs : s.close i = some s') : Handles sys s s' := by
  obtain ⟨hzero, c, rfl⟩ := close_cases hs
  refine Or.inr ⟨_, rfl, fun _ => ?_⟩
  rw [Serves, accepted_libCall]
  refine ⟨⟨0, []⟩, ?_, rfl⟩
  rw [libExec, Lifecycle.tfsDestroyAfterAllClosed, if_neg (not_not.mpr hzero)]
  rfl

/-- It has handled the destroy. -/
theorem close_destroys (hs : s.close i = some s') :
    .destroyAfterAllClosed ∈ libCalls sys s'.handled := by
  obtain ⟨-, c, rfl⟩ := close_cases hs
  have hcall : (Handled.mk c (s.server.sessions i) .shutdown
      [intBytes sizeofInt 0]).libCall sys = some .destroyAfterAllClosed := accepted_libCall c _
  simp only [answer, libCalls, served_snoc_of_some hcall, List.map_append, List.mem_append]
  exact Or.inr List.mem_cons_self

/-- A worker executes its request, opens a file, waits for open files, or only goes on. -/
theorem workerStep_cases (hs : s.workerStep sys i = some s') :
    s.workers i = .executing ∧ s.execute sys i = some s' ∨
    s.workers i = .opening ∧ s.openPast i = some s' ∨
    s.workers i = .closing ∧ s.close i = some s' ∨
    s'.handled = s.handled ∧ s'.fs = s.fs ∧
      ∃ pos, s'.workers = Function.update s.workers i pos ∧ pos ≠ .opening := by
  unfold workerStep at hs
  split at hs
  case h_4 hpos => exact Or.inl ⟨hpos, hs⟩
  case h_5 hpos => exact Or.inr (Or.inl ⟨hpos, hs⟩)
  case h_6 hpos => exact Or.inr (Or.inr (Or.inl ⟨hpos, hs⟩))
  -- a worker outside looks at the lock, and one inside at the flag
  case h_1 =>
    split at hs
    · cases hs
      exact Or.inr (Or.inr (Or.inr ⟨rfl, rfl, _, rfl, by simp⟩))
    · cases hs
  case h_2 =>
    split at hs
    · cases hs
      exact Or.inr (Or.inr (Or.inr ⟨rfl, rfl, _, rfl, by simp⟩))
    · cases hs
      exact Or.inr (Or.inr (Or.inr ⟨rfl, rfl, _, rfl, by simp⟩))
  -- a worker that has left takes no step
  case h_10 | h_12 => cases hs
  all_goals
    cases hs
    exact Or.inr (Or.inr (Or.inr ⟨rfl, rfl, _, rfl, by simp⟩))

theorem workerStep_handles (hs : s.workerStep sys i = some s') : Handles sys s s' := by
  obtain ⟨-, hs⟩ | ⟨hpos, hs⟩ | ⟨-, hs⟩ | ⟨hhandled, hfs, -⟩ := workerStep_cases hs
  · exact execute_handles hs
  · exact openPast_handles hpos hs
  · exact close_handles hs
  · exact Or.inl ⟨hhandled, hfs⟩

/-- Only workers handle requests, one at a step. -/
theorem exec_handles {a : Action} {u : Unit} (hex : exec sys s a = some (u, s')) :
    Handles sys s s' := by
  obtain ⟨c, call, -, rfl⟩ | ⟨c, -, hs⟩ | ⟨-, hs⟩ | ⟨i, -, hs⟩ := exec_cases hex
  · exact Or.inl ⟨rfl, rfl⟩
  · obtain ⟨answer, replies, call, -, -, rfl⟩ := collect_cases hs
    exact Or.inl ⟨rfl, rfl⟩
  · obtain ⟨hhandled, hfs, -⟩ := receiverStep_others hs
    exact Or.inl ⟨hhandled, hfs⟩
  · exact workerStep_handles hs

/-! ## The check of the flag -/

/-- The flag stays, and no worker comes past its check but one that finds it up. -/
theorem OpensChecked.move {pos : WorkerPos} (h : s.OpensChecked)
    (hflag : s'.fs.openFlag = s.fs.openFlag)
    (hworkers : s'.workers = Function.update s.workers i pos)
    (hpos : pos = .opening → s.fs.openFlag ≠ 0) : s'.OpensChecked := by
  intro j hj
  rw [hflag]
  rw [hworkers] at hj
  by_cases hji : j = i
  · subst hji
    rw [Function.update_self] at hj
    exact hpos hj
  · rw [Function.update_of_ne hji] at hj
    exact h j hj

theorem receiverStep_checked (h : s.OpensChecked) (hs : s.receiverStep = some s') :
    s'.OpensChecked := by
  obtain ⟨-, hfs, hworkers⟩ := receiverStep_others hs
  intro j hj
  rw [hfs]
  exact h j (hworkers j hj)

theorem executeCall_checked (h : s.OpensChecked) (hmount : call.isMount = false)
    (hshutdown : call ≠ .shutdown) (hs : s.executeCall sys i call = some s') :
    s'.OpensChecked := by
  unfold executeCall at hs
  split at hs
  · cases hs
  · split at hs
    · cases hs
    · rename_i c _ _ reply backend' hhandle
      cases hs
      have hserves : Serves sys s.fs ⟨c, s.server.sessions i, call, reply.chunks⟩ backend'.fs :=
        handle_serves hmount hshutdown hhandle
      exact h.move (hserves.flag hshutdown) rfl (by simp)

theorem execute_checked (h : s.OpensChecked) (hs : s.execute sys i = some s') :
    s'.OpensChecked := by
  unfold execute at hs
  split at hs
  · cases hs
    exact h.move rfl rfl (by simp)
  · rename_i call _
    cases call with
    | mount path =>
        cases hs
        exact h.move rfl rfl (by simp)
    | shutdown =>
        dsimp only at hs
        split at hs
        · cases hs
        · split at hs
          · cases hs
            exact h.move rfl rfl (by simp)
          · cases hs
            exact h.move rfl rfl (by simp)
    | «open» name flags =>
        dsimp only at hs
        split at hs
        · exact executeCall_checked h rfl (by simp) hs
        · rename_i hup
          cases hs
          exact h.move rfl rfl fun _ => hup
    | _ => exact executeCall_checked h rfl (by simp) hs

theorem openPast_checked (h : s.OpensChecked) (hs : s.openPast i = some s') :
    s'.OpensChecked := by
  unfold openPast at hs
  split at hs
  · rename_i c name flags _ _
    cases hs
    exact h.move (openInBuffer_flag s.fs name flags) rfl (by simp)
  · cases hs

/-- Where the shutdown lowers the flag, no open is past its check of it. -/
theorem close_checked (halone : ∀ j, s.workers j ≠ .opening) (hs : s.close i = some s') :
    s'.OpensChecked := by
  obtain ⟨-, c, rfl⟩ := close_cases hs
  intro j hj
  simp only [answer] at hj
  by_cases hji : j = i
  · subst hji
    rw [Function.update_self] at hj
    cases hj
  · rw [Function.update_of_ne hji] at hj
    exact absurd hj (halone j)

/-- `tfs_destroy_after_all_closed` lowers the flag only while no open is past its check of it. -/
def LowersAlone (s : Hub) (a : Action) : Prop :=
  ∀ i, a = .work i → s.workers i = .closing → ∀ j, s.workers j ≠ .opening

instance (s : Hub) : ∀ a, Decidable (s.LowersAlone a)
  | .work i => decidable_of_iff (s.workers i = .closing → ∀ j, s.workers j ≠ .opening) (by
      simp only [LowersAlone, Action.work.injEq, forall_eq'])
  | .send _ _ => isTrue fun _ h => by cases h
  | .collect _ => isTrue fun _ h => by cases h
  | .receive => isTrue fun _ h => by cases h

theorem workerStep_checked (h : s.OpensChecked) (halone : s.LowersAlone (.work i))
    (hs : s.workerStep sys i = some s') : s'.OpensChecked := by
  obtain ⟨-, hs⟩ | ⟨-, hs⟩ | ⟨hpos, hs⟩ | ⟨-, hfs, pos, hworkers, hopening⟩ := workerStep_cases hs
  · exact execute_checked h hs
  · exact openPast_checked h hs
  · exact close_checked (halone i rfl hpos) hs
  · exact h.move (congrArg FS.openFlag hfs) hworkers fun hpos => absurd hpos hopening

theorem exec_checked {a : Action} {u : Unit} (h : s.OpensChecked) (halone : s.LowersAlone a)
    (hex : exec sys s a = some (u, s')) : s'.OpensChecked := by
  obtain ⟨c, call, -, rfl⟩ | ⟨c, -, hs⟩ | ⟨-, hs⟩ | ⟨i, rfl, hs⟩ := exec_cases hex
  · exact h
  · obtain ⟨answer, replies, call, -, -, rfl⟩ := collect_cases hs
    exact h
  · exact receiverStep_checked h hs
  · exact workerStep_checked h halone hs

/-! ## Runs -/

variable {ok : Machine.Guard Hub Action Unit} {tr tr' : Machine.Trace Action Unit}

/-- A step handles at most one more call of the run. -/
theorem exec_inSequence {a : Action} {u : Unit} (hchecked : s.OpensChecked)
    (hseq : InSequence sys s.handled s.fs) (hex : exec sys s a = some (u, s')) :
    InSequence sys s'.handled s'.fs := by
  obtain ⟨hhandled, hfs⟩ | ⟨h, hhandled, hserves⟩ := exec_handles hex
  · rw [hhandled, hfs]
    exact hseq
  · rw [hhandled]
    exact hseq.snoc (hserves hchecked)

theorem initial_inSequence : InSequence sys initial.handled initial.fs := by
  have hinit : initial.fs = library.init := by
    simp only [initial, library, Part2.machine]
  rw [hinit]
  exact inSequence_nil

theorem initial_checked : initial.OpensChecked := by
  intro i hi
  cases hi

/-- Polite clients, and a shutdown that lowers the flag only while no open is past its check. -/
def Orderly : Machine.Guard Hub Action Unit := fun tr s a => Polite tr s a ∧ s.LowersAlone a

instance (tr : Machine.Trace Action Unit) (s : Hub) (a : Action) : Decidable (Orderly tr s a) :=
  inferInstanceAs (Decidable (Polite tr s a ∧ s.LowersAlone a))

/-- As long as the flag is lowered while no open is past its check, the requests handled so far are
a run of the library. -/
theorem reach_inSequence (hok : ∀ tr s a, ok tr s a → s.LowersAlone a)
    (h : (machine sys).Reach ok (tr, s)) : InSequence sys s.handled s.fs ∧ s.OpensChecked := by
  refine h.invariant (P := fun _ s => InSequence sys s.handled s.fs ∧ s.OpensChecked)
    ⟨initial_inSequence, initial_checked⟩ ?_
  rintro tr s a u s' ⟨hseq, hchecked⟩ hguard hex
  exact ⟨exec_inSequence hchecked hseq hex, exec_checked hchecked (hok tr s a hguard) hex⟩

/-- The worker that lowers the flag has handled the destroy. -/
theorem lowers_alone {a : Action} {u : Unit} (hex : exec sys s a = some (u, s')) :
    s.LowersAlone a ∨ .destroyAfterAllClosed ∈ libCalls sys s'.handled := by
  by_cases halone : s.LowersAlone a
  · exact Or.inl halone
  · right
    obtain ⟨i, rfl, hpos⟩ : ∃ i, a = .work i ∧ s.workers i = .closing := by
      by_contra hnone
      exact halone fun i ha hpos => absurd ⟨i, ha, hpos⟩ hnone
    obtain ⟨_, _, hnot, -⟩ | ⟨_, hnot, -⟩ | ⟨hnot, -⟩ | ⟨j, hj, hs⟩ := exec_cases hex
    · cases hnot
    · cases hnot
    · cases hnot
    cases hj
    simp only [workerStep, hpos] at hs
    exact close_destroys hs

/-- As long as no destroy is handled, the requests handled so far are a run of the library. -/
theorem reach_inSequence_of_open (h : (machine sys).Reach ok (tr, s))
    (hopen : .destroyAfterAllClosed ∉ libCalls sys s.handled) :
    InSequence sys s.handled s.fs := by
  have hrun : .destroyAfterAllClosed ∈ libCalls sys s.handled ∨
      InSequence sys s.handled s.fs ∧ s.OpensChecked := by
    refine h.invariant (P := fun _ s => .destroyAfterAllClosed ∈ libCalls sys s.handled ∨
      InSequence sys s.handled s.fs ∧ s.OpensChecked)
      (Or.inr ⟨initial_inSequence, initial_checked⟩) ?_
    rintro tr s a u s' (hdestroy | ⟨hseq, hchecked⟩) - hex
    · exact Or.inl (libCalls_mono (exec_handles hex).extends hdestroy)
    · obtain halone | hdestroy := lowers_alone hex
      · exact Or.inr ⟨exec_inSequence hchecked hseq hex, exec_checked hchecked halone hex⟩
      · exact Or.inl hdestroy
  exact (hrun.resolve_left hopen).1

/-- What has been handled stays in its place. -/
theorem later_handled (h : (machine sys).Later ok (tr, s) (tr', s')) :
    s.handled <+: s'.handled := by
  refine Machine.Later.invariant (P := fun _ s' => s.handled <+: s'.handled) h
    List.prefix_rfl ?_
  intro tr s₁ a u s₂ hpre _ hex
  exact hpre.trans (exec_handles hex).extends

end Hub

/-- Between any two moments of a run of polite clients in which `open_flag` is lowered only while no
open is past its check of it: the requests handled by the later one are calls of one run of the
library, with its results for answers; those handled by the earlier one come first among them. At
the earlier one, a client has received the answers to the first requests handled for it, and these
are the first ones it sent. So a request that was answered before another one was sent stands before
it. -/
theorem served_in_sequence (sys : System) {tr tr' : Machine.Trace Hub.Action Unit} {s s' : Hub}
    (h : (Hub.machine sys).Reach Hub.Orderly (tr, s))
    (hl : (Hub.machine sys).Later Hub.Orderly (tr, s) (tr', s')) :
    InSequence sys s'.handled s'.fs ∧ s.handled <+: s'.handled ∧
      ∀ c, (s.clients c).received <+: (s.handledOf c).map Handled.answer ∧
        List.Forall₂ Hub.Matches (s.handledOf c)
          ((s.clients c).sent.take (s.handledOf c).length) := by
  obtain ⟨g, hinv⟩ := Hub.reach_inv (h.mono fun _ _ _ hok => hok.1)
  refine ⟨(Hub.reach_inSequence (fun _ _ _ hok => hok.2) (h.later hl)).1, Hub.later_handled hl,
    fun c => ?_⟩
  obtain ⟨hmatches, hreceived⟩ := (hinv.client c).history.first_sent
  exact ⟨hreceived, hmatches⟩

/-- One client opens a file, the other one writes to it, the first one closes it and the other one
shuts the server down. -/
theorem served_in_sequence_two : ∃ s : Hub,
    (s.clients pathA).received =
      [[intBytes sizeofInt 1], [intBytes sizeofInt 0], [intBytes sizeofInt 0]] ∧
    libCalls ampleSystem s.handled = [.call (.open pathA tfsOCreat), .call (.write 0 [1, 2, 3]),
      .call (.close 0), .destroyAfterAllClosed] ∧
    InSequence ampleSystem s.handled s.fs := by
  have hplay : ((Hub.machine ampleSystem).play Hub.Orderly ([], Hub.initial)
      (Hub.openAndWrite ++ [.send pathA (.close 0)] ++ Hub.serve 0 ++
        [.collect pathA, .send pathB .shutdown] ++ List.replicate 6 .receive ++
        List.replicate 5 (.work 1))).map (fun cfg => decide (
          (cfg.2.clients pathA).received =
            [[intBytes sizeofInt 1], [intBytes sizeofInt 0], [intBytes sizeofInt 0]] ∧
          libCalls ampleSystem cfg.2.handled = [.call (.open pathA tfsOCreat),
            .call (.write 0 [1, 2, 3]), .call (.close 0), .destroyAfterAllClosed])) =
      some true := by
    decide +kernel
  obtain ⟨⟨tr, s⟩, hplay, hfacts⟩ := Option.map_eq_some_iff.mp hplay
  obtain ⟨hreceived, hcalls⟩ := of_decide_eq_true hfacts
  have hreach : (Hub.machine ampleSystem).Reach Hub.Orderly (tr, s) :=
    Machine.Reach.start.play hplay
  exact ⟨s, hreceived, hcalls,
    (served_in_sequence ampleSystem hreach Relation.ReflTransGen.refl).1⟩

/-! ## The answers of the abstract file system -/

/-- What a call may return: no more than a block, and bytes only from a read. -/
inductive Returned : Call → Ret → Prop
  | failed {c : Call} : Returned c ⟨-1, []⟩
  | read {fhandle : Int} {len : Nat} {bytes : List UInt8} (hsize : bytes.length ≤ blockSize) :
      Returned (.read fhandle len) ⟨(bytes.length : Nat), bytes⟩
  | other {c : Call} {n : Nat} (hread : ∀ fhandle len, c ≠ .read fhandle len)
      (hsize : n ≤ blockSize) : Returned c ⟨(n : Nat), []⟩

namespace Abstract

theorem Store.addHandle_returned (a : Store) (e : Handle) {path : CString} {flags : BitVec 32} :
    Returned (.open path flags) ⟨(a.addHandle e).1, []⟩ := by
  unfold Store.addHandle
  split
  · exact .failed
  · rename_i h _
    refine .other (by simp) (h.isLt.le.trans ?_)
    decide

theorem Store.exec_returned (a : Store) {c : Call} (hlookup : ∀ path, c ≠ .lookup path) :
    Returned c (a.exec c).1 := by
  cases c with
  | lookup path => exact absurd rfl (hlookup path)
  | «open» path flags =>
      simp only [Store.exec, Store.openFile]
      split
      · exact Store.addHandle_returned _ _
      · split
        · exact .failed
        · split
          · exact Store.addHandle_returned _ _
          · exact .failed
  | close fhandle =>
      simp only [Store.exec, Store.close]
      split
      · exact .failed
      · exact .other (n := 0) (by simp) (Nat.zero_le _)
  | write fhandle buffer =>
      simp only [Store.exec, Store.write]
      split
      · exact .failed
      · exact .other (by simp) ((Nat.min_le_right _ _).trans (Nat.sub_le _ _))
  | read fhandle len =>
      simp only [Store.exec, Store.read]
      split
      · exact .failed
      · rename_i h e _
        refine .read ?_
        refine le_trans ?_ (a.contents e.file).fits
        rw [List.length_take, List.length_drop]
        exact (Nat.min_le_right _ _).trans (Nat.sub_le _ _)

end Abstract

/-- The client takes the number that the handler has written. -/
theorem readInto_intBytes {size : Nat} {i : Int} (hsize : size = sizeofInt ∨ size = sizeofSsizeT)
    (hlo : -1 ≤ i) (hhi : i ≤ blockSize) :
    ApiCall.readInto sys size (intBytes size i) = i := by
  rw [ApiCall.readInto_of_length sys (length_intBytes size i)]
  simp only [blockSize] at hhi
  rcases hsize with rfl | rfl
  · exact leInt_intBytes (by simp only [sizeofInt]; omega) (by simp only [sizeofInt]; omega)
  · exact leInt_intBytes (by simp only [sizeofSsizeT]; omega) (by simp only [sizeofSsizeT]; omega)

/-- A call that is no read, or a read that delivers something, returns to the client what the
library returned to the worker. -/
theorem Returned.returns {h : Handled} {c : Call} {r : Ret} (hr : Returned c r)
    (hcall : h.libCall sys = some (.call c)) (hanswer : h.answer = answerOf sys (.call c) r)
    (hread : ∀ fhandle len, h.call = .read fhandle len → 0 < r.value) :
    h.call.returns sys h.answer = some (r.value, r.bytes) := by
  have hlo : -1 ≤ r.value := by
    cases hr with
    | failed => exact Int.le_refl _
    | read => dsimp only; omega
    | other => dsimp only; omega
  have hhi : r.value ≤ blockSize := by
    cases hr with
    | failed => decide
    | read hsize => exact Int.ofNat_le.mpr hsize
    | other _ hsize => exact Int.ofNat_le.mpr hsize
  -- only a read has bytes
  have hbytes : (∀ fhandle len, c ≠ .read fhandle len) → r.bytes = [] := by
    intro hno
    cases hr with
    | failed => rfl
    | read => exact absurd rfl (hno _ _)
    | other => rfl
  unfold Handled.libCall at hcall
  split at hcall
  · cases hcall
  · cases hcall
  · rename_i name flags hopen
    cases hcall
    rw [hanswer, hopen, hbytes (by simp)]
    simp [answerOf, ApiCall.returns, readInto_intBytes (Or.inl rfl) hlo hhi]
  · rename_i fhandle hclose
    cases hcall
    rw [hanswer, hclose, hbytes (by simp)]
    simp [answerOf, ApiCall.returns, readInto_intBytes (Or.inl rfl) hlo hhi]
  · rename_i fhandle buffer hwrite
    split at hcall
    · cases hcall
      rw [hanswer, hwrite, hbytes (by simp)]
      simp [answerOf, ApiCall.returns, readInto_intBytes (Or.inr rfl) hlo hhi]
    · cases hcall
  · rename_i fhandle len hcallread
    split at hcall
    · cases hcall
      have hpos := hread _ _ hcallread
      cases hr with
      | failed => exact absurd hpos (by decide)
      | other hno _ => exact absurd rfl (hno _ _)
      | @read _ _ bytes hsize =>
          have hne : bytes ≠ [] := by
            rintro rfl
            exact absurd hpos (by decide)
          -- the second write of the handler is the bytes, in one piece
          have hone : sys.InOnePiece bytes := Or.inl (hsize.trans (by decide))
          have hwrite : answerOf sys (.call (.read fhandle len)) ⟨(bytes.length : Nat), bytes⟩ =
              [intBytes sizeofSsizeT (bytes.length : Nat), bytes] := by
            simp only [answerOf, castSizeT (hsize.trans blockSize_le), writeBuffer_all,
              hone.chunks, if_neg hne]
          rw [hanswer, hcallread, hwrite]
          simp [ApiCall.returns, readInto_intBytes (Or.inr rfl) hlo hhi]
    · cases hcall
  · split at hcall
    · cases hcall
    · cases hcall

/-- A run of library calls that do not crash, without a destroy. -/
theorem library_run {cs : List Call} {results : List Ret} (hrun : machine.run fs cs =
    some (results, fs')) : library.run fs (cs.map LibCall.call) = some (results, fs') := by
  refine Machine.run_map (fun s c r s' hexec => ?_) hrun
  simp only [library, machine] at hexec ⊢
  exact libExec_of_exec hexec

/-- The library call of an entry is that of its request. -/
theorem libCall_of_mem {hs : List Handled} {e : Handled × LibCall} (he : e ∈ served sys hs) :
    e.1.libCall sys = some e.2 := by
  obtain ⟨h, -, heq⟩ := List.mem_filterMap.mp he
  obtain ⟨c, hc, rfl⟩ := Option.map_eq_some_iff.mp heq
  exact hc

/-- No client asks for a lookup. -/
theorem libCall_ne_lookup {h : Handled} {path : CString} :
    h.libCall sys ≠ some (.call (.lookup path)) := by
  unfold Handled.libCall
  cases h.call with
  | write fhandle buffer =>
      dsimp only
      split <;> simp
  | read fhandle len =>
      dsimp only
      split <;> simp
  | shutdown =>
      dsimp only
      split <;> simp
  | _ => simp

/-- What the calls of an admissible run return. -/
theorem run_returned {cs : List Call} {results : List Ret} {fs : FS}
    (hok : machine.Admits Allowed machine.init cs)
    (hrun : machine.run machine.init cs = some (results, fs)) :
    List.Forall₂ (fun c r => (∀ path, c ≠ .lookup path) → Returned c r) cs results := by
  refine Machine.run_forall (I := fun fs => ∃ a, Sim a fs) ?_ ⟨_, sim_init⟩ hok hrun
  rintro fs c r fs' ⟨a, hsim⟩ hallowed hexec
  obtain ⟨r', a', fs'', habs, hexec', hsim'⟩ := sim_step a fs c hsim hallowed
  rw [hexec, Option.some.injEq, Prod.mk.injEq] at hexec'
  obtain ⟨rfl, rfl⟩ := hexec'
  refine ⟨⟨a', hsim'⟩, fun hlookup => ?_⟩
  have hsame : (a.exec c).1 = r := congrArg Prod.fst (Option.some.inj habs)
  rw [← hsame]
  exact a.exec_returned hlookup

/-- In a run of polite clients: as long as the server has not been shut down, and as long as the
requests handled so far are calls that the abstract file system answers, it answers them. Every
call of a client, but for a read that delivers nothing, returns what the abstract file system
returns to it in that order. -/
theorem served_as_abstract (sys : System) {tr : Machine.Trace Hub.Action Unit} {s : Hub}
    {cs : List Call} (h : (Hub.machine sys).Reach Hub.Polite (tr, s))
    (hcalls : libCalls sys s.handled = cs.map .call)
    (hok : machine.Admits Allowed machine.init cs) :
    ∃ results store, Abstract.machine.run Abstract.machine.init cs = some (results, store) ∧
      List.Forall₂ (fun e r => (∀ fhandle len, e.1.call = .read fhandle len → 0 < r.value) →
        e.1.call.returns sys e.1.answer = some (r.value, r.bytes))
        (served sys s.handled) results := by
  have hopen : .destroyAfterAllClosed ∉ libCalls sys s.handled := by
    rw [hcalls]
    simp
  obtain ⟨results, hrun, hanswers⟩ := Hub.reach_inSequence_of_open h hopen
  obtain ⟨results', store, fs', habs, hrun', -⟩ :=
    Machine.run_refines Abstract.machine machine Sim Allowed sim_step cs _ _ sim_init hok
  rw [hcalls, library_init, library_run hrun', Option.some.injEq, Prod.mk.injEq] at hrun
  obtain ⟨rfl, rfl⟩ := hrun
  refine ⟨results', store, habs, ?_⟩
  have hreturned : List.Forall₂ (fun e r => (∀ path, e ≠ .call (.lookup path)) →
      ∃ c, e = .call c ∧ Returned c r) (cs.map LibCall.call) results' := by
    refine List.forall₂_map_left_iff.mpr ((run_returned hok hrun').imp fun c r hr hlookup => ?_)
    exact ⟨c, rfl, hr fun path heq => hlookup path (congrArg LibCall.call heq)⟩
  rw [← hcalls, libCalls, List.forall₂_map_left_iff, List.forall₂_iff_zip] at hreturned
  rw [List.forall₂_iff_zip] at hanswers ⊢
  refine ⟨hanswers.1, fun {e r} hmem hread => ?_⟩
  have hcall := libCall_of_mem (List.of_mem_zip hmem).1
  obtain ⟨c, hc, hr⟩ := hreturned.2 hmem fun path heq =>
    libCall_ne_lookup (hcall.trans (congrArg some heq))
  have hanswer := hanswers.2 hmem
  rw [hc] at hcall hanswer
  exact hr.returns hcall hanswer hread

/-- One client opens a file, the other one writes to it, and the first one reads it through a second
handle. -/
theorem served_as_abstract_read : ∃ (s : Hub) (results : List Ret) (store : Abstract.Store),
    Abstract.machine.run Abstract.machine.init [.open pathA tfsOCreat, .write 0 [1, 2, 3],
      .open pathA 0, .read 1 10] = some (results, store) ∧
    results[3]? = some ⟨3, [1, 2, 3]⟩ ∧
    List.Forall₂ (fun e r => (∀ fhandle len, e.1.call = .read fhandle len → 0 < r.value) →
      e.1.call.returns ampleSystem e.1.answer = some (r.value, r.bytes))
      (served ampleSystem s.handled) results := by
  let calls : List Call :=
    [.open pathA tfsOCreat, .write 0 [1, 2, 3], .open pathA 0, .read 1 10]
  have hplay : ((Hub.machine ampleSystem).play Hub.Polite ([], Hub.initial)
      (Hub.openAndWrite ++ [.send pathA (.open pathA 0)] ++ Hub.serve 0 ++
        [.work 0, .collect pathA, .send pathA (.read 1 10)] ++ Hub.serve 0)).map
      (fun cfg => decide (libCalls ampleSystem cfg.2.handled = calls.map .call)) = some true := by
    decide +kernel
  obtain ⟨⟨tr, s⟩, hplay, hfacts⟩ := Option.map_eq_some_iff.mp hplay
  have hcalls := of_decide_eq_true hfacts
  have hreach : (Hub.machine ampleSystem).Reach Hub.Polite (tr, s) :=
    Machine.Reach.start.play hplay
  have hok : machine.Admits Allowed machine.init calls := by decide +kernel
  have hread : (Abstract.machine.run Abstract.machine.init calls).bind (fun out => out.1[3]?) =
      some ⟨3, [1, 2, 3]⟩ := by decide +kernel
  obtain ⟨results, store, hrun, hreturns⟩ := served_as_abstract ampleSystem hreach hcalls hok
  rw [hrun] at hread
  exact ⟨s, results, store, hrun, hread, hreturns⟩

end TecnicoFS.Part2
