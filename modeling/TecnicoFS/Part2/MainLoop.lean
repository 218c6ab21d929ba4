import TecnicoFS.Part2.Receiver
import TecnicoFS.Lib.Balance

/-!
# Part 2: the locks of the receive loop (`main` in `fs/tfs_server.c`)

`Receiver.lean` has the loop of `main` on the bytes alone. Here it is a program over the locks,
and every `read` may return fewer bytes than asked for, find the end of the file, or fail;
`LoopRuns.lean` shows that the two agree where no `read` does.

`shutting_down_lock` is taken before the loop and at its end, and released at its top: an
iteration that goes through to its end hands it on. A `continue` goes to the condition of the
loop without it, so the next iteration releases a lock that it does not hold; where the mount
branch continues after a failed read, it keeps `next_session_id_lock` as well.

An iteration keeps the discipline exactly when the message it finds arrives whole
(`disciplined_iff`).
-/

namespace TecnicoFS.Part2.MainLoop

open Threads Threads.Prog

/-! ## The server pipe -/

/-- What a `read` of the server pipe can come upon: some bytes, the end of the file, an
error. -/
inductive Arrival where
  | data (first : UInt8) (more : List UInt8)
  | eof
  | error
deriving DecidableEq

/-- `read` of at most `count` bytes: what it returns, nothing where it fails, and what is left.
With nothing to come it waits (`none`). -/
def readPipe (count : Nat) : List Arrival → Option (Option (List UInt8) × List Arrival)
  | [] => none
  | .error :: rest => some (none, rest)
  | .eof :: rest => some (some [], rest)
  | .data first more :: rest =>
      match (first :: more).drop count with
      | [] => some (some (first :: more), rest)
      | next :: left => some (some ((first :: more).take count), .data next left :: rest)

/-- `read_buffer`: it reads on until it has `toRead` bytes, past any end of the file. It returns
whether it got them, and what it got. -/
def readBuffer : Nat → List Arrival → Option ((Bool × List UInt8) × List Arrival)
  | 0, arrivals => some ((true, []), arrivals)
  | _ + 1, [] => none
  | _ + 1, .error :: rest => some ((false, []), rest)
  | toRead + 1, .eof :: rest => readBuffer (toRead + 1) rest
  | toRead + 1, .data first more :: rest =>
      match more.drop toRead with
      | next :: left => some ((true, first :: more.take toRead), .data next left :: rest)
      | [] => (readBuffer (toRead - more.length) rest).map fun p =>
          ((p.1.1, first :: more ++ p.1.2), p.2)

/-! ## State -/

/-- The state of the server, with the local variables of `main` that outlive an iteration: the
bytes of `session_id` and of `len`. -/
structure Main where
  server : Server
  isActive : Fin maxClients → Bool
  shuttingDown : Bool
  arrivals : List Arrival
  sessionId : List UInt8
  len : List UInt8

/-- The mutexes of `tfs_server.c`. The sessions are indexed before the index is checked. -/
inductive Lock where
  | shuttingDownLock
  | nextSessionIdLock
  | session (i : Int)
deriving DecidableEq

/-- The condition variables of the sessions. -/
inductive Cond where
  | sessionFlag (i : Int)
deriving DecidableEq

/-- The programs of `main`. -/
abbrev Op (α : Type) : Type := Prog Main Lock Cond α

/-- How an iteration ends: at its end, at a `continue`, or with the process. -/
inductive Ended where
  | completed
  | continued
  | exited
deriving DecidableEq

namespace Main

/-- The state when the loop is entered; the local variables are not initialised. -/
def start (arrivals : List Arrival) (sessionId len : List UInt8) : Main where
  server := startSessions
  isActive := fun _ => false
  shuttingDown := false
  arrivals := arrivals
  sessionId := sessionId
  len := len

/-- The pipe after a read. -/
def setArrivals (m : Main) (arrivals : List Arrival) : Main := { m with arrivals := arrivals }

/-- Bytes read into `session_id`. -/
def setSessionId (m : Main) (bytes : List UInt8) : Main :=
  { m with sessionId := bytes ++ m.sessionId.drop bytes.length }

/-- Bytes read into `len`. -/
def setLen (m : Main) (bytes : List UInt8) : Main :=
  { m with len := bytes ++ m.len.drop bytes.length }

/-- `session_id = next_session_id++`. -/
def takeSessionId (m : Main) : Main :=
  { m with
    server := { m.server with nextSessionId := m.server.nextSessionId + 1 }
    sessionId := intBytes sizeofInt m.server.nextSessionId }

/-- A change of one session; outside the array it is undefined. -/
def changeSession (m : Main) (i : Int) (change : Session → Session) : Option Main :=
  (index? maxClients i).map fun k => { m with
    server := { m.server with
      sessions := Function.update m.server.sessions k (change (m.server.sessions k)) } }

/-- `is_active = true`. -/
def activate (m : Main) (i : Int) : Option Main :=
  (index? maxClients i).map fun k => { m with isActive := Function.update m.isActive k true }

end Main

/-- Bytes copied into the buffer of a session. -/
def fill (offset : Nat) (bytes : List UInt8) (session : Session) : Session :=
  { session with buffer := Memory.store session.buffer offset bytes }

/-! ## Reading -/

/-- `read` from the server pipe. -/
def read (count : Nat) : Op (Option (List UInt8)) :=
  act (fun m => (readPipe count m.arrivals).map fun p => m.setArrivals p.2) fun m =>
    match readPipe count m.arrivals with
    | none => crash
    | some p => ret p.1

/-- `read_buffer` into the buffer of a session: whether it succeeded. Past the end of the buffer
it is undefined. -/
def readBufferInto (i : Int) (offset toRead : Nat) : Op Bool :=
  if maxRequestSize < offset + toRead then crash
  else
    act (fun m => (readBuffer toRead m.arrivals).bind fun p =>
        (m.setArrivals p.2).changeSession i (fill offset p.1.2)) fun m =>
      match readBuffer toRead m.arrivals with
      | none => crash
      | some p => ret p.1.1

/-- `read_buffer` into `temp_buffer`, which nobody reads. -/
def readTempBuffer (toRead : Nat) : Op Unit :=
  act (fun m => (readBuffer toRead m.arrivals).map fun p => m.setArrivals p.2) fun _ => ret ()

/-! ## The receive loop -/

/-- `check_pipe_open`: nothing where the process exits. -/
def checkPipeOpen : Option (List UInt8) → Op (Option Bool)
  | none => pure (some false)
  | some [] => do
      lock .shuttingDownLock
      let down ← Prog.read fun m => m.shuttingDown
      unlock .shuttingDownLock
      if down then pure none else pure (some false)
  | some (_ :: _) => pure (some true)

/-- The end of an iteration: the session is handed to its worker. -/
def postSession (i : Int) : Op Ended := do
  modify? fun m => m.activate i
  wakeOne (.sessionFlag i)
  unlock (.session i)
  lock .shuttingDownLock
  pure .completed

/-- A read failed, or the session id is not valid. -/
def giveUp (i : Int) : Op Ended := do
  unlock (.session i)
  pure .continued

/-- The last `read_buffer` of a request. -/
def readRest (i : Int) (offset toRead : Nat) : Op Ended := do
  let ok ← readBufferInto i offset toRead
  if ok then postSession i else giveUp i

/-- `handle_too_many_clients`, as far as it concerns the locks. -/
def handleTooManyClients : Op Unit := unlock .nextSessionIdLock

/-- The branch for `TFS_OP_CODE_MOUNT`. -/
def receiveMount : Op Ended := do
  lock .nextSessionIdLock
  let sessionId ← Prog.read fun m => m.server.nextSessionId
  modify fun m => m.takeSessionId
  lock (.session (sessionId - 1))
  modify? fun m => m.changeSession (sessionId - 1) fun session =>
    fill 0 [tfsOpCodeMount] { session with sessionId := sessionId }
  let nextSessionId ← Prog.read fun m => m.server.nextSessionId
  if 64 < nextSessionId then
    handleTooManyClients
    readTempBuffer mountSizeServer
    giveUp (sessionId - 1)
  else
    let ok ← readBufferInto (sessionId - 1) 1 mountSizeServer
    if ok then
      unlock .nextSessionIdLock
      postSession (sessionId - 1)
    else giveUp (sessionId - 1)

/-- The branch for `TFS_OP_CODE_WRITE`. -/
def receiveWrite (i : Int) : Op Ended := do
  let handle ← read sizeofInt
  match handle with
  | none => giveUp i
  | some handleBytes => do
      modify? fun m => m.changeSession i (fill (1 + sizeofInt) handleBytes)
      let length ← read sizeofSizeT
      match length with
      | none => giveUp i
      | some lenBytes => do
          modify fun m => m.setLen lenBytes
          let len ← Prog.read fun m => m.len
          modify? fun m => m.changeSession i (fill (1 + 2 * sizeofInt) len)
          readRest i (1 + 2 * sizeofInt + sizeofSizeT) (leNat len)

/-- The switch of `main`. An unknown operation code ends the program with the session
locked. -/
def receiveBody (i : Int) (opCode : UInt8) : Op Ended :=
  if opCode = tfsOpCodeOpen then readRest i (1 + sizeofInt) openSizeServer
  else if opCode = tfsOpCodeClose then readRest i (1 + sizeofInt) closeSizeServer
  else if opCode = tfsOpCodeWrite then receiveWrite i
  else if opCode = tfsOpCodeRead then readRest i (1 + sizeofInt) readSizeServer
  else if opCode = tfsOpCodeUnmount ∨ opCode = tfsOpCodeShutdownAfterAllClosed then postSession i
  else pure .exited

/-- The branch for the other operation codes: only a `read` that fails is noticed, and one that
returns fewer bytes leaves the rest of `session_id` as it was. -/
def receiveRequest (opCode : UInt8) : Op Ended := do
  let bytes ← read sizeofInt
  match bytes with
  | none => pure .continued
  | some bytes => do
      modify fun m => m.setSessionId bytes
      let idBytes ← Prog.read fun m => m.sessionId
      lock (.session (leInt idBytes - 1))
      if leInt idBytes < 1 ∨ (maxClients : Int) < leInt idBytes then giveUp (leInt idBytes - 1)
      else
        modify? fun m => m.changeSession (leInt idBytes - 1) fun session =>
          fill 1 idBytes (fill 0 [opCode] session)
        receiveBody (leInt idBytes - 1) opCode

/-- One iteration of the loop of `main`, up to its condition. -/
def iteration : Op Ended := do
  unlock .shuttingDownLock
  let opCode ← read 1
  let isOpen ← checkPipeOpen opCode
  match isOpen, opCode with
  | none, _ => pure .exited
  | some true, some (opCode :: _) =>
      if opCode = tfsOpCodeMount then receiveMount else receiveRequest opCode
  | some _, _ => pure .continued

/-- What the workers do meanwhile: they change the sessions and their marks, and one of them may
set `shutting_down`. -/
structure Workers (m m' : Main) : Prop where
  nextSessionId : m'.server.nextSessionId = m.server.nextSessionId
  arrivals : m'.arrivals = m.arrivals
  sessionId : m'.sessionId = m.sessionId
  len : m'.len = m.len
  shuttingDown : m.shuttingDown = true → m'.shuttingDown = true

/-- The locks of `main` at the top of an iteration, as the unlock there assumes. -/
def topLocks : List (Lock × Mode) := [(.shuttingDownLock, .write)]

/-- The main thread at the top of the loop, with the locks it holds there, in a run from a
state. `ok` is asked of every state in which an iteration begins. -/
inductive Serving (ok : Main → Prop) (m₀ : Main) : List (Lock × Mode) → Main → Prop
  | start : Serving ok m₀ topLocks m₀
  | again {held held' : List (Lock × Mode)} {m m' : Main} {e : Ended}
      (h : Serving ok m₀ held m) (hok : ok m)
      (hwalk : Walk.To Workers ⟨iteration, held, m⟩ ⟨.ret e, held', m'⟩)
      (hmore : e ≠ .exited) (hcond : m'.shuttingDown = false) : Serving ok m₀ held' m'

/-- The discipline of one iteration, on every path: what is released is held, and at the end
`shutting_down_lock` is held and nothing else. -/
def Disciplined (held : List (Lock × Mode)) (m : Main) : Prop :=
  ∀ w, Walk.To Workers ⟨iteration, held, m⟩ w →
    (∀ e, w.prog = .ret e → e ≠ .exited → w.held = topLocks) ∧
      ∀ l next, w.prog = .release l next → ∃ mode, (l, mode) ∈ w.held

/-! ## A message that arrives whole -/

/-- The next `read` does not fail, and what it returns is such. -/
def Arrives (count : Nat) (arrivals : List Arrival) (P : List UInt8 → List Arrival → Prop) : Prop :=
  ∀ r rest, readPipe count arrivals = some (r, rest) → ∃ bytes, r = some bytes ∧ P bytes rest

/-- The rest of a message that fits into the buffer is read without an error. -/
def RestArrives (offset toRead : Nat) (arrivals : List Arrival) : Prop :=
  offset + toRead ≤ maxRequestSize →
    ∀ ok bytes rest, readBuffer toRead arrivals = some ((ok, bytes), rest) → ok = true

/-- What follows the session id. -/
def BodyArrives (opCode : UInt8) (len : List UInt8) (arrivals : List Arrival) : Prop :=
  if opCode = tfsOpCodeOpen then RestArrives (1 + sizeofInt) openSizeServer arrivals
  else if opCode = tfsOpCodeClose then RestArrives (1 + sizeofInt) closeSizeServer arrivals
  else if opCode = tfsOpCodeWrite then
    Arrives sizeofInt arrivals fun _ rest => Arrives sizeofSizeT rest fun bytes rest =>
      RestArrives (1 + 2 * sizeofInt + sizeofSizeT) (leNat (bytes ++ len.drop bytes.length)) rest
  else if opCode = tfsOpCodeRead then RestArrives (1 + sizeofInt) readSizeServer arrivals
  else True

/-- The path of a mount is read without an error, and there is a session left for it. -/
def MountArrives (nextSessionId : Int) (arrivals : List Arrival) : Prop :=
  ∀ ok bytes rest, readBuffer mountSizeServer arrivals = some ((ok, bytes), rest) →
    ok = true ∧ nextSessionId < 64

/-- The session id is read without an error, it is one, and the rest of the request follows. -/
def RequestArrives (opCode : UInt8) (sessionId len : List UInt8) (arrivals : List Arrival) : Prop :=
  Arrives sizeofInt arrivals fun bytes rest =>
    (1 ≤ leInt (bytes ++ sessionId.drop bytes.length) ∧
      leInt (bytes ++ sessionId.drop bytes.length) ≤ maxClients) ∧ BodyArrives opCode len rest

/-- The next message arrives whole: its operation code is a byte, neither an error nor the end
of the file, and the rest follows. -/
def Complete (m : Main) : Prop :=
  Arrives 1 m.arrivals fun bytes rest => ∃ opCode, bytes.head? = some opCode ∧
    if opCode = tfsOpCodeMount then MountArrives m.server.nextSessionId rest
    else RequestArrives opCode m.sessionId m.len rest

/-! ## The workers do not disturb the loop -/

namespace Workers

variable {m m' m'' : Main}

theorem refl (m : Main) : Workers m m := ⟨rfl, rfl, rfl, rfl, id⟩

theorem trans (h : Workers m m') (h' : Workers m' m'') : Workers m m'' where
  nextSessionId := h'.nextSessionId.trans h.nextSessionId
  arrivals := h'.arrivals.trans h.arrivals
  sessionId := h'.sessionId.trans h.sessionId
  len := h'.len.trans h.len
  shuttingDown := fun hdown => h'.shuttingDown (h.shuttingDown hdown)

/-- Many steps of the workers are like one. -/
theorem of_reach (h : Relation.ReflTransGen Workers m m') : Workers m m' := by
  induction h with
  | refl => exact refl m
  | tail _ hstep ih => exact ih.trans hstep

theorem setSessionId (h : Workers m m') (bytes : List UInt8) :
    Workers (m.setSessionId bytes) (m'.setSessionId bytes) :=
  ⟨h.nextSessionId, h.arrivals, by simp [Main.setSessionId, h.sessionId], h.len, h.shuttingDown⟩

theorem setLen (h : Workers m m') (bytes : List UInt8) :
    Workers (m.setLen bytes) (m'.setLen bytes) :=
  ⟨h.nextSessionId, h.arrivals, h.sessionId, by simp [Main.setLen, h.len], h.shuttingDown⟩

theorem takeSessionId (h : Workers m m') : Workers m.takeSessionId m'.takeSessionId where
  nextSessionId := by simp [Main.takeSessionId, h.nextSessionId]
  arrivals := h.arrivals
  sessionId := by simp [Main.takeSessionId, h.nextSessionId]
  len := h.len
  shuttingDown := h.shuttingDown

theorem setArrivals (h : Workers m m') (arrivals : List Arrival) :
    Workers (m.setArrivals arrivals) (m'.setArrivals arrivals) :=
  ⟨h.nextSessionId, rfl, h.sessionId, h.len, h.shuttingDown⟩

end Workers

section Rules

variable {α : Type} {Q : α → List (Lock × Mode) → Prop} {held : List (Lock × Mode)} {m : Main}

theorem balanced_pipe_iff {count : Nat} {k : Option (List UInt8) → Op α} :
    Balanced Workers Q ((read count).bind k) held m ↔
      ∀ r rest, readPipe count m.arrivals = some (r, rest) →
        Balanced Workers Q (k r) held (m.setArrivals rest) := by
  constructor
  · intro h r rest hread
    have hnext := h m Relation.ReflTransGen.refl (m.setArrivals rest) (by simp [hread])
    simp only [hread] at hnext
    exact hnext
  · intro h m' hother m'' heff
    have hworkers := Workers.of_reach hother
    simp only [hworkers.arrivals] at heff
    rcases Option.map_eq_some_iff.mp heff with ⟨p, hread, rfl⟩
    simp only [hworkers.arrivals, hread]
    exact (h p.1 p.2 hread).later (Relation.ReflTransGen.single (hworkers.setArrivals p.2))

/-- A read whose failure breaks the balance has to succeed. -/
theorem balanced_arrives_iff {count : Nat} {k : Option (List UInt8) → Op α}
    {P : List UInt8 → List Arrival → Prop} (hnone : ∀ m, ¬ Balanced Workers Q (k none) held m)
    (hsome : ∀ bytes rest, Balanced Workers Q (k (some bytes)) held (m.setArrivals rest) ↔
      P bytes rest) :
    Balanced Workers Q ((read count).bind k) held m ↔ Arrives count m.arrivals P := by
  rw [balanced_pipe_iff]
  constructor
  · intro h r rest hread
    cases r with
    | none => exact absurd (h none rest hread) (hnone _)
    | some bytes => exact ⟨bytes, rfl, (hsome bytes rest).mp (h (some bytes) rest hread)⟩
  · intro h r rest hread
    rcases h r rest hread with ⟨bytes, rfl, hbytes⟩
    exact (hsome bytes rest).mpr hbytes

/-- A defined change of one session matters to no balance. -/
theorem balanced_session_iff {e : Main → Option Main} {k : Unit → Op α}
    (he : ∀ m m', e m = some m' → Workers m m' ∧ Workers m' m) (hdef : (e m).isSome) :
    Balanced Workers Q ((modify? e).bind k) held m ↔ Balanced Workers Q (k ()) held m := by
  rcases Option.isSome_iff_exists.mp hdef with ⟨m₁, hm₁⟩
  constructor
  · intro h
    have hnext : Balanced Workers Q (k ()) held m₁ := h m Relation.ReflTransGen.refl m₁ hm₁
    exact hnext.later (Relation.ReflTransGen.single (he m m₁ hm₁).2)
  · intro h m' hother m'' heff
    exact (h.later hother).later (Relation.ReflTransGen.single (he m' m'' heff).1)

theorem changeSession_workers {i : Int} {change : Session → Session} {m m' : Main}
    (h : m.changeSession i change = some m') : Workers m m' ∧ Workers m' m := by
  rcases Option.map_eq_some_iff.mp h with ⟨k, -, rfl⟩
  exact ⟨⟨rfl, rfl, rfl, rfl, id⟩, ⟨rfl, rfl, rfl, rfl, id⟩⟩

theorem balanced_buffer_iff {i : Fin maxClients} {offset toRead : Nat} {k : Bool → Op α}
    (hfits : offset + toRead ≤ maxRequestSize) :
    Balanced Workers Q ((readBufferInto (i : Nat) offset toRead).bind k) held m ↔
      ∀ ok bytes rest, readBuffer toRead m.arrivals = some ((ok, bytes), rest) →
        Balanced Workers Q (k ok) held (m.setArrivals rest) := by
  unfold readBufferInto
  rw [if_neg (Nat.not_lt.mpr hfits)]
  have hchange : ∀ m : Main, ∀ change, ∃ m', m.changeSession (i : Nat) change = some m' := by
    intro m change
    exact ⟨_, by rw [Main.changeSession, index?_natCast]; rfl⟩
  constructor
  · intro h ok bytes rest hread
    rcases hchange (m.setArrivals rest) (fill offset bytes) with ⟨m₁, hm₁⟩
    have hnext := h m Relation.ReflTransGen.refl m₁ (by simpa [hread] using hm₁)
    simp only [hread] at hnext
    exact hnext.later (Relation.ReflTransGen.single (changeSession_workers hm₁).2)
  · intro h m' hother m'' heff
    have hworkers := Workers.of_reach hother
    simp only [hworkers.arrivals] at heff
    rcases Option.bind_eq_some_iff.mp heff with ⟨⟨⟨ok, bytes⟩, rest⟩, hread, hfill⟩
    simp only [hworkers.arrivals, hread]
    have hlater := (hworkers.setArrivals rest).trans (changeSession_workers hfill).1
    exact (h ok bytes rest hread).later (Relation.ReflTransGen.single hlater)

end Rules

/-! ## The paths of an iteration -/

/-- Where an iteration has to end up. -/
def AtTop (e : Ended) (held : List (Lock × Mode)) : Prop := e ≠ .exited → held = topLocks

section Paths

variable {i : Fin maxClients} {m : Main}

/-- The lock of the session, which every path after the session id holds. -/
abbrev sessionLocks (i : Int) : List (Lock × Mode) := [(.session i, .write)]

/-- The end of the loop body takes `shutting_down_lock` again. -/
theorem postSession_balanced :
    Balanced Workers AtTop (postSession (i : Nat)) (sessionLocks (i : Nat)) m := by
  unfold postSession
  intro m' _ m'' _
  apply balanced_unlock
  apply balanced_lock
  exact fun _ => rfl

/-- A `continue` does not. -/
theorem giveUp_not_balanced {i : Int} {held : List (Lock × Mode)} (hheld : held ≠ topLocks) :
    ¬ Balanced Workers AtTop (giveUp i) ((.session i, .write) :: held) m := by
  rintro ⟨-, hend⟩
  rw [dropLock_cons_self] at hend
  exact hheld (hend (by simp))

theorem nil_ne_topLocks : ([] : List (Lock × Mode)) ≠ topLocks := by simp [topLocks]

theorem readRest_balanced_iff {offset toRead : Nat} :
    Balanced Workers AtTop (readRest (i : Nat) offset toRead) (sessionLocks (i : Nat)) m ↔
      RestArrives offset toRead m.arrivals := by
  unfold readRest RestArrives
  by_cases hfits : offset + toRead ≤ maxRequestSize
  · rw [bind_eq, balanced_buffer_iff hfits]
    constructor
    · intro h _ ok bytes rest hread
      by_contra hok
      have hgive := h ok bytes rest hread
      rw [if_neg hok] at hgive
      exact giveUp_not_balanced nil_ne_topLocks hgive
    · intro h ok bytes rest hread
      rw [if_pos (h hfits ok bytes rest hread)]
      exact postSession_balanced
  · rw [readBufferInto, if_pos (Nat.lt_of_not_le hfits)]
    exact ⟨fun _ hle => absurd hle hfits, fun _ => trivial⟩

theorem changeSession_isSome (change : Session → Session) :
    (m.changeSession (i : Nat) change).isSome := by
  rw [Main.changeSession, index?_natCast]
  rfl

theorem receiveWrite_balanced_iff :
    Balanced Workers AtTop (receiveWrite (i : Nat)) (sessionLocks (i : Nat)) m ↔
      Arrives sizeofInt m.arrivals fun _ rest => Arrives sizeofSizeT rest fun bytes rest =>
        RestArrives (1 + 2 * sizeofInt + sizeofSizeT) (leNat (bytes ++ m.len.drop bytes.length))
          rest := by
  have hgiveUp : ∀ m, ¬ Balanced Workers AtTop (giveUp (i : Nat)) (sessionLocks (i : Nat)) m :=
    fun m => giveUp_not_balanced nil_ne_topLocks
  unfold receiveWrite
  apply balanced_arrives_iff hgiveUp
  intro handleBytes rest
  simp only [bind_eq]
  rw [balanced_session_iff (fun _ _ => changeSession_workers) (changeSession_isSome _)]
  apply balanced_arrives_iff hgiveUp
  intro lenBytes rest'
  rw [balanced_modify_iff, balanced_read_iff,
    balanced_session_iff (fun _ _ => changeSession_workers) (changeSession_isSome _),
    readRest_balanced_iff]
  · rfl
  · exact fun m' hother => (Workers.of_reach hother).len
  · intro m' hother
    exact Relation.ReflTransGen.single ((Workers.of_reach hother).setLen lenBytes)

theorem receiveBody_balanced_iff {opCode : UInt8} :
    Balanced Workers AtTop (receiveBody (i : Nat) opCode) (sessionLocks (i : Nat)) m ↔
      BodyArrives opCode m.len m.arrivals := by
  unfold receiveBody BodyArrives
  split
  · exact readRest_balanced_iff
  · split
    · exact readRest_balanced_iff
    · split
      · exact receiveWrite_balanced_iff
      · split
        · exact readRest_balanced_iff
        · split
          · exact ⟨fun _ => trivial, fun _ => postSession_balanced⟩
          · exact ⟨fun _ => trivial, fun _ hne => absurd rfl hne⟩

theorem receiveRequest_balanced_iff {opCode : UInt8} :
    Balanced Workers AtTop (receiveRequest opCode) [] m ↔
      RequestArrives opCode m.sessionId m.len m.arrivals := by
  unfold receiveRequest
  apply balanced_arrives_iff
  · intro m h
    exact nil_ne_topLocks (h (by simp))
  · intro bytes rest
    simp only [bind_eq]
    rw [balanced_modify_iff, balanced_read_iff]
    · generalize hid : (((m.setArrivals rest).setSessionId bytes).sessionId) = idBytes
      have hbytes : bytes ++ m.sessionId.drop bytes.length = idBytes := hid
      rw [hbytes]
      by_cases hinvalid : leInt idBytes < 1 ∨ (maxClients : Int) < leInt idBytes
      · simp only [if_pos hinvalid]
        constructor
        · exact fun h => absurd h (giveUp_not_balanced nil_ne_topLocks)
        · intro h
          omega
      · simp only [if_neg hinvalid]
        have hvalid : 1 ≤ leInt idBytes ∧ leInt idBytes ≤ maxClients := by omega
        rcases Int.eq_ofNat_of_zero_le (show 0 ≤ leInt idBytes - 1 by omega) with ⟨j, hj⟩
        have hlt : j < maxClients := by omega
        have hi : leInt idBytes - 1 = (((⟨j, hlt⟩ : Fin maxClients) : Nat) : Int) := hj
        rw [hi]
        refine Iff.trans ?_ (and_iff_right hvalid).symm
        have hbody : Balanced Workers AtTop (receiveBody ((⟨j, hlt⟩ : Fin maxClients) : Nat) opCode)
            (sessionLocks ((⟨j, hlt⟩ : Fin maxClients) : Nat))
            ((m.setArrivals rest).setSessionId bytes) ↔ BodyArrives opCode m.len rest :=
          receiveBody_balanced_iff
        refine Iff.trans ?_ hbody
        exact balanced_session_iff (fun _ _ => changeSession_workers) (changeSession_isSome _)
    · exact fun m' hother => (Workers.of_reach hother).sessionId
    · intro m' hother
      exact Relation.ReflTransGen.single ((Workers.of_reach hother).setSessionId bytes)

/-- The refusal of a mount releases `next_session_id_lock` and the session, and goes on. -/
theorem refusal_balanced_iff {toRead : Nat} {i : Int} :
    Balanced Workers AtTop (handleTooManyClients.bind fun _ =>
        (readTempBuffer toRead).bind fun _ => giveUp i)
      [(.session i, .write), (.nextSessionIdLock, .write)] m ↔
        readBuffer toRead m.arrivals = none := by
  constructor
  · rintro ⟨-, h⟩
    cases hread : readBuffer toRead m.arrivals with
    | none => rfl
    | some p =>
        rw [dropLock_cons_of_ne (by simp), dropLock_cons_self] at h
        have hgive := h m Relation.ReflTransGen.refl (m.setArrivals p.2) (by simp [hread])
        exact absurd hgive (giveUp_not_balanced nil_ne_topLocks)
  · intro hnone
    apply balanced_unlock_below (by simp)
    intro m' hother m'' heff
    simp only [(Workers.of_reach hother).arrivals, hnone] at heff
    cases heff

/-- A mount that a session is left for: its path fills the buffer. -/
theorem mountPath_balanced_iff {toRead : Nat} (hfits : 1 + toRead ≤ maxRequestSize) :
    Balanced Workers AtTop ((readBufferInto (i : Nat) 1 toRead).bind fun ok =>
        if ok = true then (unlock .nextSessionIdLock).bind fun _ => postSession (i : Nat)
        else giveUp (i : Nat))
      [(.session (i : Nat), .write), (.nextSessionIdLock, .write)] m ↔
      ∀ ok bytes rest, readBuffer toRead m.arrivals = some ((ok, bytes), rest) → ok = true := by
  rw [balanced_buffer_iff hfits]
  constructor
  · intro h ok bytes rest hread
    by_contra hok
    have hgive := h ok bytes rest hread
    rw [if_neg hok] at hgive
    -- the read failed: `next_session_id_lock` is kept as well
    exact giveUp_not_balanced (by simp [topLocks]) hgive
  · intro h ok bytes rest hread
    rw [if_pos (h ok bytes rest hread)]
    apply balanced_unlock_below (by simp)
    exact postSession_balanced

theorem receiveMount_balanced_iff (hlo : 1 ≤ m.server.nextSessionId)
    (hhi : m.server.nextSessionId ≤ 64) :
    Balanced Workers AtTop receiveMount [] m ↔
      MountArrives m.server.nextSessionId m.arrivals := by
  rcases Int.eq_ofNat_of_zero_le (show 0 ≤ m.server.nextSessionId - 1 by omega) with ⟨j, hj⟩
  have hlt : j < maxClients := by
    change j < 64
    omega
  have hi : m.server.nextSessionId - 1 = (((⟨j, hlt⟩ : Fin maxClients) : Nat) : Int) := hj
  unfold receiveMount
  simp only [bind_eq]
  rw [balanced_lock_iff, balanced_read_iff, balanced_modify_iff, balanced_lock_iff, hi,
    balanced_session_iff (fun _ _ => changeSession_workers) (changeSession_isSome _),
    balanced_read_iff]
  · have hnext : m.takeSessionId.server.nextSessionId = m.server.nextSessionId + 1 := rfl
    rw [hnext]
    unfold MountArrives
    -- a refusal goes on without `shutting_down_lock`, if there is more to read
    by_cases hfull : 64 < m.server.nextSessionId + 1
    · rw [if_pos hfull, refusal_balanced_iff]
      constructor
      · intro hnone ok bytes rest hread
        have hnone' : readBuffer mountSizeServer m.arrivals = none := hnone
        rw [hnone'] at hread
        cases hread
      · intro h
        cases hread : readBuffer mountSizeServer m.takeSessionId.arrivals with
        | none => rfl
        | some p =>
            have := (h p.1.1 p.1.2 p.2 hread).2
            omega
    · rw [if_neg hfull, mountPath_balanced_iff (by decide)]
      constructor
      · intro h ok bytes rest hread
        exact ⟨h ok bytes rest hread, by omega⟩
      · intro h ok bytes rest hread
        exact (h ok bytes rest hread).1
  · exact fun m' hother => (Workers.of_reach hother).nextSessionId
  · intro m' hother
    exact Relation.ReflTransGen.single (Workers.of_reach hother).takeSessionId
  · exact fun m' hother => (Workers.of_reach hother).nextSessionId

/-- Beyond the array of sessions a mount is undefined: there is nothing left to release. -/
theorem receiveMount_balanced (h : MountArrives m.server.nextSessionId m.arrivals) :
    Balanced Workers AtTop receiveMount [] m := by
  by_cases hsession : 1 ≤ m.server.nextSessionId ∧ m.server.nextSessionId ≤ 64
  · exact (receiveMount_balanced_iff hsession.1 hsession.2).mpr h
  · have hnone : index? maxClients (m.server.nextSessionId - 1) = none := by
      rw [index?_eq_none]
      change _ ∨ (64 : Int) ≤ _
      omega
    unfold receiveMount
    simp only [bind_eq]
    rw [balanced_lock_iff, balanced_read_iff, balanced_modify_iff, balanced_lock_iff]
    · intro m' _ m'' heff
      simp only [Main.changeSession, hnone, Option.map_none] at heff
      cases heff
    · intro m' hother
      exact Relation.ReflTransGen.single (Workers.of_reach hother).takeSessionId
    · exact fun m' hother => (Workers.of_reach hother).nextSessionId

/-- At the end of the file `check_pipe_open` gives the lock back, and the iteration goes on
without it. -/
theorem eof_not_balanced {k : Option Bool → Op Ended} (hdown : m.shuttingDown = false)
    (hk : ∀ m, ¬ Balanced Workers AtTop (k (some false)) [] m) :
    ¬ Balanced Workers AtTop ((checkPipeOpen (some [])).bind k) [] m := by
  intro h
  rcases h m Relation.ReflTransGen.refl m rfl with ⟨-, hend⟩
  simp only [hdown] at hend
  rw [dropLock_cons_self] at hend
  exact hk m hend

/-- The iteration up to its two branches. -/
theorem iteration_balanced_iff (hdown : m.shuttingDown = false) :
    Balanced Workers AtTop iteration topLocks m ↔
      Arrives 1 m.arrivals fun bytes rest => ∃ opCode, bytes.head? = some opCode ∧
        if opCode = tfsOpCodeMount then Balanced Workers AtTop receiveMount [] (m.setArrivals rest)
        else RequestArrives opCode m.sessionId m.len rest := by
  have hcontinue : ∀ m, ¬ Balanced Workers AtTop (ret .continued : Op Ended) [] m :=
    fun m h => nil_ne_topLocks (h (by simp))
  have htop : (∃ mode, (Lock.shuttingDownLock, mode) ∈ topLocks) := ⟨.write, List.mem_cons_self⟩
  refine Iff.trans (and_iff_right htop) ?_
  rw [topLocks, dropLock_cons_self]
  apply balanced_arrives_iff
  · exact hcontinue
  · intro bytes rest
    cases bytes with
    | nil =>
        constructor
        · exact fun h => absurd h (eof_not_balanced hdown hcontinue)
        · rintro ⟨opCode, hhead, -⟩
          cases hhead
    | cons opCode more =>
        simp only [List.head?_cons, Option.some.injEq, exists_eq_left']
        by_cases hmount : opCode = tfsOpCodeMount
        · simp only [checkPipeOpen, pure_eq, bind_eq, ret_bind, if_pos hmount]
        · simp only [checkPipeOpen, pure_eq, bind_eq, ret_bind, if_neg hmount]
          exact receiveRequest_balanced_iff

end Paths

/-! ## Runs -/

variable {m m₀ : Main} {held : List (Lock × Mode)}

theorem Arrives.imp {count : Nat} {arrivals : List Arrival}
    {P P' : List UInt8 → List Arrival → Prop}
    (h : Arrives count arrivals P) (himp : ∀ bytes rest, P bytes rest → P' bytes rest) :
    Arrives count arrivals P' := by
  intro r rest hread
  rcases h r rest hread with ⟨bytes, hr, hbytes⟩
  exact ⟨bytes, hr, himp bytes rest hbytes⟩

/-- An iteration that finds a whole message is balanced. -/
theorem Complete.balanced (h : Complete m) (hdown : m.shuttingDown = false) :
    Balanced Workers AtTop iteration topLocks m := by
  rw [iteration_balanced_iff hdown]
  apply h.imp
  rintro bytes rest ⟨opCode, hhead, harrives⟩
  refine ⟨opCode, hhead, ?_⟩
  split
  · rename_i hmount
    rw [if_pos hmount] at harrives
    exact receiveMount_balanced harrives
  · rename_i hmount
    rw [if_neg hmount] at harrives
    exact harrives

/-- With a session left to index, only a whole message keeps the discipline. -/
theorem disciplined_iff (hdown : m.shuttingDown = false) (hlo : 1 ≤ m.server.nextSessionId)
    (hhi : m.server.nextSessionId ≤ 64) : Disciplined topLocks m ↔ Complete m := by
  have hwalks : Disciplined topLocks m ↔ Balanced Workers AtTop iteration topLocks m :=
    (balanced_iff (Q := AtTop)).symm
  rw [hwalks]
  constructor
  · intro h
    rw [iteration_balanced_iff hdown] at h
    apply h.imp
    rintro bytes rest ⟨opCode, hhead, harrives⟩
    refine ⟨opCode, hhead, ?_⟩
    split
    · rename_i hmount
      rw [if_pos hmount] at harrives
      exact (receiveMount_balanced_iff (m := m.setArrivals rest) hlo hhi).mp harrives
    · rename_i hmount
      rw [if_neg hmount] at harrives
      exact harrives
  · exact fun h => h.balanced hdown

/-- `shutting_down` is not set at the top of the loop. -/
theorem Serving.not_down {ok : Main → Prop} (h : Serving ok m₀ held m)
    (hdown : m₀.shuttingDown = false) : m.shuttingDown = false := by
  cases h with
  | start => exact hdown
  | again _ _ _ _ hcond => exact hcond

/-- While every message arrives whole, every iteration begins with the lock and nothing else. -/
theorem Serving.held_eq (h : Serving Complete m₀ held m) (hdown : m₀.shuttingDown = false) :
    held = topLocks := by
  induction h with
  | start => rfl
  | again hprev hok hwalk hmore hcond ih =>
      rw [ih] at hwalk
      exact (hok.balanced (hprev.not_down hdown)).walk hwalk hmore

/-- In every run of the loop, on any arrivals: while every message arrives whole, every
iteration keeps the discipline and begins with `shutting_down_lock` alone; and an iteration that
begins so keeps it only if its message arrives whole. -/
theorem receive_locks (arrivals : List Arrival) (sessionId len : List UInt8) :
    (∀ held m, Serving Complete (Main.start arrivals sessionId len) held m →
      held = topLocks ∧ (Complete m → Disciplined held m)) ∧
    ∀ m, m.shuttingDown = false → 1 ≤ m.server.nextSessionId → m.server.nextSessionId ≤ 64 →
      (Disciplined topLocks m ↔ Complete m) := by
  constructor
  · intro held m h
    have hheld := h.held_eq rfl
    refine ⟨hheld, fun hcomplete => ?_⟩
    rw [hheld]
    exact balanced_iff.mp (hcomplete.balanced (h.not_down rfl))
  · intro m hdown hlo hhi
    exact disciplined_iff hdown hlo hhi

/-- The loop with zeroes in its variables. -/
def zeroed (arrivals : List Arrival) : Main :=
  .start arrivals (List.replicate sizeofInt 0) (List.replicate sizeofSizeT 0)

/-- An unmount of session 1 arrives whole. -/
theorem receive_locks_unmount :
    Complete (zeroed [.data 2 [1, 0, 0, 0]]) ∧
      Disciplined topLocks (zeroed [.data 2 [1, 0, 0, 0]]) := by
  have hcomplete : Complete (zeroed [.data 2 [1, 0, 0, 0]]) := by
    rintro r rest hread
    cases hread
    refine ⟨[2], rfl, 2, rfl, ?_⟩
    rw [if_neg (by decide)]
    rintro r rest hread
    cases hread
    exact ⟨[1, 0, 0, 0], rfl, by decide, trivial⟩
  exact ⟨hcomplete, ((receive_locks _ _ _).1 _ _ .start).2 hcomplete⟩

/-- The last client closes the pipe: after the end of the file the loop goes on without the
lock, and the next iteration releases it all the same. -/
theorem eof_breaks_discipline : ¬ Disciplined topLocks (zeroed [.eof]) ∧
    ∃ m, Serving (fun _ => True) (zeroed [.eof]) [] m ∧ ¬ Disciplined [] m := by
  have hwalk : Walk.To Workers ⟨iteration, topLocks, zeroed [.eof]⟩
      ⟨.ret .continued, [], zeroed []⟩ := by
    apply Relation.ReflTransGen.head (Walk.Step.release (m := .write) List.mem_cons_self)
    -- the `read` finds the end of the file
    apply Relation.ReflTransGen.head (Walk.Step.act
      (e := fun m : Main => (readPipe 1 m.arrivals).map fun p => m.setArrivals p.2) rfl)
    apply Relation.ReflTransGen.head Walk.Step.acquire
    apply Relation.ReflTransGen.head (Walk.Step.act (e := (some : Main → Option Main)) rfl)
    exact Relation.ReflTransGen.single (Walk.Step.release (m := .write) List.mem_cons_self)
  constructor
  · intro hdisciplined
    have htop := (hdisciplined _ hwalk).1 _ rfl (by simp)
    exact absurd htop (by simp [topLocks])
  · refine ⟨zeroed [], .again .start trivial hwalk (by simp) rfl, ?_⟩
    intro hdisciplined
    rcases (hdisciplined _ Relation.ReflTransGen.refl).2 .shuttingDownLock _ rfl with ⟨mode, hheld⟩
    exact absurd hheld List.not_mem_nil

end TecnicoFS.Part2.MainLoop
