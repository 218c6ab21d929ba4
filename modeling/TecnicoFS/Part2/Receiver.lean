import TecnicoFS.Part2.Protocol
import TecnicoFS.Lib.Stream
import TecnicoFS.Lib.Table

/-!
# Part 2: the receive loop and the handlers (`fs/tfs_server.c`)

`receive` is one iteration of `main`'s loop on the bytes of the server pipe: it
reads an operation code, finds the session and fills its buffer, and posts the
session to its worker. The `case_*` functions take the arguments of the call
back out of the buffer.

A read of `n` bytes returns them once they are there. A session id out of range
is rejected, and what is left of its request is read as the next one; on the way
the lock of a session outside the array is taken and given back. An iteration that
stores outside the array of sessions (the mount after number 64) or past the end of
a buffer leaves the defined behaviour of C, and the model stops there, as the loop
does at an unknown operation code.
-/

namespace TecnicoFS.Part2

/-! ## Sizes (`fs/tfs_server.h`) -/

abbrev mountSizeServer : Nat := bufferSize
abbrev openSizeServer : Nat := sizeofInt + bufferSize
abbrev closeSizeServer : Nat := sizeofInt
abbrev readSizeServer : Nat := sizeofInt + sizeofSizeT

/-! ## State -/

/-- The fields of a session that a request passes through. -/
structure Session where
  sessionId : Int
  buffer : Memory UInt8

/-- `next_session_id` and the array of sessions. -/
structure Server where
  nextSessionId : Int
  sessions : Fin maxClients → Session

/-- `start_sessions`: zeroed storage, numbered from 1. -/
def startSessions : Server := ⟨1, fun i => ⟨(i : Nat) + 1, fun _ => 0⟩⟩

/-- What an iteration does to a session: index the array, refuse a mount, write
the failure code, or hand a filled buffer to the worker. -/
inductive Event where
  | index (i : Int)
  | refuse (i : Fin maxClients)
  | fail (i : Fin maxClients)
  | post (i : Fin maxClients) (session : Session)

/-- Why the loop stopped. -/
inductive Stop where
  | outOfBounds
  | overrun
  | badOpCode
deriving DecidableEq

/-! ## The receive loop -/

/-- Read `count` bytes into the buffer of session `i` and post it. -/
def fillAndPost (server : Server) (i : Fin maxClients) (session : Session) (offset count : Nat)
    (rest : List UInt8) : List Event × Outcome Server UInt8 Stop :=
  match readBytes count rest with
  | none => ([.index i], .wait)
  | some (body, rest') =>
      let filled := { session with buffer := Memory.store session.buffer offset body }
      ([.index i, .post i filled],
        .next { server with sessions := Function.update server.sessions i filled } rest')

/-- A mount, once its session is locked: the operation code, then the path, or the
refusal. -/
def fillMount (server : Server) (i : Fin maxClients) (sessionId : Int) (rest : List UInt8) :
    List Event × Outcome Server UInt8 Stop :=
  let session : Session :=
    ⟨sessionId, Memory.store (server.sessions i).buffer 0 [tfsOpCodeMount]⟩
  if 64 < server.nextSessionId then
    -- `handle_too_many_clients`; the path is read into `temp_buffer`
    match readBytes mountSizeServer rest with
    | none => ([.index i, .refuse i], .wait)
    | some (_, rest') =>
        ([.index i, .refuse i],
          .next { server with sessions := Function.update server.sessions i session } rest')
  else fillAndPost server i session 1 mountSizeServer rest

/-- The branch for `TFS_OP_CODE_MOUNT`. -/
def receiveMount (server : Server) (rest : List UInt8) :
    List Event × Outcome Server UInt8 Stop :=
  match index? maxClients (server.nextSessionId - 1) with
  | none => ([.index (server.nextSessionId - 1)], .stop .outOfBounds)
  | some i =>
      fillMount { server with nextSessionId := server.nextSessionId + 1 } i server.nextSessionId rest

/-- The branch for `TFS_OP_CODE_WRITE`: the handle, the length, and as many bytes
of data. -/
def receiveWrite (server : Server) (i : Fin maxClients) (session : Session)
    (rest : List UInt8) : List Event × Outcome Server UInt8 Stop :=
  match readBytes sizeofInt rest with
  | none => ([.index i], .wait)
  | some (handleBytes, rest1) =>
      match readBytes sizeofSizeT rest1 with
      | none => ([.index i], .wait)
      | some (lenBytes, rest2) =>
          let filled : Session := { session with
            buffer := Memory.store (Memory.store session.buffer (1 + sizeofInt) handleBytes)
              (1 + 2 * sizeofInt) lenBytes }
          if maxRequestSize < 1 + 2 * sizeofInt + sizeofSizeT + leNat lenBytes then
            ([.index i], .stop .overrun)
          else
            fillAndPost server i filled (1 + 2 * sizeofInt + sizeofSizeT) (leNat lenBytes) rest2

/-- The rest of a request whose session id has been read, by operation code. -/
def receiveBody (server : Server) (i : Fin maxClients) (session : Session) (opCode : UInt8)
    (rest : List UInt8) : List Event × Outcome Server UInt8 Stop :=
  if opCode = tfsOpCodeOpen then
    fillAndPost server i session (1 + sizeofInt) openSizeServer rest
  else if opCode = tfsOpCodeClose then
    fillAndPost server i session (1 + sizeofInt) closeSizeServer rest
  else if opCode = tfsOpCodeWrite then receiveWrite server i session rest
  else if opCode = tfsOpCodeRead then
    fillAndPost server i session (1 + sizeofInt) readSizeServer rest
  else if opCode = tfsOpCodeUnmount ∨ opCode = tfsOpCodeShutdownAfterAllClosed then
    fillAndPost server i session (1 + sizeofInt) 0 rest
  else ([.index i, .fail i], .stop .badOpCode)

/-- Any other request, once its session is locked: the session id is checked, then
the rest of the request is read. -/
def fillRequest (server : Server) (i : Fin maxClients) (opCode : UInt8) (sessionId : Int)
    (rest : List UInt8) : List Event × Outcome Server UInt8 Stop :=
  if sessionId < 1 ∨ (maxClients : Int) < sessionId then
    ([.index i, .fail i], .next server rest)
  else
    receiveBody server i
      { server.sessions i with
        buffer := Memory.store (Memory.store (server.sessions i).buffer 0 [opCode]) 1
          (intBytes sizeofInt sessionId) }
      opCode rest

/-- The branch for the other operation codes: the session id comes first, and
the session is looked up before the id is checked. -/
def receiveRequest (server : Server) (opCode : UInt8) (rest : List UInt8) :
    List Event × Outcome Server UInt8 Stop :=
  match readBytes sizeofInt rest with
  | none => ([], .wait)
  | some (idBytes, rest1) =>
      match index? maxClients (leInt idBytes - 1) with
      -- rejected; the rest of the request stays on the pipe
      | none => ([.index (leInt idBytes - 1)], .next server rest1)
      | some i => fillRequest server i opCode (leInt idBytes) rest1

/-- One iteration of the loop in `main`. -/
def receive : Loop Server UInt8 Event Stop
  | _, [] => ([], .wait)
  | server, opCode :: rest =>
      if opCode = tfsOpCodeMount then receiveMount server rest
      else receiveRequest server opCode rest

/-- The sessions indexed during a run. -/
def indices (events : List Event) : List Int :=
  events.filterMap fun
    | .index i => some i
    | _ => none

/-- The sessions posted during a run, with the contents they were posted with. -/
def posts (events : List Event) : List (Fin maxClients × Session) :=
  events.filterMap fun
    | .post i session => some (i, session)
    | _ => none

/-! ## The handlers -/

/-- An `int` in the buffer. -/
def bufferInt (session : Session) (offset : Nat) : Int :=
  leInt (Memory.load session.buffer offset sizeofInt)

/-- A `size_t` in the buffer. -/
def bufferSizeT (session : Session) (offset : Nat) : Nat :=
  leNat (Memory.load session.buffer offset sizeofSizeT)

/-- A path in the buffer. A field of 40 bytes without a zero is taken as a whole; the source reads
on behind its copy of it. -/
def bufferPath (session : Session) (offset : Nat) : CString :=
  .ofBuffer (Memory.load session.buffer offset bufferSize)

/-- `case_mount`: the pipe it opens. -/
def caseMount (session : Session) : ApiCall := .mount (bufferPath session 1)

/-- `case_open`: the call it makes. -/
def caseOpen (session : Session) : ApiCall :=
  .open (bufferPath session (1 + 2 * sizeofInt))
    (BitVec.ofNat 32 (leNat (Memory.load session.buffer (1 + sizeofInt) sizeofInt)))

/-- `case_close`. -/
def caseClose (session : Session) : ApiCall := .close (bufferInt session (1 + sizeofInt))

/-- `case_write`. -/
def caseWrite (session : Session) : ApiCall :=
  .write (bufferInt session (1 + sizeofInt))
    (Memory.load session.buffer (1 + 2 * sizeofInt + sizeofSizeT)
      (bufferSizeT session (1 + 2 * sizeofInt)))

/-- `case_read`. -/
def caseRead (session : Session) : ApiCall :=
  .read (bufferInt session (1 + sizeofInt)) (bufferSizeT session (1 + 2 * sizeofInt))

/-- `thread_handler`: the handler of the operation code in the buffer. -/
def threadHandler (session : Session) : Option ApiCall :=
  if session.buffer 0 = tfsOpCodeMount then some (caseMount session)
  else if session.buffer 0 = tfsOpCodeUnmount then some .unmount
  else if session.buffer 0 = tfsOpCodeOpen then some (caseOpen session)
  else if session.buffer 0 = tfsOpCodeClose then some (caseClose session)
  else if session.buffer 0 = tfsOpCodeWrite then some (caseWrite session)
  else if session.buffer 0 = tfsOpCodeRead then some (caseRead session)
  else if session.buffer 0 = tfsOpCodeShutdownAfterAllClosed then some .shutdown
  else none

/-! ## Progress -/

theorem fillAndPost_progress {server server' : Server} {i : Fin maxClients} {session : Session}
    {offset count : Nat} {rest rest' : List UInt8} {es : List Event}
    (h : fillAndPost server i session offset count rest = (es, .next server' rest')) :
    rest'.length ≤ rest.length := by
  unfold fillAndPost at h
  split at h
  · cases h
  · rename_i body rest1 hread
    cases h
    exact (readBytes_length hread).2

theorem fillMount_progress {server server' : Server} {i : Fin maxClients} {sessionId : Int}
    {rest rest' : List UInt8} {es : List Event}
    (h : fillMount server i sessionId rest = (es, .next server' rest')) :
    rest'.length ≤ rest.length := by
  unfold fillMount at h
  simp only at h
  split at h
  · split at h
    · cases h
    · rename_i hread
      cases h
      exact (readBytes_length hread).2
  · exact fillAndPost_progress h

theorem receiveMount_progress {server server' : Server} {rest rest' : List UInt8}
    {es : List Event} (h : receiveMount server rest = (es, .next server' rest')) :
    rest'.length ≤ rest.length := by
  unfold receiveMount at h
  split at h
  · cases h
  · exact fillMount_progress h

theorem receiveWrite_progress {server server' : Server} {i : Fin maxClients} {session : Session}
    {rest rest' : List UInt8} {es : List Event}
    (h : receiveWrite server i session rest = (es, .next server' rest')) :
    rest'.length ≤ rest.length := by
  unfold receiveWrite at h
  split at h
  · cases h
  · rename_i hhandle
    split at h
    · cases h
    · rename_i hlen
      simp only at h
      split at h
      · cases h
      · exact (fillAndPost_progress h).trans
          ((readBytes_length hlen).2.trans (readBytes_length hhandle).2)

theorem receiveBody_progress {server server' : Server} {i : Fin maxClients} {session : Session}
    {opCode : UInt8} {rest rest' : List UInt8} {es : List Event}
    (h : receiveBody server i session opCode rest = (es, .next server' rest')) :
    rest'.length ≤ rest.length := by
  unfold receiveBody at h
  split at h
  · exact fillAndPost_progress h
  split at h
  · exact fillAndPost_progress h
  split at h
  · exact receiveWrite_progress h
  split at h
  · exact fillAndPost_progress h
  split at h
  · exact fillAndPost_progress h
  · cases h

theorem fillRequest_progress {server server' : Server} {i : Fin maxClients} {opCode : UInt8}
    {sessionId : Int} {rest rest' : List UInt8} {es : List Event}
    (h : fillRequest server i opCode sessionId rest = (es, .next server' rest')) :
    rest'.length ≤ rest.length := by
  unfold fillRequest at h
  split at h
  · cases h
    exact le_rfl
  · exact receiveBody_progress h

theorem receiveRequest_progress {server server' : Server} {opCode : UInt8}
    {rest rest' : List UInt8} {es : List Event}
    (h : receiveRequest server opCode rest = (es, .next server' rest')) :
    rest'.length ≤ rest.length := by
  unfold receiveRequest at h
  split at h
  · cases h
  · rename_i hid
    split at h
    · cases h
      exact (readBytes_length hid).2
    · exact (fillRequest_progress h).trans (readBytes_length hid).2

/-- An iteration that completes has taken at least the operation code. -/
theorem receive_progress : Loop.Progress receive := by
  intro server input es server' rest' h
  cases input with
  | nil => cases h
  | cons opCode rest =>
      rw [List.length_cons, Nat.lt_succ_iff]
      simp only [receive] at h
      split at h
      · exact receiveMount_progress h
      · exact receiveRequest_progress h

/-! ## Iterations on a longer stream -/

variable {server : Server} {i : Fin maxClients} {session : Session} {opCode : UInt8}
  {sessionId : Int} {rest more : List UInt8}

theorem fillAndPost_more {offset count : Nat} :
    (fillAndPost server i session offset count rest).2 = .wait ∨
      fillAndPost server i session offset count (rest ++ more) =
        ((fillAndPost server i session offset count rest).1,
          (fillAndPost server i session offset count rest).2.more more) := by
  unfold fillAndPost
  cases hread : readBytes count rest with
  | none => exact Or.inl rfl
  | some p => exact Or.inr (by rw [readBytes_more hread]; rfl)

theorem fillMount_more : (fillMount server i sessionId rest).2 = .wait ∨
    fillMount server i sessionId (rest ++ more) =
      ((fillMount server i sessionId rest).1, (fillMount server i sessionId rest).2.more more) := by
  unfold fillMount
  dsimp only
  split
  · cases hread : readBytes mountSizeServer rest with
    | none => exact Or.inl rfl
    | some p => exact Or.inr (by rw [readBytes_more hread]; rfl)
  · exact fillAndPost_more

theorem receiveWrite_more : (receiveWrite server i session rest).2 = .wait ∨
    receiveWrite server i session (rest ++ more) =
      ((receiveWrite server i session rest).1,
        (receiveWrite server i session rest).2.more more) := by
  unfold receiveWrite
  cases hhandle : readBytes sizeofInt rest with
  | none => exact Or.inl rfl
  | some p =>
      rw [readBytes_more hhandle]
      dsimp only
      cases hlen : readBytes sizeofSizeT p.2 with
      | none => exact Or.inl rfl
      | some q =>
          rw [readBytes_more hlen]
          dsimp only
          split
          · exact Or.inr rfl
          · exact fillAndPost_more

theorem receiveBody_more : (receiveBody server i session opCode rest).2 = .wait ∨
    receiveBody server i session opCode (rest ++ more) =
      ((receiveBody server i session opCode rest).1,
        (receiveBody server i session opCode rest).2.more more) := by
  unfold receiveBody
  split
  · exact fillAndPost_more
  split
  · exact fillAndPost_more
  split
  · exact receiveWrite_more
  split
  · exact fillAndPost_more
  split
  · exact fillAndPost_more
  · exact Or.inr rfl

/-- What an iteration does is settled by the bytes that it reads. -/
theorem receive_local : Loop.Local receive := by
  intro server input more
  cases input with
  | nil => exact Or.inl rfl
  | cons opCode rest =>
      rw [List.cons_append, receive, receive]
      split
      · unfold receiveMount
        cases index? maxClients (server.nextSessionId - 1) with
        | none => exact Or.inr rfl
        | some i => exact fillMount_more
      · unfold receiveRequest
        cases hid : readBytes sizeofInt rest with
        | none => exact Or.inl rfl
        | some p =>
            rw [readBytes_more hid]
            dsimp only
            cases index? maxClients (leInt p.1 - 1) with
            | none => exact Or.inr rfl
            | some i =>
                unfold fillRequest
                dsimp only
                split
                · exact Or.inr rfl
                · exact receiveBody_more

end TecnicoFS.Part2
