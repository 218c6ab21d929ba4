import TecnicoFS.Part2.Framing
import TecnicoFS.Part2.Reply

/-!
# Part 2: the receiver and the workers (`main` and `thread_handler`)

The receiver takes requests off the server pipe and hands each to the worker of its
session, through a buffer and a flag that a lock protects. Every statement that
touches the lock, the flag, the buffer or a pipe is a step of its own, and the
receiver, the 64 workers and the clients take steps in any order.

A worker that waits on the condition variable may wake up at any time, signalled or not,
and then has to get the lock again.

The server follows the source as long as the clients keep to some bounds (`Polite`). The receiver
stands still at a write that the buffer of its session does not hold and at a 65th mount, where the
source goes on past the end of its arrays.
-/

namespace TecnicoFS.Part2

/-- The writes of a handler on the pipe of the client. -/
abbrev Answer := List (List UInt8)

/-- Who holds the lock of a session. -/
inductive Holder where
  | receiver
  | worker
deriving DecidableEq

/-- What the receiver knows of a request before it locks the session. -/
inductive Header where
  | mount (sessionId : Int)
  | request (opCode : UInt8) (sessionId : Int)

/-- Where the receiver is. -/
inductive ReceiverPos where
  | ready
  | taken (i : Fin maxClients) (header : Header)
  | locked (i : Fin maxClients) (header : Header)
  | filled (i : Fin maxClients)
  | active (i : Fin maxClients)
  | leaving (i : Fin maxClients)

/-- What a worker does once its answer is written: go on, end, or exit. -/
inductive After where
  | next
  | finish
  | exit
deriving DecidableEq

/-- Where a worker is. `opening` is past the check of `open_flag` in `tfs_open`, `closing` in the
wait of `tfs_destroy_after_all_closed`. -/
inductive WorkerPos where
  | outside
  | checking
  | waiting
  | executing
  | opening
  | closing
  | replying (client : CString) (answer : Answer) (after : After)
  | replied (after : After)
  | cleared
  | ended
deriving DecidableEq

/-- The positions in which a worker holds the lock of its session. -/
def WorkerPos.Holding : WorkerPos → Prop
  | .outside => False
  | .waiting => False
  | .ended => False
  | _ => True

namespace ApiCall

/-- The calls after which a client sends nothing more. -/
def isLast : ApiCall → Bool
  | .unmount => true
  | .shutdown => true
  | _ => false

/-- The reads of the call take this answer and leave nothing on the pipe. Those of `tfs_read` take
the result and the bytes, where the bytes are one write and no more than it asked for. -/
def takes : ApiCall → Answer → Bool
  | .read _ len, [_] => decide (len = 0)
  | .read _ len, [_, bytes] => decide (0 < bytes.length ∧ bytes.length ≤ len)
  | .read _ _, _ => false
  | _, _ => true

end ApiCall

/-- A client, named by the path of its pipe. `calling` is the call whose answer it
waits for, `closed` says that it has sent an unmount or a shutdown. -/
structure Client where
  sessionId : Int
  calling : Option ApiCall
  closed : Bool
  sent : List Request
  received : List Answer

namespace Client

/-- The client after it sent a request. -/
def send (client : Client) (call : ApiCall) : Client :=
  { client with
    calling := some call
    closed := call.isLast
    sent := client.sent ++ [⟨client.sessionId, call⟩] }

/-- The client after it got the answer; a mount brings the session id. -/
def collect (client : Client) (call : ApiCall) (answer : Answer) : Client :=
  { client with
    sessionId := if call.isMount then leInt answer.flatten else client.sessionId
    calling := none
    received := client.received ++ [answer] }

end Client

/-- A request that a worker has handled: the client it answers, the session as it
found it, the call it made of it and the answer. -/
structure Handled where
  client : CString
  session : Session
  call : ApiCall
  answer : Answer

/-- The server, the pipes and the clients. -/
structure Hub where
  pipe : List UInt8
  receiver : ReceiverPos
  server : Server
  isActive : Fin maxClients → Bool
  lock : Fin maxClients → Option Holder
  tx : Fin maxClients → Option CString
  workers : Fin maxClients → WorkerPos
  fs : FS
  shutdownCalled : Bool
  exited : Bool
  clients : CString → Client
  replies : CString → List Answer
  handled : List Handled

namespace Hub

/-- After `tfs_init` and `start_sessions`. -/
def initial : Hub where
  pipe := []
  receiver := .ready
  server := startSessions
  isActive := fun _ => false
  lock := fun _ => none
  tx := fun _ => none
  workers := fun _ => .outside
  fs := (tfsInit boot).2
  shutdownCalled := false
  exited := false
  clients := fun _ => ⟨0, none, false, [], []⟩
  replies := fun _ => []
  handled := []

/-! ## The clients -/

/-- A client sends a request. -/
def send (s : Hub) (c : CString) (call : ApiCall) : Hub :=
  { s with
    pipe := s.pipe ++ (Request.mk (s.clients c).sessionId call).bytes
    clients := Function.update s.clients c ((s.clients c).send call) }

/-- The client has read this answer and returns. -/
def collected (s : Hub) (c : CString) (call : ApiCall) (answer : Answer) (replies : List Answer) :
    Hub :=
  { s with
    replies := Function.update s.replies c replies
    clients := Function.update s.clients c ((s.clients c).collect call answer) }

/-- A client takes the answer from its pipe. Where its reads do not take the whole answer the
client is followed no further: its `tfs_read` waits for bytes that never come, or leaves some. -/
def collect (s : Hub) (c : CString) : Option Hub :=
  match s.replies c, (s.clients c).calling with
  | answer :: replies, some call =>
      if call.takes answer then some (s.collected c call answer replies) else none
  | _, _ => none

/-! ## The receiver -/

/-- Read the operation code and find the session. -/
def take (s : Hub) : Option Hub :=
  match s.pipe with
  | [] => none
  | opCode :: rest =>
      if opCode = tfsOpCodeMount then
        match index? maxClients (s.server.nextSessionId - 1) with
        | none => none
        | some i =>
            some { s with
              pipe := rest
              server := { s.server with nextSessionId := s.server.nextSessionId + 1 }
              receiver := .taken i (.mount s.server.nextSessionId) }
      else
        match readBytes sizeofInt rest with
        | none => none
        | some (idBytes, rest1) =>
            match index? maxClients (leInt idBytes - 1) with
            -- rejected; the rest of the request stays on the pipe
            | none => some { s with pipe := rest1 }
            | some i =>
                some { s with
                  pipe := rest1
                  receiver := .taken i (.request opCode (leInt idBytes)) }

/-- Read the rest of the request into the buffer, as soon as it is on the pipe. The pipe has no end
here; at the end of the pipe `read_buffer` does not wait, it loops. -/
def fill (s : Hub) (i : Fin maxClients) (header : Header) : Option Hub :=
  let filled := match header with
    | .mount sessionId => fillMount s.server i sessionId s.pipe
    | .request opCode sessionId => fillRequest s.server i opCode sessionId s.pipe
  match filled with
  | (es, .next server rest) =>
      some { s with
        pipe := rest
        server := server
        receiver := if (posts es).isEmpty then .leaving i else .filled i }
  | _ => none

/-- The next step of the receiver. -/
def receiverStep (s : Hub) : Option Hub :=
  match s.receiver with
  | .ready => s.take
  | .taken i header =>
      if s.lock i = none then
        some { s with
          lock := Function.update s.lock i (some .receiver)
          receiver := .locked i header }
      else none
  | .locked i header => s.fill i header
  | .filled i =>
      some { s with isActive := Function.update s.isActive i true, receiver := .active i }
  | .active i =>
      -- the signal reaches the worker if it waits
      some { s with
        workers := match s.workers i with
          | .waiting => Function.update s.workers i .outside
          | _ => s.workers
        receiver := .leaving i }
  | .leaving i => some { s with lock := Function.update s.lock i none, receiver := .ready }

/-! ## The workers -/

/-- The answer is computed and on its way to a client. -/
def answer (s : Hub) (i : Fin maxClients) (c : CString) (call : ApiCall) (answer : Answer)
    (after : After) : Hub :=
  { s with
    workers := Function.update s.workers i (.replying c answer after)
    handled := s.handled ++ [⟨c, s.server.sessions i, call, answer⟩] }

/-- Execute a call of the client that the session answers. -/
def executeCall (sys : System) (s : Hub) (i : Fin maxClients) (call : ApiCall) : Option Hub :=
  match s.tx i with
  | none => none
  | some c =>
      match handle sys ⟨s.fs, s.server.nextSessionId, s.shutdownCalled⟩ call with
      | none => none
      | some (reply, backend') =>
          some ({ s with fs := backend'.fs }.answer i c call reply.chunks
            (if reply.exits then .exit else .next))

/-- Copy the request out of the buffer and execute it. A call of the library is one step, under the
global lock; an open is two. -/
def execute (sys : System) (s : Hub) (i : Fin maxClients) : Option Hub :=
  match threadHandler (s.server.sessions i) with
  | none => some { s with workers := Function.update s.workers i (.replied .next) }
  | some call =>
      match call with
      | .mount path =>
          -- `session->tx` is set after the write, under the same lock
          some ({ s with tx := Function.update s.tx i (some path) }.answer i path call
            [intBytes sizeofInt (s.server.sessions i).sessionId] .next)
      | .shutdown =>
          match s.tx i with
          | none => none
          | some c =>
              if s.shutdownCalled then some (s.answer i c call [failureCode] .finish)
              else
                some { s with
                  shutdownCalled := true
                  workers := Function.update s.workers i .closing }
      | .open _ _ =>
          -- `open_files_mutex` is given back between the check of `open_flag` and the open
          if s.fs.openFlag = 0 then s.executeCall sys i call
          else some { s with workers := Function.update s.workers i .opening }
      | _ => s.executeCall sys i call

/-- `case_open` behind the check of `open_flag`. -/
def openPast (s : Hub) (i : Fin maxClients) : Option Hub :=
  match s.tx i, threadHandler (s.server.sessions i) with
  | some c, some (.open name flags) =>
      match openInBuffer s.fs name flags with
      | (callRet, fs') =>
          some ({ s with fs := fs' }.answer i c (.open name flags)
            [intBytes sizeofInt callRet] .next)
  | _, _ => none

/-- `case_shutdown`: wait until no file is open. -/
def close (s : Hub) (i : Fin maxClients) : Option Hub :=
  match s.tx i with
  | none => none
  | some c =>
      match caseShutdownReply ⟨s.fs, s.server.nextSessionId, false⟩ with
      | none => none
      | some (reply, backend') =>
          some ({ s with fs := backend'.fs }.answer i c .shutdown reply.chunks .exit)

/-- `strcpy(session->buffer, "")`. -/
def clearBuffer (s : Hub) (i : Fin maxClients) : Server :=
  s.server.fill i { s.server.sessions i with
    buffer := Memory.store (s.server.sessions i).buffer 0 [0] }

/-- The next step of a worker. -/
def workerStep (sys : System) (s : Hub) (i : Fin maxClients) : Option Hub :=
  match s.workers i with
  | .outside =>
      if s.lock i = none then
        some { s with
          lock := Function.update s.lock i (some .worker)
          workers := Function.update s.workers i .checking }
      else none
  | .checking =>
      if s.isActive i then
        some { s with workers := Function.update s.workers i .executing }
      else
        some { s with
          lock := Function.update s.lock i none
          workers := Function.update s.workers i .waiting }
  | .waiting => some { s with workers := Function.update s.workers i .outside }
  | .executing => s.execute sys i
  | .opening => s.openPast i
  | .closing => s.close i
  | .replying c answer after =>
      some { s with
        replies := Function.update s.replies c (s.replies c ++ [answer])
        exited := s.exited || after == .exit
        workers := Function.update s.workers i (.replied after) }
  | .replied .next =>
      some { s with
        isActive := Function.update s.isActive i false
        server := s.clearBuffer i
        workers := Function.update s.workers i .cleared }
  | .replied .finish =>
      -- the worker of a refused shutdown leaves its loop with the flag still set
      some { s with
        lock := Function.update s.lock i none
        workers := Function.update s.workers i .ended }
  | .replied .exit => none
  | .cleared =>
      some { s with
        lock := Function.update s.lock i none
        workers := Function.update s.workers i .outside }
  | .ended => none

/-! ## The whole system -/

/-- Who takes the next step. -/
inductive Action where
  | send (c : CString) (call : ApiCall)
  | collect (c : CString)
  | receive
  | work (i : Fin maxClients)

/-- One step. A server that has exited takes none. -/
def exec (sys : System) (s : Hub) : Action → Option (Unit × Hub)
  | .send c call => some ((), s.send c call)
  | .collect c => (s.collect c).map fun s' => ((), s')
  | .receive => if s.exited then none else s.receiverStep.map fun s' => ((), s')
  | .work i => if s.exited then none else (s.workerStep sys i).map fun s' => ((), s')

/-- What a step is; the server's own are taken while it runs. -/
theorem exec_cases {sys : System} {s s' : Hub} {a : Action} {u : Unit}
    (hex : exec sys s a = some (u, s')) :
    (∃ c call, a = .send c call ∧ s' = s.send c call) ∨
    (∃ c, a = .collect c ∧ s.collect c = some s') ∨
    (a = .receive ∧ s.receiverStep = some s') ∨
    ∃ i, a = .work i ∧ s.workerStep sys i = some s' := by
  cases a with
  | send c call =>
      cases hex
      exact Or.inl ⟨c, call, rfl, rfl⟩
  | collect c =>
      obtain ⟨s₁, hs, heq⟩ := Option.map_eq_some_iff.mp hex
      cases heq
      exact Or.inr (Or.inl ⟨c, rfl, hs⟩)
  | receive =>
      simp only [exec] at hex
      split at hex
      · cases hex
      · obtain ⟨s₁, hs, heq⟩ := Option.map_eq_some_iff.mp hex
        cases heq
        exact Or.inr (Or.inr (Or.inl ⟨rfl, hs⟩))
  | work i =>
      simp only [exec] at hex
      split at hex
      · cases hex
      · obtain ⟨s₁, hs, heq⟩ := Option.map_eq_some_iff.mp hex
        cases heq
        exact Or.inr (Or.inr (Or.inr ⟨i, rfl, hs⟩))

/-- The system as a machine. -/
def machine (sys : System) : Machine Hub Action Unit := ⟨initial, exec sys⟩

/-- The mounts sent so far. -/
def mountsSent (tr : Machine.Trace Action Unit) : Nat :=
  tr.countP fun step => match step.1 with
    | .send _ call => call.isMount
    | _ => false

/-- How clients use the API. Paths have at most 39 bytes and writes at most 2031, and numbers are
of their C types. A client waits for the answer to a call before it makes the next one; it mounts
its own pipe, once, before anything else; it sends nothing after an unmount or a shutdown. At most
63 mounts are sent. -/
def Polite : Machine.Guard Hub Action Unit :=
  fun tr s a => ∀ c call, a = .send c call →
    call.WellFormed ∧ (s.clients c).calling = none ∧ (s.clients c).closed = false ∧
    (call.isMount = true → call = .mount c ∧ (s.clients c).sent = [] ∧ mountsSent tr < 63) ∧
    (call.isMount = false → (s.clients c).received ≠ [])

/-- The same for calls with paths and writes of any length. -/
def TakesTurns : Machine.Guard Hub Action Unit :=
  fun tr s a => ∀ c call, a = .send c call →
    (s.clients c).calling = none ∧ (s.clients c).closed = false ∧
    (call.isMount = true → call = .mount c ∧ (s.clients c).sent = [] ∧ mountsSent tr < 63) ∧
    (call.isMount = false → (s.clients c).received ≠ [])

theorem polite_iff {tr : Machine.Trace Action Unit} {s : Hub} {a : Action} :
    Polite tr s a ↔ TakesTurns tr s a ∧ ∀ c call, a = .send c call → call.WellFormed := by
  constructor
  · exact fun h => ⟨fun c call ha => (h c call ha).2, fun c call ha => (h c call ha).1⟩
  · exact fun h c call ha => ⟨h.2 c call ha, h.1 c call ha⟩

instance (tr : Machine.Trace Action Unit) (s : Hub) : ∀ a, Decidable (TakesTurns tr s a)
  | .send c call =>
      decidable_of_iff ((s.clients c).calling = none ∧ (s.clients c).closed = false ∧
        (call.isMount = true → call = .mount c ∧ (s.clients c).sent.isEmpty ∧ mountsSent tr < 63) ∧
        (call.isMount = false → (s.clients c).received ≠ [])) (by
          simp only [TakesTurns, Action.send.injEq, and_imp, forall_eq', forall_apply_eq_imp_iff,
            List.isEmpty_iff])
  | .collect _ => isTrue fun _ _ h => by cases h
  | .receive => isTrue fun _ _ h => by cases h
  | .work _ => isTrue fun _ _ h => by cases h

instance (tr : Machine.Trace Action Unit) (s : Hub) : ∀ a, Decidable (Polite tr s a)
  | .send c call =>
      decidable_of_iff (TakesTurns tr s (.send c call) ∧ call.WellFormed) (by
        simp only [polite_iff, Action.send.injEq, and_imp, forall_eq', forall_apply_eq_imp_iff])
  | .collect _ => isTrue fun _ _ h => by cases h
  | .receive => isTrue fun _ _ h => by cases h
  | .work _ => isTrue fun _ _ h => by cases h

end Hub

end TecnicoFS.Part2
