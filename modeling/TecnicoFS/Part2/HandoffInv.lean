import TecnicoFS.Part2.Handoff
import TecnicoFS.Part2.RequestStream

/-!
# Part 2: the invariant of the hand-off

The outstanding request of a client is in one place at a time: on the pipe, with the
receiver, or in the buffer of its session; then its answer is with the worker, or on
the pipe of the client. `Ghost.phase` says where, `Ghost.owner` which client a session
belongs to, and `Ghost.queue` what is on the server pipe. The invariant relates each
component to these: what the receiver holds (`ReceiverOk`), what each worker may find
(`WorkerOk`), and what each client has sent, got and may expect (`ClientOk`).
-/

namespace TecnicoFS.Part2

namespace Hub

/-- Where an unhandled request is. -/
inductive Place where
  | queue
  | hand
  | session

/-- What has become of the last request of a client. -/
inductive Phase where
  | idle
  | waiting (r : Request) (place : Place)
  | answered (answer : Answer)
  | replied (answer : Answer)

/-- The request, if there was one, has been handled. -/
def Phase.Served (phase : Phase) : Prop := ∀ r place, phase ≠ .waiting r place

/-- What the invariant keeps beside the state. -/
structure Ghost where
  queue : List (CString × Request)
  owner : Fin maxClients → Option CString
  phase : CString → Phase

/-- The client of a session, as the worker of the session may see it. -/
structure Seat where
  client : CString
  phase : Phase
  closed : Bool

/-- The client that owns a session. -/
def seat (s : Hub) (g : Ghost) (i : Fin maxClients) : Option Seat :=
  (g.owner i).map fun c => ⟨c, g.phase c, (s.clients c).closed⟩

/-- The requests handled for a client. -/
def handledOf (s : Hub) (c : CString) : List Handled :=
  s.handled.filter fun h => h.client = c

/-- The handled request is the one that was sent: the same bytes, read back as the
same call. -/
def Matches (h : Handled) (r : Request) : Prop :=
  Holds h.session r.bytes ∧ h.call = r.call

/-! ## The parts of the invariant -/

/-- The buffer of the session holds the request its client waits for. -/
def Loaded (session : Session) (seat : Option Seat) : Prop :=
  ∃ c r closed, seat = some ⟨c, .waiting r .session, closed⟩ ∧ Holds session r.bytes

/-- The client of the session sends nothing any more, and waits for nothing. -/
def Retired (seat : Option Seat) : Prop :=
  ∃ c phase, seat = some ⟨c, phase, true⟩ ∧ phase.Served

/-- What the worker of a session may find, by its position. -/
def WorkerOk (pos : WorkerPos) (lock : Option Holder) (active : Bool) (session : Session)
    (seat : Option Seat) : Prop :=
  (pos.Holding ↔ lock = some .worker) ∧
  match pos with
  | .outside => active = true → Loaded session seat
  | .checking => active = true → Loaded session seat
  | .waiting => active = true → Loaded session seat
  | .executing => Loaded session seat
  | .opening => ∃ c r closed, seat = some ⟨c, .waiting r .session, closed⟩ ∧
      (∃ name flags, r.call = .open name flags) ∧ Holds session r.bytes
  | .closing => ∃ c r closed, seat = some ⟨c, .waiting r .session, closed⟩ ∧
      r.call = .shutdown ∧ Holds session r.bytes
  | .replying c answer after => ∃ closed, seat = some ⟨c, .answered answer, closed⟩ ∧
      (after = .finish → closed = true)
  | .replied after => after = .finish → Retired seat
  | .cleared => active = false
  | .ended => Retired seat

/-- The header stands for the request in the hands of the receiver. -/
def HeaderOf (i : Fin maxClients) (header : Header) (c : CString) (r : Request) : Prop :=
  (r.call = .mount c ∧ header = .mount ((i : Nat) + 1)) ∨
    (r.call.isMount = false ∧ r.sessionId = (i : Nat) + 1 ∧
      header = .request r.call.opCode r.sessionId)

/-- The receiver has taken a header and finds the rest of the request at the front
of the pipe. -/
def InHand (pipe later : List UInt8) (i : Fin maxClients) (header : Header)
    (seat : Option Seat) : Prop :=
  ∃ c r closed, seat = some ⟨c, .waiting r .hand, closed⟩ ∧ HeaderOf i header c r ∧
    r.call.WellFormed ∧ pipe = r.call.body ++ later

/-- What the receiver may find, by its position; `later` are the requests behind. -/
def ReceiverOk (s : Hub) (g : Ghost) (later : List UInt8) : Prop :=
  match s.receiver with
  | .ready => s.pipe = later
  | .taken i header => InHand s.pipe later i header (s.seat g i)
  | .locked i header =>
      s.lock i = some .receiver ∧ InHand s.pipe later i header (s.seat g i)
  | .filled i =>
      s.lock i = some .receiver ∧ s.pipe = later ∧ s.isActive i = false ∧
        Loaded (s.server.sessions i) (s.seat g i)
  | .active i => s.lock i = some .receiver ∧ s.pipe = later
  | .leaving i => s.lock i = some .receiver ∧ s.pipe = later

/-- What a client has sent, what was handled of it and what it has received. -/
def History (client : Client) (handled : List Handled) (replies : List Answer) : Phase → Prop
  | .idle => replies = [] ∧ List.Forall₂ Matches handled client.sent ∧
      handled.map Handled.answer = client.received
  | .waiting r _ => replies = [] ∧ ∃ done, client.sent = done ++ [r] ∧
      List.Forall₂ Matches handled done ∧ handled.map Handled.answer = client.received
  | .answered answer => replies = [] ∧ List.Forall₂ Matches handled client.sent ∧
      handled.map Handled.answer = client.received ++ [answer]
  | .replied answer => replies = [answer] ∧ List.Forall₂ Matches handled client.sent ∧
      handled.map Handled.answer = client.received ++ [answer]

/-- The answer to a call: a mount gets the number of its session. -/
def AnswerOf (client : Client) (home : Fin maxClients → Prop) (call : ApiCall)
    (answer : Answer) : Prop :=
  (call.isMount = true → ∃ i : Fin maxClients, home i ∧
    answer = [intBytes sizeofInt ((i : Nat) + 1)]) ∧
  (call.isMount = false → client.received ≠ [])

/-- A client: `owned` says that a session has been given to it, `home` which session
answers on its pipe. -/
structure ClientOk (c : CString) (client : Client) (handled : List Handled)
    (replies : List Answer) (phase : Phase) (owned : Prop) (home : Fin maxClients → Prop) :
    Prop where
  history : History client handled replies phase
  idle : phase = .idle → client.calling = none
  calling : ∀ r place, phase = .waiting r place → client.calling = some r.call
  answer : ∀ answer, phase = .answered answer ∨ phase = .replied answer →
    ∃ call, client.calling = some call ∧ AnswerOf client home call answer
  request : ∀ r place, phase = .waiting r place →
    r.call.WellFormed ∧ (r.call.isLast = true → client.closed = true) ∧
      (r.call = .mount c ∨
        r.call.isMount = false ∧ client.received ≠ [] ∧ r.sessionId = client.sessionId)
  unowned : ∀ r, phase = .waiting r .queue → r.call.isMount = true → ¬ owned
  known : client.received ≠ [] → ∃ i, home i ∧ client.sessionId = (i : Nat) + 1
  fresh : client.sent = [] → ¬ owned

/-- The whole, `n` mounts having been sent. -/
structure Inv (n : Nat) (s : Hub) (g : Ghost) : Prop where
  receiver : ReceiverOk s g (stream (g.queue.map Prod.snd))
  worker : ∀ i, WorkerOk (s.workers i) (s.lock i) (s.isActive i) (s.server.sessions i)
    (s.seat g i)
  client : ∀ c, ClientOk c (s.clients c) (s.handledOf c) (s.replies c) (g.phase c)
    (∃ i, g.owner i = some c) (fun i => g.owner i = some c ∧ s.tx i = some c)
  nodup : (g.queue.map Prod.fst).Nodup
  queued : ∀ c r, (c, r) ∈ g.queue → g.phase c = .waiting r .queue
  owner_inj : ∀ i j c, g.owner i = some c → g.owner j = some c → i = j
  owner_next : ∀ i, g.owner i = none ↔ s.server.nextSessionId ≤ (i : Nat) + 1
  numbered : s.server.Numbered
  counted : s.server.nextSessionId + mounts (g.queue.map Prod.snd) = n + 1
  bounded : n ≤ 63

/-! ## Sessions and clients -/

variable {s s' : Hub} {g g' : Ghost} {i j : Fin maxClients} {c c' : CString} {n : Nat}

theorem seat_of_owner (h : g.owner i = some c) :
    s.seat g i = some ⟨c, g.phase c, (s.clients c).closed⟩ := by
  rw [seat, h]
  rfl

theorem seat_none (h : g.owner i = none) : s.seat g i = none := by
  rw [seat, h]
  rfl

theorem owner_of_seat {phase : Phase} {closed : Bool}
    (h : s.seat g i = some ⟨c, phase, closed⟩) :
    g.owner i = some c ∧ phase = g.phase c ∧ closed = (s.clients c).closed := by
  rcases Option.map_eq_some_iff.mp h with ⟨c', howner, heq⟩
  cases heq
  exact ⟨howner, rfl, rfl⟩

/-- A seat is as before if its client is. -/
theorem seat_congr (howner : g'.owner i = g.owner i)
    (hphase : ∀ c, g.owner i = some c → g'.phase c = g.phase c)
    (hclosed : ∀ c, g.owner i = some c → (s'.clients c).closed = (s.clients c).closed) :
    s'.seat g' i = s.seat g i := by
  rw [seat, seat, howner]
  cases hi : g.owner i with
  | none => rfl
  | some c => rw [Option.map_some, Option.map_some, hphase c hi, hclosed c hi]

/-! ## Workers -/

variable {pos : WorkerPos} {lock lock' : Option Holder} {active active' : Bool}
  {session session' : Session} {seat seat' : Option Seat}

theorem not_loaded {phase : Phase} {closed : Bool} (h : ∀ r, phase ≠ .waiting r .session) :
    ¬ Loaded session (some ⟨c, phase, closed⟩) := by
  rintro ⟨c', r, closed', heq, -⟩
  cases heq
  exact h r rfl

theorem retired_iff {phase : Phase} {closed : Bool} :
    Retired (some ⟨c, phase, closed⟩) ↔ closed = true ∧ phase.Served := by
  constructor
  · rintro ⟨c', phase', heq, hserved⟩
    simp only [Option.some.injEq, Seat.mk.injEq] at heq
    rcases heq with ⟨-, rfl, hclosed⟩
    exact ⟨hclosed, hserved⟩
  · rintro ⟨rfl, hserved⟩
    exact ⟨c, phase, rfl, hserved⟩

/-- A worker with nothing loaded and nothing to answer does not care what becomes of the seat,
as long as a client that has retired stays so. -/
theorem WorkerOk.reseat (h : WorkerOk pos lock active session seat)
    (hload : ∀ c r closed, seat ≠ some ⟨c, .waiting r .session, closed⟩)
    (hanswer : ∀ c answer closed, seat ≠ some ⟨c, .answered answer, closed⟩)
    (hretired : Retired seat → Retired seat') : WorkerOk pos lock active session' seat' := by
  have hloaded : ¬ Loaded session seat := by
    rintro ⟨c, r, closed, heq, -⟩
    exact hload c r closed heq
  rcases h with ⟨hlock, hpos⟩
  refine ⟨hlock, ?_⟩
  cases pos with
  | outside => exact fun hactive => absurd (hpos hactive) hloaded
  | checking => exact fun hactive => absurd (hpos hactive) hloaded
  | waiting => exact fun hactive => absurd (hpos hactive) hloaded
  | executing => exact absurd hpos hloaded
  | opening =>
      rcases hpos with ⟨c, r, closed, heq, -⟩
      exact absurd heq (hload c r closed)
  | closing =>
      rcases hpos with ⟨c, r, closed, heq, -⟩
      exact absurd heq (hload c r closed)
  | replying c answer after =>
      rcases hpos with ⟨closed, heq, -⟩
      exact absurd heq (hanswer c answer closed)
  | replied after => exact fun hafter => hretired (hpos hafter)
  | cleared => exact hpos
  | ended => exact hretired hpos

/-- Another holder of the lock than the worker makes no difference to the worker. -/
theorem WorkerOk.relock (h : WorkerOk pos lock active session seat)
    (hlock : lock ≠ some .worker) (hlock' : lock' ≠ some .worker) :
    WorkerOk pos lock' active session seat :=
  ⟨h.1.trans (iff_of_false hlock hlock'), h.2⟩

/-- While the receiver holds the lock, the worker is outside, waiting or gone. -/
theorem WorkerOk.away (h : WorkerOk pos (some .receiver) active session seat) :
    pos = .outside ∨ pos = .waiting ∨ pos = .ended := by
  have hnot : ¬ pos.Holding := fun hold => by
    have heq := h.1.mp hold
    cases heq
  cases pos with
  | outside => exact Or.inl rfl
  | waiting => exact Or.inr (Or.inl rfl)
  | ended => exact Or.inr (Or.inr rfl)
  | checking => exact absurd trivial hnot
  | executing => exact absurd trivial hnot
  | opening => exact absurd trivial hnot
  | closing => exact absurd trivial hnot
  | replying c answer after => exact absurd trivial hnot
  | replied after => exact absurd trivial hnot
  | cleared => exact absurd trivial hnot

/-- The flag may be set on a session that is loaded. -/
theorem WorkerOk.activate (h : WorkerOk pos (some .receiver) active session seat)
    (hload : Loaded session seat) : WorkerOk pos (some .receiver) true session seat := by
  rcases h.away with rfl | rfl | rfl
  · exact ⟨h.1, fun _ => hload⟩
  · exact ⟨h.1, fun _ => hload⟩
  · exact ⟨h.1, h.2⟩

/-- A request in the hands of the receiver finds the flag of its session down. -/
theorem WorkerOk.inactive {r : Request} {closed : Bool}
    (h : WorkerOk pos (some .receiver) active session (some ⟨c, .waiting r .hand, closed⟩)) :
    active = false ∧ (pos = .outside ∨ pos = .waiting) := by
  have hload : ¬ Loaded session (some ⟨c, .waiting r .hand, closed⟩) :=
    not_loaded fun r' heq => by cases heq
  rcases h.away with rfl | rfl | rfl
  · exact ⟨Bool.eq_false_of_not_eq_true fun hactive => hload (h.2 hactive), Or.inl rfl⟩
  · exact ⟨Bool.eq_false_of_not_eq_true fun hactive => hload (h.2 hactive), Or.inr rfl⟩
  · exact absurd rfl ((retired_iff.mp h.2).2 r .hand)

/-! ## Clients -/

/-- A client is not touched by what happens to the sessions of others. -/
theorem ClientOk.mono {client : Client} {handled : List Handled} {replies : List Answer}
    {phase : Phase} {owned owned' : Prop} {home home' : Fin maxClients → Prop}
    (h : ClientOk c client handled replies phase owned home) (howned : owned' → owned)
    (hhome : ∀ i, home i → home' i) : ClientOk c client handled replies phase owned' home' where
  history := h.history
  idle := h.idle
  calling := h.calling
  answer := by
    intro answer hphase
    rcases h.answer answer hphase with ⟨call, hcalling, hmount, hother⟩
    refine ⟨call, hcalling, ?_, hother⟩
    intro hm
    rcases hmount hm with ⟨i, hi, heq⟩
    exact ⟨i, hhome i hi, heq⟩
  request := h.request
  unowned := fun r hphase hm ho => h.unowned r hphase hm (howned ho)
  known := by
    intro hreceived
    rcases h.known hreceived with ⟨i, hi, heq⟩
    exact ⟨i, hhome i hi, heq⟩
  fresh := fun hsent ho => h.fresh hsent (howned ho)

end Hub

end TecnicoFS.Part2
