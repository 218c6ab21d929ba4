import TecnicoFS.Part2.Framing
import TecnicoFS.Lib.Machine
import Mathlib.Data.List.Perm.Subperm
import Mathlib.Data.List.Nodup

/-!
# Part 2: session numbers (`fs/tfs_server.c`)

A mount takes the next session number, and nothing gives a number back: an unmount
closes the pipe of its session and no more. The last number is lost as well, since
the counter is compared after it was incremented. So the first 63 mounts get the
numbers 1 to 63, the next one is refused however many sessions are mounted, and the
one after that indexes the array of sessions outside its bounds.

A request is taken here as its bytes, whatever path a mount carries.
-/

namespace TecnicoFS.Part2

open Loop

/-! ## Requests -/

/-- The field of a mount that holds the path of the client's pipe. -/
structure PathField where
  bytes : List UInt8
  length_eq : bytes.length = bufferSize

/-- The field `tfs_mount` fills from a path. -/
def PathField.ofPath (path : CString) (h : path.strlen ≤ bufferSize) : PathField :=
  ⟨padded path, length_padded h⟩

/-- The requests that begin and end a session. -/
inductive SessionRequest where
  | mount (field : PathField)
  | unmount (sessionId : Int)

namespace SessionRequest

/-- The bytes on the server pipe. -/
def bytes : SessionRequest → List UInt8
  | .mount field => tfsOpCodeMount :: field.bytes
  | .unmount sessionId => serverRequest sessionId .unmount

def isMount : SessionRequest → Bool
  | .mount _ => true
  | .unmount _ => false

/-- An unmount carries a number the server can have given out. -/
def InRange : SessionRequest → Prop
  | .mount _ => True
  | .unmount sessionId => 1 ≤ sessionId ∧ sessionId ≤ maxClients

end SessionRequest

/-- The number of mounts in a list of requests. -/
def mountCount (requests : List SessionRequest) : Nat := requests.countP SessionRequest.isMount

theorem mountCount_append (requests requests' : List SessionRequest) :
    mountCount (requests ++ requests') = mountCount requests + mountCount requests' :=
  List.countP_append

/-! ## The server and the clients that are mounted -/

/-- The server, and the session numbers that are mounted and not yet unmounted. -/
structure Sessions where
  server : Server
  mounted : List Int

/-- The answer to a request: the number given out, the refusal, or an unmount. -/
inductive SessionReply where
  | accepted (sessionId : Int)
  | refused
  | unmounted
deriving DecidableEq

/-- The receive loop takes one request; `none` where it leaves its bounds. -/
def serveSession (s : Sessions) (request : SessionRequest) :
    Option (SessionReply × Sessions) :=
  match run receive s.server request.bytes with
  | (_, .stopped _) => none
  | (events, .waiting server' _) =>
      match request with
      | .mount _ =>
          match posts events with
          | [] => some (.refused, ⟨server', s.mounted⟩)
          | (_, session) :: _ =>
              some (.accepted session.sessionId, ⟨server', session.sessionId :: s.mounted⟩)
      | .unmount sessionId =>
          some (.unmounted, ⟨server', s.mounted.filter fun id => id ≠ sessionId⟩)

/-- The server from `start_sessions` on. -/
def sessionMachine : Machine Sessions SessionRequest SessionReply :=
  ⟨⟨startSessions, []⟩, serveSession⟩

/-! ## One request -/

variable {server : Server} {s : Sessions} {field : PathField} {requests : List SessionRequest}

/-- The session a mount fills. -/
def mountedSession (server : Server) (i : Fin maxClients) (field : PathField) : Session :=
  ⟨server.nextSessionId, Memory.store
    (Memory.store (server.sessions i).buffer 0 [tfsOpCodeMount]) 1 field.bytes⟩

/-- The server after a mount was posted. -/
def Server.mounted (server : Server) (i : Fin maxClients) (field : PathField) : Server where
  nextSessionId := server.nextSessionId + 1
  sessions := Function.update server.sessions i (mountedSession server i field)

/-- The server after the mount that takes the last number. -/
def Server.refused (server : Server) : Server where
  nextSessionId := 65
  sessions := Function.update server.sessions ⟨63, by decide⟩
    ⟨64, Memory.store (server.sessions ⟨63, by decide⟩).buffer 0 [tfsOpCodeMount]⟩

/-- The first 63 mounts are posted to the next session. -/
theorem receive_mount_accepted {i : Fin maxClients}
    (hi : ((i : Nat) : Int) + 1 = server.nextSessionId) (hnext : server.nextSessionId ≤ 63)
    (field : PathField) (rest : List UInt8) :
    receive server ((SessionRequest.mount field).bytes ++ rest) =
      ([.index (i : Nat), .post i (mountedSession server i field)],
        .next (server.mounted i field) rest) := by
  have hidx : index? maxClients (server.nextSessionId - 1) = some i :=
    index?_eq_some.mpr (by omega)
  have hroom : ¬ 64 < server.nextSessionId + 1 := by omega
  have hread : readBytes mountSizeServer (field.bytes ++ rest) = some (field.bytes, rest) :=
    readBytes_append field.length_eq
  rw [SessionRequest.bytes, List.cons_append, receive, if_pos rfl, receiveMount]
  simp only [hidx]
  rw [fillMount, if_neg hroom, fillAndPost, hread]
  rfl

/-- The mount that takes the last number is refused. -/
theorem receive_mount_last (hnext : server.nextSessionId = 64) (field : PathField)
    (rest : List UInt8) :
    receive server ((SessionRequest.mount field).bytes ++ rest) =
      ([.index 63, .refuse ⟨63, by decide⟩], .next server.refused rest) := by
  have hidx : index? maxClients (server.nextSessionId - 1) = some ⟨63, by decide⟩ := by
    rw [hnext]
    rfl
  have hfull : 64 < server.nextSessionId + 1 := by omega
  have hread : readBytes mountSizeServer (field.bytes ++ rest) = some (field.bytes, rest) :=
    readBytes_append field.length_eq
  rw [SessionRequest.bytes, List.cons_append, receive, if_pos rfl, receiveMount]
  simp only [hidx]
  rw [fillMount, if_pos hfull, hread, hnext]
  rfl

/-- A number below 64 is the number of a session. -/
theorem exists_session (hlo : 1 ≤ server.nextSessionId) (hhi : server.nextSessionId ≤ 63) :
    ∃ i : Fin maxClients, ((i : Nat) : Int) + 1 = server.nextSessionId := by
  refine ⟨⟨(server.nextSessionId - 1).toNat, ?_⟩, ?_⟩
  · simp only [maxClients]
    omega
  · simp only
    omega

theorem serveSession_mount_accepted (hlo : 1 ≤ s.server.nextSessionId)
    (hhi : s.server.nextSessionId ≤ 63) (field : PathField) :
    ∃ server', server'.nextSessionId = s.server.nextSessionId + 1 ∧
      serveSession s (.mount field) = some (.accepted s.server.nextSessionId,
        ⟨server', s.server.nextSessionId :: s.mounted⟩) := by
  rcases exists_session hlo hhi with ⟨i, hi⟩
  have htakes := Takes.single receive_progress (receive_mount_accepted hi hhi field)
  refine ⟨s.server.mounted i field, rfl, ?_⟩
  rw [serveSession, htakes.run_eq rfl]
  rfl

theorem serveSession_mount_last (hnext : s.server.nextSessionId = 64) (field : PathField) :
    ∃ server', serveSession s (.mount field) = some (.refused, ⟨server', s.mounted⟩) := by
  have htakes := Takes.single receive_progress (receive_mount_last hnext field)
  refine ⟨s.server.refused, ?_⟩
  rw [serveSession, htakes.run_eq rfl]
  rfl

/-- An unmount is posted to its session and changes no number. -/
theorem serveSession_unmount {sessionId : Int} (hlo : 1 ≤ sessionId)
    (hhi : sessionId ≤ maxClients) :
    ∃ server', server'.nextSessionId = s.server.nextSessionId ∧
      serveSession s (.unmount sessionId) =
        some (.unmounted, ⟨server', s.mounted.filter fun id => id ≠ sessionId⟩) := by
  let r : Request := ⟨sessionId, .unmount⟩
  have hmount : r.call.isMount = false := rfl
  rcases receive_posts s.server hmount trivial hlo hhi with ⟨i, -, session, -, -, hstep⟩
  have htakes := Takes.single receive_progress hstep
  refine ⟨s.server.fill i session, rfl, ?_⟩
  have hrun : run receive s.server (SessionRequest.unmount sessionId).bytes = _ := htakes.run_eq rfl
  rw [serveSession, hrun]

/-! ## Runs -/

/-- After `k` mounts the next number is `k + 1`, and the mounted numbers are some of
the first `k`, each once. -/
structure Numbering (k : Nat) (s : Sessions) : Prop where
  next : s.server.nextSessionId = k + 1
  le : ∀ id ∈ s.mounted, 1 ≤ id ∧ id ≤ k
  nodup : s.mounted.Nodup

theorem Numbering.length_le {k : Nat} (h : Numbering k s) : s.mounted.length ≤ k := by
  have hsub : s.mounted ⊆ (List.range k).map fun n => ((n + 1 : Nat) : Int) := by
    intro id hid
    have hle := h.le id hid
    refine List.mem_map.mpr ⟨(id - 1).toNat, List.mem_range.mpr (by omega), by omega⟩
  have hlen := (List.subperm_of_subset h.nodup hsub).length_le
  rwa [List.length_map, List.length_range] at hlen

theorem Numbering.init : Numbering 0 sessionMachine.init :=
  ⟨rfl, fun _ h => absurd h List.not_mem_nil, List.nodup_nil⟩

/-- The number given out is fresh. -/
theorem Numbering.fresh {k : Nat} (h : Numbering k s) : s.server.nextSessionId ∉ s.mounted := by
  intro hmem
  have hle := (h.le _ hmem).2
  have hnext := h.next
  omega

/-- What one request does to the numbering, while numbers are left. -/
theorem Numbering.serve {k : Nat} (h : Numbering k s) {request : SessionRequest}
    (hrange : request.InRange) (hroom : k + (if request.isMount then 1 else 0) ≤ 63) :
    ∃ reply s', serveSession s request = some (reply, s') ∧
      Numbering (k + if request.isMount then 1 else 0) s' := by
  have hnext := h.next
  cases request with
  | mount field =>
      have hk : k + 1 ≤ 63 := hroom
      rcases serveSession_mount_accepted (s := s) (by omega) (by omega) field with
        ⟨server', hnext', hserve⟩
      refine ⟨_, _, hserve, ?_⟩
      constructor
      · simp only [SessionRequest.isMount, if_true]
        push_cast
        rw [hnext', hnext]
      · intro id hid
        simp only [SessionRequest.isMount, if_true]
        push_cast
        rcases List.mem_cons.mp hid with rfl | hid
        · omega
        · have := h.le id hid
          omega
      · exact List.nodup_cons.mpr ⟨h.fresh, h.nodup⟩
  | unmount sessionId =>
      rcases serveSession_unmount (s := s) hrange.1 hrange.2 with ⟨server', hnext', hserve⟩
      refine ⟨_, _, hserve, ?_⟩
      constructor
      · rw [hnext', hnext]
        rfl
      · intro id hid
        exact h.le id (List.mem_filter.mp hid).1
      · exact h.nodup.filter _

/-- The run lemma: while there are at most 63 mounts, every request is served and the
numbers stay in order. -/
theorem Numbering.run (requests : List SessionRequest) :
    ∀ {k : Nat} {s : Sessions}, Numbering k s → (∀ r ∈ requests, r.InRange) →
      k + mountCount requests ≤ 63 →
      ∃ replies s', sessionMachine.run s requests = some (replies, s') ∧
        Numbering (k + mountCount requests) s' := by
  induction requests with
  | nil =>
      intro k s h _ _
      exact ⟨[], s, rfl, h⟩
  | cons r requests ih =>
      intro k s h hrange hroom
      rw [List.forall_mem_cons] at hrange
      have hcount : mountCount (r :: requests) =
          (if r.isMount then 1 else 0) + mountCount requests := by
        rw [mountCount, List.countP_cons, Nat.add_comm]
        rfl
      rw [hcount, ← Nat.add_assoc] at hroom ⊢
      rcases h.serve hrange.1 (by omega) with ⟨reply, s1, hserve, h1⟩
      rcases ih h1 hrange.2 hroom with ⟨replies, s2, hrun, h2⟩
      refine ⟨reply :: replies, s2, ?_, h2⟩
      have hexec : sessionMachine.exec s r = some (reply, s1) := hserve
      simp only [Machine.run, hexec, hrun]

/-! ## The allocation of session numbers -/

/-- A mount in this state is given a number that no mounted client holds, or all
sessions are mounted. -/
def Allocates (s : Sessions) (field : PathField) : Prop :=
  (∃ id s', serveSession s (.mount field) = some (.accepted id, s') ∧
      1 ≤ id ∧ id ≤ maxClients ∧ id ∉ s.mounted) ∨
    s.mounted.length = maxClients

/-- Every mount in the list of requests is allocated a number, or refused with all
sessions mounted. -/
def AllocatesAll (requests : List SessionRequest) : Prop :=
  ∀ before field after, requests = before ++ .mount field :: after →
    ∃ replies s, sessionMachine.run sessionMachine.init before = some (replies, s) ∧
      Allocates s field

theorem Numbering.allocates {k : Nat} (h : Numbering k s) (hk : k ≤ 62) (field : PathField) :
    Allocates s field := by
  left
  have hnext := h.next
  rcases serveSession_mount_accepted (s := s) (by omega) (by omega) field with ⟨server', -, hserve⟩
  refine ⟨_, _, hserve, by omega, ?_, h.fresh⟩
  simp only [maxClients]
  omega

/-- With 63 numbers given out the next mount is refused, and never are 64 mounted. -/
theorem Numbering.not_allocates (h : Numbering 63 s) (field : PathField) :
    ¬ Allocates s field := by
  rintro (⟨id, s', hserve, -⟩ | hfull)
  · have hnext : s.server.nextSessionId = 64 := h.next
    rcases serveSession_mount_last (s := s) hnext field with ⟨server', hlast⟩
    rw [hlast] at hserve
    cases hserve
  · have hlen := h.length_le
    simp only [maxClients] at hfull
    omega

/-- The mount that comes after exactly `k` others. -/
theorem exists_mount (requests : List SessionRequest) :
    ∀ k < mountCount requests, ∃ before field after,
      requests = before ++ .mount field :: after ∧ mountCount before = k := by
  induction requests with
  | nil =>
      intro k hk
      exact absurd hk (Nat.not_lt_zero k)
  | cons r requests ih =>
      intro k hk
      cases r with
      | mount field =>
          cases k with
          | zero => exact ⟨[], field, requests, rfl, rfl⟩
          | succ k =>
              have hlt : k < mountCount requests := by
                rw [mountCount, List.countP_cons_of_pos rfl] at hk
                exact Nat.lt_of_succ_lt_succ hk
              rcases ih k hlt with ⟨before, field', after, rfl, hcount⟩
              refine ⟨.mount field :: before, field', after, rfl, ?_⟩
              rw [mountCount, List.countP_cons_of_pos rfl, ← hcount]
              rfl
      | unmount sessionId =>
          have hlt : k < mountCount requests := by
            rwa [mountCount, List.countP_cons_of_neg Bool.false_ne_true] at hk
          rcases ih k hlt with ⟨before, field', after, rfl, hcount⟩
          refine ⟨.unmount sessionId :: before, field', after, rfl, ?_⟩
          rw [mountCount, List.countP_cons_of_neg Bool.false_ne_true, ← hcount]
          rfl

theorem not_allocatesAll (hrange : ∀ r ∈ requests, r.InRange) (hmany : 64 ≤ mountCount requests) :
    ¬ AllocatesAll requests := by
  intro hall
  rcases exists_mount requests 63 (by omega) with ⟨before, field, after, rfl, hcount⟩
  rcases hall before field after rfl with ⟨replies, s, hrun, hallocates⟩
  have hbefore : ∀ r ∈ before, r.InRange := fun r hr => hrange r (List.mem_append_left _ hr)
  rcases Numbering.init.run before hbefore (by omega) with ⟨replies', s', hrun', h'⟩
  have hsame : s = s' := (Prod.mk.inj (Option.some.inj (hrun.symm.trans hrun'))).2
  rw [hcount, Nat.zero_add, ← hsame] at h'
  exact h'.not_allocates field hallocates

/-- Numbers are allocated as promised exactly while there are at most 63 mounts,
counting those that were unmounted again. -/
theorem session_ids_allocated (requests : List SessionRequest)
    (hrange : ∀ r ∈ requests, r.InRange) :
    AllocatesAll requests ↔ mountCount requests ≤ 63 := by
  constructor
  · intro hall
    by_contra hmany
    exact not_allocatesAll hrange (by omega) hall
  · intro hfew before field after hsplit
    subst hsplit
    have hbefore : ∀ r ∈ before, r.InRange := fun r hr => hrange r (List.mem_append_left _ hr)
    have hcount : mountCount before + 1 ≤ 63 := by
      have hone : 1 ≤ mountCount (.mount field :: after) := by
        rw [mountCount, List.countP_cons_of_pos rfl]
        exact Nat.succ_le_succ (Nat.zero_le _)
      rw [mountCount_append] at hfew
      omega
    rcases Numbering.init.run before hbefore (by omega) with ⟨replies, s, hrun, h⟩
    rw [Nat.zero_add] at h
    exact ⟨replies, s, hrun, h.allocates (by omega) field⟩

theorem pathC_noNul : ∀ b ∈ ([99] : List UInt8), b ≠ 0 := by simp

theorem pathC_fits : CString.strlen ⟨[99], pathC_noNul⟩ ≤ bufferSize := by decide

/-- A field with the path `c`. -/
def pathC : PathField := .ofPath ⟨[99], pathC_noNul⟩ pathC_fits

/-- One client mounts and leaves, another one mounts. -/
theorem session_ids_allocated_two :
    AllocatesAll [.mount pathC, .unmount 1, .mount pathC] ↔
      mountCount [.mount pathC, .unmount 1, .mount pathC] ≤ 63 := by
  apply session_ids_allocated
  intro r hr
  simp only [List.mem_cons, List.not_mem_nil, or_false] at hr
  rcases hr with rfl | rfl | rfl
  · trivial
  · exact ⟨by decide, by decide⟩
  · trivial

/-- 64 clients in a row, each gone before the next one mounts: the last one is
refused, with no session mounted. -/
theorem not_allocated_after_63_mounts :
    ¬ AllocatesAll
      ((List.range 64).flatMap fun n : Nat => [.mount pathC, .unmount (n + 1 : Nat)]) := by
  apply not_allocatesAll
  · intro r hr
    rcases List.mem_flatMap.mp hr with ⟨n, hn, hr⟩
    have hlt := List.mem_range.mp hn
    simp only [List.mem_cons, List.not_mem_nil, or_false] at hr
    rcases hr with rfl | rfl
    · trivial
    · simp only [SessionRequest.InRange, maxClients]
      omega
  · decide +kernel

/-! ## The answers to mounts -/

/-- The path a field carries, if the field holds its terminator. -/
def PathField.path (field : PathField) : Option CString :=
  if (0 : UInt8) ∈ field.bytes then some (.ofBuffer field.bytes) else none

/-- The flags of an `open` allow writing: `O_WRONLY` or `O_RDWR`. -/
def writable (flags : Nat) : Bool := flags % 4 = 1 ∨ flags % 4 = 2

/-- The answer of `case_mount`: the pipe it opens, and the session number. `none` where
the path has no terminator, and where the pipe does not open. -/
def mountAnswer (opens : CString → Bool) (session : Session) : Option (CString × List UInt8) :=
  let clientPipename := Memory.load session.buffer 1 bufferSize
  if (0 : UInt8) ∈ clientPipename ∧ opens (.ofBuffer clientPipename) then
    some (.ofBuffer clientPipename, intBytes sizeofInt session.sessionId)
  else none

/-- The answer of `handle_too_many_clients`: the pipe is named by what an earlier
request left in the buffer, and opened with the flags 0640. -/
def tooManyClientsAnswer (opens : CString → Bool) (session : Session) :
    Option (CString × List UInt8) :=
  let pipename := Memory.load session.buffer 1 bufferSize
  if (0 : UInt8) ∈ pipename ∧ opens (.ofBuffer pipename) ∧ writable 0o640 then
    some (.ofBuffer pipename, intBytes sizeofInt (-1))
  else none

/-- The answers to a request, with the pipes they are written to. The worker of a
posted session answers an accepted mount, the receive loop a refused one. -/
def answers (opens : CString → Bool) (server : Server) (events : List Event) :
    List (CString × List UInt8) :=
  events.filterMap fun
    | .post _ session => mountAnswer opens session
    | .refuse i => tooManyClientsAnswer opens (server.sessions i)
    | _ => none

/-- The session of the number an accepted mount is told, or -1. -/
def GivenNumber (events : List Event) (id : Int) : Prop :=
  (∃ i session, posts events = [(i, session)] ∧ session.sessionId = id ∧ 0 < id) ∨
    posts events = [] ∧ id = -1

/-- The mount is answered once, on the pipe it names, and the array of sessions is
indexed inside its bounds. -/
def MountAnswered (opens : CString → Bool) (server : Server) (field : PathField) : Prop :=
  let events := (run receive server (SessionRequest.mount field).bytes).1
  (∀ i ∈ indices events, 0 ≤ i ∧ i < (maxClients : Int)) ∧
    ∃ path id, field.path = some path ∧ GivenNumber events id ∧
      answers opens server events = [(path, intBytes sizeofInt id)]

/-- Every mount in the list is answered. -/
def MountsAnswered (opens : CString → Bool) (fields : List PathField) : Prop :=
  ∀ before field after, fields = before ++ field :: after →
    ∃ replies s, sessionMachine.run sessionMachine.init (before.map .mount) = some (replies, s) ∧
      MountAnswered opens s.server field

variable {opens : CString → Bool} {fields : List PathField}

theorem mountCount_map (fields : List PathField) :
    mountCount (fields.map .mount) = fields.length := by
  rw [mountCount, List.countP_map]
  exact List.countP_eq_length.mpr fun _ _ => rfl

/-- A list of mounts gives out as many numbers, up to 63. -/
theorem mounts_run (fields : List PathField) (hfew : fields.length ≤ 63) :
    ∃ replies s, sessionMachine.run sessionMachine.init (fields.map .mount) = some (replies, s) ∧
      Numbering fields.length s := by
  have hrange : ∀ r ∈ fields.map SessionRequest.mount, r.InRange := by
    intro r hr
    rcases List.mem_map.mp hr with ⟨field, -, rfl⟩
    trivial
  have hcount := mountCount_map fields
  rcases Numbering.init.run (fields.map .mount) hrange (by omega) with ⟨replies, s, hrun, h⟩
  rw [hcount, Nat.zero_add] at h
  exact ⟨replies, s, hrun, h⟩

/-- The worker finds the path in the buffer, as the client sent it. -/
theorem mountAnswer_mountedSession {i : Fin maxClients} {path : CString}
    (hpath : field.path = some path) (hopens : opens path = true) :
    mountAnswer opens (mountedSession server i field) =
      some (path, intBytes sizeofInt server.nextSessionId) := by
  have hload : Memory.load (mountedSession server i field).buffer 1 bufferSize = field.bytes := by
    rw [mountedSession, ← field.length_eq]
    exact Memory.load_store_same _ _ _
  unfold PathField.path at hpath
  split at hpath
  · rename_i hnul
    have heq : CString.ofBuffer field.bytes = path := Option.some.inj hpath
    rw [mountAnswer, hload]
    simp only [hnul, heq, hopens, and_self, if_true]
    rfl
  · cases hpath

theorem mountAnswered_of_room (hlo : 1 ≤ server.nextSessionId) (hhi : server.nextSessionId ≤ 63)
    {path : CString} (hpath : field.path = some path) (hopens : opens path = true) :
    MountAnswered opens server field := by
  rcases exists_session hlo hhi with ⟨i, hi⟩
  have htakes := Takes.single receive_progress (receive_mount_accepted hi hhi field)
  rw [MountAnswered, htakes.run_eq rfl]
  refine ⟨?_, path, server.nextSessionId, hpath, ?_, ?_⟩
  · intro j hj
    rw [show j = (i : Nat) from List.mem_singleton.mp hj]
    have hlt := i.isLt
    omega
  · left
    exact ⟨i, mountedSession server i field, rfl, rfl, by omega⟩
  · simp only [answers, List.filterMap_cons, List.filterMap_nil,
      mountAnswer_mountedSession hpath hopens]

/-- The mount that takes the last number gets no answer: the pipe is opened for
reading. -/
theorem not_mountAnswered_last (hnext : server.nextSessionId = 64) :
    ¬ MountAnswered opens server field := by
  have htakes := Takes.single receive_progress (receive_mount_last hnext field)
  rw [MountAnswered, htakes.run_eq rfl]
  rintro ⟨-, path, id, -, -, hanswers⟩
  have hreadonly : writable 0o640 = false := by decide
  simp [answers, tooManyClientsAnswer, hreadonly] at hanswers

theorem not_mountsAnswered (hmany : 64 ≤ fields.length) : ¬ MountsAnswered opens fields := by
  intro hall
  have hlt : 63 < fields.length := hmany
  have hsplit : fields = fields.take 63 ++ fields[63] :: fields.drop 64 := by
    rw [List.getElem_cons_drop, List.take_append_drop]
  have hlen : (fields.take 63).length = 63 := by
    rw [List.length_take]
    omega
  rcases hall _ _ _ hsplit with ⟨replies, s, hrun, hanswered⟩
  rcases mounts_run (fields.take 63) (by omega) with ⟨replies', s', hrun', h'⟩
  have hsame : s = s' := (Prod.mk.inj (Option.some.inj (hrun.symm.trans hrun'))).2
  have hnext : s'.server.nextSessionId = 64 := by
    rw [h'.next, hlen]
    rfl
  rw [hsame] at hanswered
  exact not_mountAnswered_last hnext hanswered

/-- Every mount is answered exactly when there are at most 63 and every path has a
terminator in its field, given that the clients' pipes open. -/
theorem mounts_answered (opens : CString → Bool) (fields : List PathField)
    (hopens : ∀ field ∈ fields, ∀ path, field.path = some path → opens path = true) :
    MountsAnswered opens fields ↔
      fields.length ≤ 63 ∧ ∀ field ∈ fields, (0 : UInt8) ∈ field.bytes := by
  have hterminated : ∀ field : PathField,
      (0 : UInt8) ∈ field.bytes ↔ ∃ path, field.path = some path := by
    intro field
    unfold PathField.path
    split <;> simp [*]
  constructor
  · intro hall
    constructor
    · by_contra hmany
      exact not_mountsAnswered (by omega) hall
    · intro field hfield
      rcases List.append_of_mem hfield with ⟨before, after, hsplit⟩
      rcases hall before field after hsplit with ⟨-, s, -, -, path, -, hpath, -⟩
      exact (hterminated field).mpr ⟨path, hpath⟩
  · rintro ⟨hfew, hpaths⟩ before field after rfl
    have hlen : before.length + 1 ≤ 63 := by
      rw [List.length_append, List.length_cons] at hfew
      omega
    have hmem : field ∈ before ++ field :: after := List.mem_append_right _ List.mem_cons_self
    rcases (hterminated field).mp (hpaths field hmem) with ⟨path, hpath⟩
    rcases mounts_run before (by omega) with ⟨replies, s, hrun, h⟩
    have hnext := h.next
    exact ⟨replies, s, hrun, mountAnswered_of_room (by omega) (by omega) hpath
      (hopens field hmem path hpath)⟩

/-- Two clients on pipes `c` and `d`. -/
theorem mounts_answered_two :
    MountsAnswered (fun path => path.bytes = [99] ∨ path.bytes = [100])
        [pathC, .ofPath ⟨[100], by simp⟩ (by decide)] ↔
      [pathC, .ofPath ⟨[100], by simp⟩ (by decide)].length ≤ 63 ∧
        ∀ field ∈ [pathC, .ofPath ⟨[100], by simp⟩ (by decide)], (0 : UInt8) ∈ field.bytes := by
  apply mounts_answered
  intro field hfield path hpath
  simp only [List.mem_cons, List.not_mem_nil, or_false] at hfield
  rcases hfield with rfl | rfl
  · have hbytes : pathC.path.map CString.bytes = some [99] := by decide +kernel
    rw [hpath] at hbytes
    simpa using Or.inl (Option.some.inj hbytes)
  · have hbytes : (PathField.ofPath ⟨[100], by simp⟩ (by decide)).path.map CString.bytes =
        some [100] := by decide +kernel
    rw [hpath] at hbytes
    simpa using Or.inr (Option.some.inj hbytes)

/-- With 64 clients on pipe `c`, the last one waits for an answer that never comes. -/
theorem not_answered_after_63_mounts :
    ¬ MountsAnswered (fun path => path.bytes = [99]) (List.replicate 64 pathC) :=
  not_mountsAnswered (by rw [List.length_replicate])

end TecnicoFS.Part2
