import TecnicoFS.Part2.Reply
import TecnicoFS.Part2.Runs
import TecnicoFS.Part2.Framing

/-!
# Part 2: a client and its server, call after call

One client calls the API again and again, and the worker of its session answers.
The writes of the handler and the reads of the client interleave freely, other
clients change the file system between any two steps, and the server may exit.

As long as every request fits its buffer and every read has bytes to deliver that the pipe takes
in one piece (`Deliverable`), the reply pipe is empty after each call and the client never waits
for bytes of an answer that is complete.
-/

namespace TecnicoFS.Part2

/-- A client, the worker of its session and the pipe between them. `inbox` is the
request on its way to the handler. -/
structure Conversation where
  backend : Backend
  running : Bool
  exiting : Bool
  mounted : Bool
  inbox : Option ApiCall
  calling : Option ApiCall
  exchange : Exchange UInt8

/-- The steps: the client sends a request, the worker handles it, either side moves
on the pipe, the call returns; others change the backend; the server exits. -/
inductive Action where
  | request (call : ApiCall)
  | handle
  | write
  | read
  | return
  | others (backend : Backend)
  | exit

namespace Conversation

/-- Before the first call. -/
def initial : Conversation where
  backend := ⟨(tfsInit boot).2, 1, false⟩
  running := true
  exiting := false
  mounted := false
  inbox := none
  calling := none
  exchange := ⟨[], [], [], []⟩

/-- The client sends a request. A mount makes a new pipe; any other call needs one. -/
def request (s : Conversation) (call : ApiCall) : Option Conversation :=
  if s.calling = none ∧ (call.isMount = true ∨ s.mounted = true) then
    some { s with
      mounted := true
      inbox := some call
      calling := some call
      exchange := { s.exchange with
        pipe := if call.isMount then [] else s.exchange.pipe
        counts := call.replyCounts
        got := [] } }
  else none

/-- The worker, done with the request before, handles the next one. -/
def handle (sys : System) (s : Conversation) : Option Conversation :=
  if s.running = true ∧ s.exiting = false ∧ s.exchange.chunks = [] then
    match s.inbox with
    | none => none
    | some call =>
        match Part2.handle sys s.backend call with
        | none => none
        | some (reply, backend') =>
            some { s with
              backend := backend'
              exiting := reply.exits
              inbox := none
              exchange := { s.exchange with chunks := reply.chunks } }
  else none

/-- The call has made its reads. An unmount and a shutdown close the pipes. -/
def returnCall (sys : System) (s : Conversation) :
    Option (Option (Int × List UInt8) × Conversation) :=
  match s.calling with
  | none => none
  | some call =>
      if s.exchange.counts = [] then
        some (call.returns sys s.exchange.got,
          { s with
            calling := none
            mounted := s.mounted && call != .unmount && call != .shutdown })
      else none

/-- One step; a call that returns gives its result. -/
def exec (sys : System) (s : Conversation) :
    Action → Option (Option (Int × List UInt8) × Conversation)
  | .request call => (s.request call).map fun s' => (none, s')
  | .handle => (s.handle sys).map fun s' => (none, s')
  | .write =>
      if s.running then s.exchange.write.map fun e => (none, { s with exchange := e }) else none
  | .read => s.exchange.read.map fun e => (none, { s with exchange := e })
  | .return => s.returnCall sys
  | .others backend => some (none, { s with backend := backend })
  | .exit => some (none, { s with running := false })

/-- The conversation as a machine. -/
def machine (sys : System) : Machine Conversation Action (Option (Int × List UInt8)) :=
  ⟨initial, exec sys⟩

/-- The client waits for bytes of an answer that the worker has sent. -/
def Stuck (s : Conversation) : Prop := s.inbox = none ∧ s.exchange.Stuck

/-- The request to be handled fits the buffer of the session, with paths of at most 39 bytes and
writes of at most 2031, and is no mount that is refused and no read without a buffer or with
nothing to deliver. -/
def Agrees (sys : System) (s : Conversation) (call : ApiCall) : Prop :=
  call.WellFormed ∧ match call with
    | .mount _ => s.backend.nextSessionId ≤ 63
    | .read fhandle len => sys.malloc len = true ∧ Deliverable sys s.backend.fs fhandle len
    | _ => True

/-- Every request agrees at the moment it is handled. -/
def agreeing (sys : System) : Machine.Guard Conversation Action (Option (Int × List UInt8)) :=
  fun _ s a => ∀ call, a = .handle → s.inbox = some call → s.Agrees sys call

/-! ## The invariant -/

/-- A request not yet handled finds the exchange at its start; after that, the
reads and the writes left fit. -/
structure Inv (s : Conversation) : Prop where
  unhandled : ∀ call, s.inbox = some call →
    s.calling = some call ∧ s.exchange = .start [] call.replyCounts
  handled : s.inbox = none → ∃ got, s.exchange.OnTrack got
  idle : s.calling = none → s.inbox = none ∧ s.exchange.counts = []

variable {sys : System} {s s' : Conversation} {r : Option (Int × List UInt8)}

theorem inv_initial : Inv initial where
  unhandled := fun call h => by cases h
  handled := fun _ => ⟨[], Exchange.Fits.nil.onTrack⟩
  idle := fun _ => ⟨rfl, rfl⟩

/-- Between two calls the pipe is empty and the worker has nothing left to write. -/
theorem Inv.empty (h : Inv s) (hidle : s.calling = none) :
    s.exchange.chunks = [] ∧ s.exchange.pipe = [] := by
  rcases h.idle hidle with ⟨hinbox, hcounts⟩
  rcases h.handled hinbox with ⟨got, htrack⟩
  rcases htrack.done hcounts with ⟨hchunks, hpipe, -⟩
  exact ⟨hchunks, hpipe⟩

theorem Inv.request {call : ApiCall} (h : Inv s) (hs : s.request call = some s') : Inv s' := by
  unfold Conversation.request at hs
  split at hs
  · rename_i hok
    rcases h.empty hok.1 with ⟨hchunks, hpipe⟩
    cases hs
    refine ⟨?_, ?_, ?_⟩
    · intro call' hcall
      cases hcall
      refine ⟨rfl, ?_⟩
      simp only [Exchange.start, hchunks, hpipe, ite_self]
    · intro hnone
      cases hnone
    · intro hnone
      cases hnone
  · cases hs

/-- A single write that the single read of the client has room for. -/
theorem single_fits {n : Nat} {chunk : List UInt8} (hpos : 0 < chunk.length)
    (hle : chunk.length ≤ n) : ∃ got, Exchange.Fits [n] [chunk] got :=
  ⟨_, Exchange.Fits.last (List.ne_nil_of_length_pos hpos) hle⟩

/-- The reads of the client fit the writes of the handler. -/
theorem handle_fits {call : ApiCall} {reply : Reply} {backend' : Backend}
    (h : Part2.handle sys s.backend call = some (reply, backend')) (hagrees : s.Agrees sys call) :
    ∃ got, Exchange.Fits call.replyCounts reply.chunks got := by
  cases call with
  | mount path =>
      simp only [Part2.handle, caseMountReply] at h
      split at h
      · cases h
      · split at h
        -- there is a session left for this mount
        · rename_i hlast
          have hroom : s.backend.nextSessionId ≤ 63 := hagrees.2
          have hnext : 64 < s.backend.nextSessionId + 1 := hlast
          omega
        · cases h
          exact single_fits (by simp [sizeofInt]) (by simp [sizeofInt])
  | unmount =>
      cases h
      exact single_fits (by simp [sizeofInt]) (by simp [sizeofInt])
  | «open» name flags =>
      cases h
      exact single_fits (by simp [sizeofInt]) (by simp [sizeofInt])
  | close fhandle =>
      cases h
      exact single_fits (by simp [sizeofInt]) (by simp [sizeofInt])
  | write fhandle buffer =>
      simp only [Part2.handle, caseWriteReply] at h
      split at h
      · split at h
        · cases h
        · cases h
          exact single_fits (by simp [sizeofSsizeT]) (by simp [sizeofSsizeT])
      -- a failed allocation is answered with four bytes, which fit into the eight read
      · cases h
        exact single_fits (by simp [failureCode, sizeofInt])
          (by simp [failureCode, sizeofInt, sizeofSsizeT])
  | read fhandle len =>
      rcases hagrees with ⟨-, hm, hdeliver⟩
      cases hread : tfsRead s.backend.fs fhandle len with
      | none =>
          simp only [Part2.handle, caseReadReply, hread, hm, if_true, reduceCtorEq] at h
      | some result =>
          rcases result with ⟨⟨ret, payload⟩, fs'⟩
          rcases (deliverable_iff hread).mpr hdeliver with ⟨hagree, hone⟩
          rcases tfsRead_agrees hread hagree with ⟨hret, hlen, hsize⟩
          rw [Part2.handle, caseReadReply_of_count hm hread hret hsize, hone.chunks] at h
          cases h
          exact ⟨_, read_fits hret hlen hagree⟩
  | shutdown =>
      simp only [Part2.handle, caseShutdownReply] at h
      split at h
      · cases h
        exact single_fits (by simp [failureCode, sizeofInt]) (by simp [failureCode, sizeofInt])
      · split at h
        · cases h
          exact single_fits (by simp [sizeofInt]) (by simp [sizeofInt])
        · cases h

theorem Inv.handle (h : Inv s) (hagrees : ∀ call, s.inbox = some call → s.Agrees sys call)
    (hs : s.handle sys = some s') : Inv s' := by
  unfold Conversation.handle at hs
  split at hs
  · split at hs
    · cases hs
    · rename_i call hinbox
      split at hs
      · cases hs
      · rename_i reply backend' hreply
        rcases h.unhandled call hinbox with ⟨hcalling, hstart⟩
        rcases handle_fits hreply (hagrees call hinbox) with ⟨got, hfits⟩
        cases hs
        refine ⟨?_, ?_, ?_⟩
        · intro call' hcall
          cases hcall
        · intro _
          rw [hstart]
          exact ⟨got, hfits.onTrack⟩
        · intro hidle
          rw [hcalling] at hidle
          cases hidle
  · cases hs

/-- The client reads nothing while its request is on its way. -/
theorem read_start (call : ApiCall) :
    (Exchange.start ([] : List (List UInt8)) call.replyCounts).read = none := by
  cases call <;> rfl

/-- A move on the pipe. -/
theorem Inv.move {e : Exchange UInt8} (h : Inv s) (hs : Exchange.Step s.exchange e) :
    Inv { s with exchange := e } := by
  refine ⟨?_, ?_, ?_⟩
  · intro call hcall
    have hstart := (h.unhandled call hcall).2
    rw [hstart] at hs
    cases hs with
    | write hs => cases hs
    | read hs =>
        rw [read_start] at hs
        cases hs
  · intro hinbox
    rcases h.handled hinbox with ⟨got, htrack⟩
    exact ⟨got, htrack.step hs⟩
  · intro hidle
    rcases h.idle hidle with ⟨hinbox, hcounts⟩
    refine ⟨hinbox, ?_⟩
    cases hs with
    | write hs =>
        rw [Exchange.write, (h.empty hidle).1] at hs
        cases hs
    | read hs =>
        rw [Exchange.read, hcounts] at hs
        cases hs

theorem Inv.returnCall (h : Inv s) (hs : s.returnCall sys = some (r, s')) : Inv s' := by
  unfold Conversation.returnCall at hs
  split at hs
  · cases hs
  · rename_i call hcalling
    split at hs
    · rename_i hcounts
      cases hs
      have hinbox : s.inbox = none := by
        cases hcase : s.inbox with
        | none => rfl
        | some call' =>
            have hstart := (h.unhandled call' hcase).2
            rw [hstart] at hcounts
            cases call' <;> cases hcounts
      refine ⟨?_, h.handled, fun _ => ⟨hinbox, hcounts⟩⟩
      intro call' hcall
      rw [hinbox] at hcall
      cases hcall
    · cases hs

/-- Every step keeps the invariant, as long as the requests handled agree. -/
theorem Inv.exec {a : Action} (h : Inv s)
    (hagrees : ∀ call, a = .handle → s.inbox = some call → s.Agrees sys call)
    (hs : s.exec sys a = some (r, s')) : Inv s' := by
  cases a with
  | request call =>
      rcases Option.map_eq_some_iff.mp hs with ⟨s1, hs1, heq⟩
      cases heq
      exact h.request hs1
  | handle =>
      rcases Option.map_eq_some_iff.mp hs with ⟨s1, hs1, heq⟩
      cases heq
      exact h.handle (fun call => hagrees call rfl) hs1
  | write =>
      simp only [Conversation.exec] at hs
      split at hs
      · rcases Option.map_eq_some_iff.mp hs with ⟨e, he, heq⟩
        cases heq
        exact h.move (.write he)
      · cases hs
  | read =>
      rcases Option.map_eq_some_iff.mp hs with ⟨e, he, heq⟩
      cases heq
      exact h.move (.read he)
  | «return» => exact h.returnCall hs
  | others backend =>
      cases hs
      exact ⟨h.unhandled, h.handled, h.idle⟩
  | exit =>
      cases hs
      exact ⟨h.unhandled, h.handled, h.idle⟩

/-- The invariant holds in every run in which the requests handled agree. -/
theorem reach_inv {tr : Machine.Trace Action (Option (Int × List UInt8))}
    (h : (machine sys).Reach (agreeing sys) (tr, s)) : Inv s :=
  h.invariant (P := fun _ s => Inv s) inv_initial fun _ _ _ _ _ hinv hok hex => hinv.exec hok hex

end Conversation

/-! ## Remote reads -/

/-- Over every server state, a read is answered exactly when the server finds a buffer
for it and there are bytes to deliver that the pipe takes in one piece, or none to ask
for. In every run whose reads are like that and whose requests fit their buffers, the
client never waits for bytes of a complete answer, and the reply pipe is empty between
its calls. -/
theorem read_replies (sys : System) :
    (∀ (backend : Backend) (fs' : FS) (fhandle : Int) (len : Nat) (ret : Int)
        (payload : List UInt8), tfsRead backend.fs fhandle len = some ((ret, payload), fs') →
      (ReadAnswered sys backend fhandle len ret payload ↔
        sys.malloc len = true ∧ Deliverable sys backend.fs fhandle len)) ∧
    ∀ (tr : Machine.Trace Action (Option (Int × List UInt8))) (s : Conversation),
      (Conversation.machine sys).Reach (Conversation.agreeing sys) (tr, s) →
        ¬ s.Stuck ∧ (s.calling = none → s.exchange.pipe = []) := by
  refine ⟨?_, ?_⟩
  · intro backend fs' fhandle len ret payload hread
    rw [← deliverable_iff hread]
    exact readAnswered_iff sys backend fs' fhandle len ret payload hread
  intro tr s hreach
  have hinv := Conversation.reach_inv hreach
  refine ⟨?_, fun hidle => (hinv.empty hidle).2⟩
  rintro ⟨hinbox, hstuck⟩
  rcases hinv.handled hinbox with ⟨got, htrack⟩
  exact htrack.not_stuck hstuck

/-- A system whose memory does not run out, whose pipes take more than `PIPE_BUF` bytes one by one
and that refuses the oversized write. -/
def ampleSystem : System where
  malloc := fun _ => true
  pieces := fun bytes => bytes.map fun b => [b]
  pieces_flatten := List.flatMap_singleton'
  pieces_ne_nil := by simp
  oversized := []
  stack := List.replicate 8 0

/-- A run: a client mounts, and its session id is on the pipe. -/
theorem reach_mount :
    ∃ tr s, (Conversation.machine ampleSystem).Reach (Conversation.agreeing ampleSystem) (tr, s) ∧
      s.calling = some (.mount pathA) ∧ s.exchange.pipe = intBytes sizeofInt 1 := by
  let requested : Conversation :=
    { Conversation.initial with
      mounted := true
      inbox := some (.mount pathA)
      calling := some (.mount pathA)
      exchange := .start [] [sizeofInt] }
  let handled : Conversation :=
    { requested with
      backend := { requested.backend with nextSessionId := 2 }
      inbox := none
      exchange := .start [intBytes sizeofInt 1] [sizeofInt] }
  let written : Conversation :=
    { handled with exchange := ⟨[], intBytes sizeofInt 1, [sizeofInt], []⟩ }
  have hrequest : (Conversation.machine ampleSystem).exec Conversation.initial
      (.request (.mount pathA)) = some (none, requested) := rfl
  have hhandle : (Conversation.machine ampleSystem).exec requested .handle =
      some (none, handled) := rfl
  have hwrite : (Conversation.machine ampleSystem).exec handled .write = some (none, written) := rfl
  refine ⟨_, written, ((Machine.Reach.start.step ?_ hrequest).step ?_ hhandle).step ?_ hwrite,
    rfl, rfl⟩
  · intro call hact
    cases hact
  · intro call _ hcall
    cases hcall
    exact ⟨show pathA.strlen ≤ 39 by decide, show (1 : Int) ≤ 63 by decide⟩
  · intro call hact
    cases hact

/-- Two bytes are written and read through a second handle; and a client mounts. -/
theorem read_replies_two_bytes :
    (∃ fs fs', tfsRead fs 1 2 = some ((2, [104, 105]), fs') ∧
      (ReadAnswered ampleSystem ⟨fs, 2, false⟩ 1 2 2 [104, 105] ↔
        ampleSystem.malloc 2 = true ∧ Deliverable ampleSystem fs 1 2)) ∧
    ∃ s : Conversation, s.calling = some (.mount pathA) ∧
      s.exchange.pipe = intBytes sizeofInt 1 ∧ ¬ s.Stuck ∧
        (s.calling = none → s.exchange.pipe = []) := by
  constructor
  · have hrun : ((tfsOpen (tfsInit boot).2 pathA tfsOCreat).bind fun p =>
        (tfsWrite p.2 0 [104, 105]).bind fun q => (tfsOpen q.2 pathA 0).bind fun o =>
          (tfsRead o.2 1 2).map Prod.fst) = some (2, [104, 105]) := by decide +kernel
    rcases Option.bind_eq_some_iff.mp hrun with ⟨p, -, hrun⟩
    rcases Option.bind_eq_some_iff.mp hrun with ⟨q, -, hrun⟩
    rcases Option.bind_eq_some_iff.mp hrun with ⟨⟨handle, fs⟩, -, hrun⟩
    rcases Option.map_eq_some_iff.mp hrun with ⟨⟨result, fs'⟩, hread, rfl⟩
    exact ⟨fs, fs', hread, (read_replies ampleSystem).1 ⟨fs, 2, false⟩ fs' 1 2 2 [104, 105] hread⟩
  · rcases reach_mount with ⟨tr, s, hreach, hcalling, hpipe⟩
    exact ⟨s, hcalling, hpipe, (read_replies ampleSystem).2 tr s hreach⟩

/-- A read at the end of the file: the client waits for ever. -/
theorem not_readAnswered_at_end :
    ∃ fs fs', tfsOpen (tfsInit boot).2 pathA tfsOCreat = some (0, fs) ∧
      tfsRead fs 0 4 = some ((0, []), fs') ∧
      ¬ ReadAnswered ampleSystem ⟨fs, 2, false⟩ 0 4 0 [] := by
  have hrun : ((tfsOpen (tfsInit boot).2 pathA tfsOCreat).bind fun p =>
      (tfsRead p.2 0 4).map fun q => (p.1, q.1)) = some (0, 0, []) := by decide +kernel
  rcases Option.bind_eq_some_iff.mp hrun with ⟨⟨handle, fs⟩, hopen, hrun⟩
  rcases Option.map_eq_some_iff.mp hrun with ⟨⟨result, fs'⟩, hread, heq⟩
  cases heq
  refine ⟨fs, fs', hopen, hread, ?_⟩
  rw [readAnswered_iff ampleSystem ⟨fs, 2, false⟩ fs' 0 4 0 [] hread]
  rintro ⟨-, hpos | ⟨-, hzero⟩, -⟩
  · exact absurd hpos (Int.lt_irrefl 0)
  · cases hzero

end TecnicoFS.Part2
