import TecnicoFS.Part2.HandoffSteps
import TecnicoFS.Part2.Conversation
import TecnicoFS.Part2.Buffers

/-!
# Part 2: every request is handled once

What the invariant of the hand-off says of whole runs. The receiver writes into the
buffer of a session only when no request is pending there; what the workers have
handled for a client is what the client sent, from the first request on and in order; and
what the client has received are the answers to these, in order.

The receiver reads the data of a write into the buffer whatever its length. That of a longer one
runs on through the array of the sessions (`nextStores`), into the buffer of the next one.
-/

namespace TecnicoFS.Part2

namespace Hub

variable {sys : System} {s s' : Hub} {i : Fin maxClients} {c : CString}

/-! ## Runs -/

theorem mountsSent_send (tr : Machine.Trace Action Unit) (call : ApiCall) :
    mountsSent ((.send c call, ()) :: tr) = mountsSent tr + if call.isMount then 1 else 0 :=
  List.countP_cons

/-- The invariant holds in every run of polite clients. -/
theorem reach_inv {tr : Machine.Trace Action Unit} (h : (machine sys).Reach Polite (tr, s)) :
    ∃ g, Inv (mountsSent tr) s g := by
  refine h.invariant (P := fun tr s => ∃ g, Inv (mountsSent tr) s g) ⟨_, inv_initial⟩ ?_
  rintro tr s a r s' ⟨g, hinv⟩ hpolite hex
  rcases exec_cases hex with ⟨c, call, rfl, rfl⟩ | ⟨c, rfl, hs⟩ | ⟨rfl, hs⟩ | ⟨i, rfl, hs⟩
  · rcases hpolite c call rfl with ⟨hwf, hcalling, hclosed, hmount, hother⟩
    rw [mountsSent_send]
    exact ⟨_, inv_send hinv hwf hcalling hclosed hmount hother⟩
  · exact ⟨_, inv_collect hinv hs⟩
  · exact inv_receiverStep hinv hs
  · exact inv_workerStep hinv hs

/-! ## The promises -/

/-- A request has been posted to the session and is not yet fully handled: its flag is
up, or the worker is at it. -/
def Pending (s : Hub) (i : Fin maxClients) : Prop :=
  s.isActive i = true ∨ (s.workers i).Holding

theorem not_pending {n : Nat} {g : Ghost} {header : Header} (h : Inv n s g)
    (hpos : s.receiver = .locked i header) : ¬ s.Pending i := by
  have hreceiver := h.receiver
  rw [ReceiverOk, hpos] at hreceiver
  rcases hreceiver with ⟨hlock, c, r, closed, hi, -⟩
  have hworker := h.worker i
  rw [hlock, hi] at hworker
  rcases hworker.inactive with ⟨hactive, hworkers⟩
  rintro (hup | hold)
  · rw [hactive] at hup
    cases hup
  · rcases hworkers with hpos | hpos <;> rw [hpos] at hold <;> exact hold

/-- The only step of the receiver that writes into a buffer is the one that fills it. -/
theorem receiverStep_buffer {n : Nat} {g : Ghost} (h : Inv n s g)
    (hs : s.receiverStep = some s')
    (hchange : (s'.server.sessions i).buffer ≠ (s.server.sessions i).buffer) :
    ∃ header, s.receiver = .locked i header := by
  unfold receiverStep at hs
  split at hs
  · exfalso
    rcases take_cases h ‹_› hs with ⟨c, r, rest, k, header, server, -, -, -, -, hserver, rfl⟩
    apply hchange
    show (server.sessions i).buffer = (s.server.sessions i).buffer
    rw [hserver]
  · split at hs
    · cases hs
      exact absurd rfl hchange
    · cases hs
  · rename_i k header hpos
    have hreceiver := h.receiver
    rw [ReceiverOk, hpos] at hreceiver
    rcases hreceiver with ⟨-, c, r, closed, -, hheader, hwf, hpipe⟩
    rcases fill_cases h hheader hwf hpipe hs with ⟨session, -, -, rfl⟩
    by_cases hik : i = k
    · subst hik
      exact ⟨header, hpos⟩
    · exfalso
      apply hchange
      exact congrArg Session.buffer (Function.update_of_ne hik _ _)
  · cases hs
    exact absurd rfl hchange
  · cases hs
    exact absurd rfl hchange
  · cases hs
    exact absurd rfl hchange

/-- The bytes that the receiver stores in the array of the sessions where it stands before the rest
of a request: the operation code, the session id, and what the pipe brings. -/
def nextStores (s : Hub) : List BufferStore :=
  match s.receiver with
  | .locked i (.mount _) => [⟨(i : Nat), 0, 1⟩, ⟨(i : Nat), 1, mountSizeServer⟩]
  | .locked i (.request opCode _) =>
      ⟨(i : Nat), 0, 1⟩ :: ⟨(i : Nat), 1, sizeofInt⟩ :: bodyStores (i : Nat) opCode s.pipe
  | _ => []

/-- The stores for the rest of a request are meant for the buffer of its session. -/
theorem bodyStores_session {session : Int} {opCode : UInt8} {rest : List UInt8}
    {store : BufferStore} (hstore : store ∈ bodyStores session opCode rest) :
    store.session = session := by
  have hone : ∀ {offset count : Nat}, store ∈ [(⟨session, offset, count⟩ : BufferStore)] →
      store.session = session := fun h => by rw [List.mem_singleton.mp h]
  unfold bodyStores at hstore
  split at hstore
  · exact hone hstore
  split at hstore
  · exact hone hstore
  split at hstore
  · unfold writeStores at hstore
    split at hstore
    · exact absurd hstore List.not_mem_nil
    · split at hstore
      · exact hone hstore
      · simp only [List.mem_cons, List.not_mem_nil, or_false] at hstore
        rcases hstore with rfl | rfl | rfl <;> rfl
  split at hstore
  · exact hone hstore
  · exact absurd hstore List.not_mem_nil

/-- The rest of a well-formed request fits the buffer. -/
theorem bodyStores_fit_body {call : ApiCall} (hwf : call.WellFormed) (later : List UInt8) :
    ∀ store ∈ bodyStores (i : Nat) call.opCode (call.body ++ later), store.Fits := by
  have hlo : (0 : Int) ≤ (i : Nat) := Int.natCast_nonneg _
  have hhi : ((i : Nat) : Int) < maxClients := by exact_mod_cast i.isLt
  cases call with
  | write fhandle buffer =>
      rcases hwf with ⟨-, hlen⟩
      have hword : leNat (leBytes sizeofSizeT buffer.length) = buffer.length := by
        apply leNat_leBytes_of_lt
        norm_num [sizeofSizeT]
        omega
      have hbody : (ApiCall.write fhandle buffer).body ++ later =
          intBytes sizeofInt fhandle ++ (leBytes sizeofSizeT buffer.length ++ (buffer ++ later)) := by
        simp only [ApiCall.body, List.append_assoc]
      have hstores : ∀ rest, bodyStores (i : Nat) (ApiCall.write fhandle buffer).opCode rest =
          writeStores (i : Nat) rest := fun _ => rfl
      rw [hbody, hstores]
      refine (writeStores_fit_iff hlo hhi (readBytes_append (length_intBytes _ _))
        (readBytes_append (length_leBytes _ _))).mpr ?_
      rw [hword]
      simp only [sizeofInt, sizeofSizeT, maxRequestSize]
      omega
  | mount path => exact bodyStores_fit hlo hhi (show tfsOpCodeMount ≠ _ by decide) _
  | unmount => exact bodyStores_fit hlo hhi (show tfsOpCodeUnmount ≠ _ by decide) _
  | «open» name flags => exact bodyStores_fit hlo hhi (show tfsOpCodeOpen ≠ _ by decide) _
  | close fhandle => exact bodyStores_fit hlo hhi (show tfsOpCodeClose ≠ _ by decide) _
  | read fhandle len => exact bodyStores_fit hlo hhi (show tfsOpCodeRead ≠ _ by decide) _
  | shutdown => exact bodyStores_fit hlo hhi (by decide) _

/-- What the receiver stores for a request lands in the buffer of its session. -/
theorem nextStores_own {n : Nat} {g : Ghost} {header : Header} (h : Inv n s g)
    (hpos : s.receiver = .locked i header) :
    ∀ store ∈ s.nextStores, store.Fits ∧ store.session = (i : Nat) := by
  have hlo : (0 : Int) ≤ (i : Nat) := Int.natCast_nonneg _
  have hhi : ((i : Nat) : Int) < maxClients := by exact_mod_cast i.isLt
  have hreceiver := h.receiver
  rw [ReceiverOk, hpos] at hreceiver
  rcases hreceiver with ⟨-, c, r, closed, -, hheader, hwf, hpipe⟩
  intro store hstore
  rw [nextStores, hpos] at hstore
  rcases hheader with ⟨-, rfl⟩ | ⟨-, -, rfl⟩
  · simp only [List.mem_cons, List.not_mem_nil, or_false] at hstore
    rcases hstore with rfl | rfl
    · exact ⟨fits_of_room hlo hhi (by decide), rfl⟩
    · exact ⟨fits_of_room hlo hhi (by decide), rfl⟩
  · simp only [List.mem_cons] at hstore
    rcases hstore with rfl | rfl | hbody
    · exact ⟨fits_of_room hlo hhi (by decide), rfl⟩
    · exact ⟨fits_of_room hlo hhi (by decide), rfl⟩
    · rw [hpipe] at hbody
      exact ⟨bodyStores_fit_body hwf _ store hbody, bodyStores_session hbody⟩

/-- No byte that the receiver stores lands in the buffer of a pending request. -/
theorem nextStores_spare {n : Nat} {g : Ghost} (h : Inv n s g) :
    ∀ store ∈ s.nextStores, ∀ j, s.Pending j → ¬ store.Reaches j := by
  intro store hstore j hpending hreaches
  have hlocked : ∃ i header, s.receiver = .locked i header := by
    unfold nextStores at hstore
    split at hstore
    · exact ⟨_, _, ‹_›⟩
    · exact ⟨_, _, ‹_›⟩
    · exact absurd hstore List.not_mem_nil
  rcases hlocked with ⟨i, header, hpos⟩
  rcases nextStores_own h hpos store hstore with ⟨hfits, hsession⟩
  have heq := hsession.symm.trans (hfits.reaches hreaches)
  have hij : i = j := Fin.ext (by omega)
  exact not_pending h hpos (hij ▸ hpending)

/-- In every phase, what was handled for a client is what it sent first, and what it has
received are the first answers. -/
theorem History.first_sent {client : Client} {handled : List Handled} {replies : List Answer}
    {phase : Phase} (h : History client handled replies phase) :
    List.Forall₂ Matches handled (client.sent.take handled.length) ∧
      client.received <+: handled.map Handled.answer := by
  cases phase with
  | idle =>
      rcases h with ⟨-, hmatches, hanswers⟩
      rw [hmatches.length_eq, List.take_length, hanswers]
      exact ⟨hmatches, List.prefix_rfl⟩
  | waiting r place =>
      rcases h with ⟨-, done, hsent, hmatches, hanswers⟩
      rw [hsent, hmatches.length_eq, List.take_left, hanswers]
      exact ⟨hmatches, List.prefix_rfl⟩
  | answered answer =>
      rcases h with ⟨-, hmatches, hanswers⟩
      rw [hmatches.length_eq, List.take_length, hanswers]
      exact ⟨hmatches, List.prefix_append _ _⟩
  | replied answer =>
      rcases h with ⟨-, hmatches, hanswers⟩
      rw [hmatches.length_eq, List.take_length, hanswers]
      exact ⟨hmatches, List.prefix_append _ _⟩

end Hub

/-- In every run, the receiver never writes into the buffer of a session whose request is
pending, and no byte of a request that it stores lands there; the requests handled for a client are
the first ones it sent, once each, in order and byte for byte; and it has received the first of
their answers, in order. -/
theorem handed_off_once (sys : System) (tr : Machine.Trace Hub.Action Unit) (s : Hub)
    (h : (Hub.machine sys).Reach Hub.Polite (tr, s)) :
    (∀ s' i, s.receiverStep = some s' →
      (s'.server.sessions i).buffer ≠ (s.server.sessions i).buffer → ¬ s.Pending i) ∧
    (∀ store ∈ s.nextStores, ∀ i, s.Pending i → ¬ store.Reaches i) ∧
    ∀ c, List.Forall₂ Hub.Matches (s.handledOf c)
        ((s.clients c).sent.take (s.handledOf c).length) ∧
      (s.clients c).received <+: (s.handledOf c).map Handled.answer := by
  rcases Hub.reach_inv h with ⟨g, hinv⟩
  refine ⟨?_, Hub.nextStores_spare hinv, fun c => (hinv.client c).history.first_sent⟩
  intro s' i hs hchange
  rcases Hub.receiverStep_buffer hinv hs hchange with ⟨header, hpos⟩
  exact Hub.not_pending hinv hpos

namespace Hub

/-- The steps that take a request from the pipe and handle it. -/
def serve (i : Fin maxClients) : List Action :=
  List.replicate 6 .receive ++ List.replicate 6 (.work i)

/-- Two clients mount, and get the sessions 1 and 2. -/
def twoMounts : List Action :=
  [.send pathA (.mount pathA)] ++ serve 0 ++ [.collect pathA, .send pathB (.mount pathB)] ++
    serve 1 ++ [.collect pathB]

/-- Two clients mount; the one opens a file, and the other one writes to it. -/
def openAndWrite : List Action :=
  twoMounts ++ [.send pathA (.open pathA tfsOCreat)] ++ serve 0 ++
    [.work 0, .collect pathA, .send pathB (.write 0 [1, 2, 3])] ++ serve 1 ++ [.collect pathB]

end Hub

/-- One client opens a file and the other one writes to it; both have got their answers. -/
theorem handed_off_once_two :
    ∃ s : Hub, (s.clients pathA).received = [[intBytes sizeofInt 1], [intBytes sizeofInt 0]] ∧
      (s.clients pathB).received = [[intBytes sizeofInt 2], [intBytes sizeofSizeT 3]] ∧
      (∀ s' i, s.receiverStep = some s' →
        (s'.server.sessions i).buffer ≠ (s.server.sessions i).buffer → ¬ s.Pending i) ∧
      (∀ store ∈ s.nextStores, ∀ i, s.Pending i → ¬ store.Reaches i) ∧
      ∀ c, List.Forall₂ Hub.Matches (s.handledOf c)
          ((s.clients c).sent.take (s.handledOf c).length) ∧
        (s.clients c).received <+: (s.handledOf c).map Handled.answer := by
  have hplay : ((Hub.machine ampleSystem).play Hub.Polite ([], Hub.initial)
      Hub.openAndWrite).map (fun cfg => decide (
        (cfg.2.clients pathA).received = [[intBytes sizeofInt 1], [intBytes sizeofInt 0]] ∧
        (cfg.2.clients pathB).received = [[intBytes sizeofInt 2], [intBytes sizeofSizeT 3]])) =
      some true := by
    decide +kernel
  rcases Option.map_eq_some_iff.mp hplay with ⟨⟨tr, s⟩, hplay, hfacts⟩
  rcases of_decide_eq_true hfacts with ⟨hA, hB⟩
  have hreach : (Hub.machine ampleSystem).Reach Hub.Polite (tr, s) :=
    Machine.Reach.start.play hplay
  exact ⟨s, hA, hB, handed_off_once ampleSystem tr s hreach⟩

/-- A write of 3000 bytes by one client, while the open of the other one is posted: its bytes run
on into the buffer that holds the open. -/
theorem long_write_overwrites : ¬ ∀ sys tr s, (Hub.machine sys).Reach Hub.TakesTurns (tr, s) →
    ∀ store ∈ s.nextStores, ∀ i, s.Pending i → ¬ store.Reaches i := by
  intro hevery
  have hplay : ((Hub.machine ampleSystem).play Hub.TakesTurns ([], Hub.initial)
      (Hub.twoMounts ++ [.send pathB (.open pathA tfsOCreat)] ++ List.replicate 6 .receive ++
        [.send pathA (.write 0 (List.replicate 3000 7)), .receive, .receive])).map
      (fun cfg => decide (cfg.2.isActive 1 = true ∧
        ∃ store ∈ cfg.2.nextStores, store.session = 0 ∧ store.offset = 17 ∧ store.count = 3000)) =
      some true := by
    decide +kernel
  rcases Option.map_eq_some_iff.mp hplay with ⟨⟨tr, s⟩, hplay, hfacts⟩
  rcases of_decide_eq_true hfacts with ⟨hactive, store, hstore, hsession, hoffset, hcount⟩
  have hreach : (Hub.machine ampleSystem).Reach Hub.TakesTurns (tr, s) :=
    Machine.Reach.start.play hplay
  refine hevery ampleSystem tr s hreach store hstore 1 (Or.inl hactive) ⟨sessionSize, ?_⟩
  rw [hsession, hoffset, hcount]
  decide

end TecnicoFS.Part2
