import TecnicoFS.Part2.HandoffInv

/-!
# Part 2: the steps of the hand-off

Every step of a client, of the receiver and of a worker keeps the invariant.
-/

namespace TecnicoFS.Part2

namespace Hub

open Loop

variable {s s' : Hub} {g g' : Ghost} {i j : Fin maxClients} {c c' : CString} {n : Nat}
  {later more : List UInt8}

/-! ## What a step leaves alone -/

/-- The outstanding request of a client goes to another place. -/
def Ghost.setPhase (g : Ghost) (c : CString) (phase : Phase) : Ghost :=
  { g with phase := Function.update g.phase c phase }

@[simp] theorem Ghost.setPhase_queue (phase : Phase) : (g.setPhase c phase).queue = g.queue := rfl

@[simp] theorem Ghost.setPhase_owner (phase : Phase) : (g.setPhase c phase).owner = g.owner := rfl

@[simp] theorem Ghost.setPhase_self (phase : Phase) : (g.setPhase c phase).phase c = phase :=
  Function.update_self _ _ _

theorem Ghost.setPhase_of_ne {phase : Phase} (h : c' ≠ c) :
    (g.setPhase c phase).phase c' = g.phase c' :=
  Function.update_of_ne h _ _

/-- Only the seat of client `c` changes. -/
theorem seat_of_ne (hne : g.owner i ≠ some c) (howner : g'.owner i = g.owner i)
    (hphase : ∀ c', c' ≠ c → g'.phase c' = g.phase c')
    (hclosed : ∀ c', c' ≠ c → (s'.clients c').closed = (s.clients c').closed) :
    s'.seat g' i = s.seat g i := by
  refine seat_congr howner ?_ ?_
  · intro c' hc'
    exact hphase c' fun heq => hne (heq ▸ hc')
  · intro c' hc'
    exact hclosed c' fun heq => hne (heq ▸ hc')

/-- The seat tells the phase of its client. -/
theorem ne_of_seat {phase : Phase} {closed : Bool} (h : s.seat g i = some ⟨c', phase, closed⟩)
    (hphase : g.phase c ≠ phase) : g.owner i ≠ some c := by
  intro howner
  rw [seat_of_owner howner] at h
  cases h
  exact hphase rfl

/-- The receiver goes on as before, if what it holds is left alone; requests may be added
at the end of the pipe. -/
theorem ReceiverOk.frame (h : ReceiverOk s g later) (hreceiver : s'.receiver = s.receiver)
    (hpipe : s'.pipe = s.pipe ++ more)
    (hlocked : ∀ i, s.lock i = some .receiver → s'.lock i = some .receiver ∧
      s'.isActive i = s.isActive i ∧ s'.server.sessions i = s.server.sessions i)
    (hhand : ∀ i c r closed, s.seat g i = some ⟨c, .waiting r .hand, closed⟩ →
      s'.seat g' i = s.seat g i)
    (hsession : ∀ i c r closed, s.lock i = some .receiver →
      s.seat g i = some ⟨c, .waiting r .session, closed⟩ → s'.seat g' i = s.seat g i) :
    ReceiverOk s' g' (later ++ more) := by
  have hInHand : ∀ i header, InHand s.pipe later i header (s.seat g i) →
      InHand s'.pipe (later ++ more) i header (s'.seat g' i) := by
    rintro i header ⟨c, r, closed, hseat, hheader, hwf, hbody⟩
    refine ⟨c, r, closed, ?_, hheader, hwf, ?_⟩
    · rw [hhand i c r closed hseat, hseat]
    · rw [hpipe, hbody, List.append_assoc]
  unfold ReceiverOk at *
  rw [hreceiver]
  cases hpos : s.receiver with
  | ready =>
      rw [hpos] at h
      exact hpipe.trans (congrArg (· ++ more) h)
  | taken i header =>
      rw [hpos] at h
      exact hInHand i header h
  | locked i header =>
      rw [hpos] at h
      exact ⟨(hlocked i h.1).1, hInHand i header h.2⟩
  | filled i =>
      rw [hpos] at h
      rcases h with ⟨hlock, hbytes, hactive, c, r, closed, hseat, hholds⟩
      rcases hlocked i hlock with ⟨hlock', hactive', hsame⟩
      refine ⟨hlock', hpipe.trans (congrArg (· ++ more) hbytes), hactive'.trans hactive, c, r,
        closed, ?_, ?_⟩
      · rw [hsession i c r closed hlock hseat, hseat]
      · rw [hsame]
        exact hholds
  | active i =>
      rw [hpos] at h
      exact ⟨(hlocked i h.1).1, hpipe.trans (congrArg (· ++ more) h.2)⟩
  | leaving i =>
      rw [hpos] at h
      exact ⟨(hlocked i h.1).1, hpipe.trans (congrArg (· ++ more) h.2)⟩

/-- The same where nothing is added to the pipe. -/
theorem ReceiverOk.still (h : ReceiverOk s g later) (hreceiver : s'.receiver = s.receiver)
    (hpipe : s'.pipe = s.pipe)
    (hlocked : ∀ i, s.lock i = some .receiver → s'.lock i = some .receiver ∧
      s'.isActive i = s.isActive i ∧ s'.server.sessions i = s.server.sessions i)
    (hhand : ∀ i c r closed, s.seat g i = some ⟨c, .waiting r .hand, closed⟩ →
      s'.seat g' i = s.seat g i)
    (hsession : ∀ i c r closed, s.lock i = some .receiver →
      s.seat g i = some ⟨c, .waiting r .session, closed⟩ → s'.seat g' i = s.seat g i) :
    ReceiverOk s' g' later := by
  rw [← List.append_nil later]
  exact h.frame hreceiver (hpipe.trans (List.append_nil _).symm) hlocked hhand hsession

theorem seat_setPhase {phase : Phase} (howner : g.owner i = some c) :
    s.seat (g.setPhase c phase) i = some ⟨c, phase, (s.clients c).closed⟩ := by
  have hof : (g.setPhase c phase).owner i = some c := howner
  rw [seat_of_owner hof, Ghost.setPhase_self]

/-- A client has no second session. -/
theorem Inv.other_owner (h : Inv n s g) (howner : g.owner i = some c) (hne : j ≠ i) :
    g.owner j ≠ some c :=
  fun hj => hne (h.owner_inj j i c hj howner)

/-- The seats of the other sessions stay as they are. -/
theorem Inv.other_seat {phase : Phase} (h : Inv n s g) (howner : g.owner i = some c)
    (hne : j ≠ i) : s.seat (g.setPhase c phase) j = s.seat g j :=
  seat_of_ne (h.other_owner howner hne) rfl (fun _ => Ghost.setPhase_of_ne) fun _ _ => rfl

/-- What is queued stays so, when a request that is not goes to another place. -/
theorem Inv.still_queued {phase : Phase} {r : Request} (h : Inv n s g)
    (hphase : ∀ r, g.phase c ≠ .waiting r .queue) (hin : (c', r) ∈ g.queue) :
    (g.setPhase c phase).phase c' = .waiting r .queue := by
  have hqueued := h.queued c' r hin
  rw [Ghost.setPhase_of_ne]
  · exact hqueued
  · rintro rfl
    exact hphase r hqueued

/-- A worker whose client has nothing loaded and nothing to be answered does not care what
becomes of the client, as long as it stays retired. -/
theorem WorkerOk.reseat_phase {pos : WorkerPos} {lock : Option Holder} {active closed : Bool}
    {session session' : Session} {phase : Phase} {seat : Option Seat}
    (h : WorkerOk pos lock active session (some ⟨c, phase, closed⟩))
    (hload : ∀ r, phase ≠ .waiting r .session) (hanswer : ∀ answer, phase ≠ .answered answer)
    (hretired : closed = true → phase.Served → Retired seat) :
    WorkerOk pos lock active session' seat := by
  refine h.reseat ?_ ?_ ?_
  · intro c' r closed' heq
    cases heq
    exact hload r rfl
  · intro c' answer closed' heq
    cases heq
    exact hanswer answer rfl
  · intro hold
    rcases retired_iff.mp hold with ⟨hclosed, hserved⟩
    exact hretired hclosed hserved

/-! ## The start -/

theorem inv_initial : Inv 0 initial ⟨[], fun _ => none, fun _ => .idle⟩ where
  receiver := rfl
  worker := by
    intro i
    refine ⟨?_, ?_⟩
    · constructor <;> intro h <;> cases h
    · intro h
      cases h
  client := by
    intro c
    refine ⟨⟨rfl, List.Forall₂.nil, rfl⟩, fun _ => rfl, ?_, ?_, ?_, ?_, ?_, ?_⟩
    · intro r place h
      cases h
    · rintro answer (h | h) <;> cases h
    · intro r place h
      cases h
    · intro r h
      cases h
    · intro h
      exact absurd rfl h
    · rintro - ⟨i, hi⟩
      cases hi
  nodup := List.nodup_nil
  queued := fun c r h => absurd h List.not_mem_nil
  owner_inj := fun i j c h => by cases h
  owner_next := by
    intro i
    have hnext : initial.server.nextSessionId = 1 := rfl
    rw [hnext]
    refine iff_of_true rfl ?_
    omega
  numbered := startSessions_numbered
  counted := rfl
  bounded := Nat.zero_le _

/-! ## The clients -/

/-- A client that waits for no answer has no request outstanding. -/
theorem ClientOk.phase_idle {client : Client} {handled : List Handled} {replies : List Answer}
    {phase : Phase} {owned : Prop} {home : Fin maxClients → Prop}
    (h : ClientOk c client handled replies phase owned home) (hcalling : client.calling = none) :
    phase = .idle := by
  cases phase with
  | idle => rfl
  | waiting r place =>
      rw [h.calling r place rfl] at hcalling
      cases hcalling
  | answered answer =>
      rcases h.answer answer (Or.inl rfl) with ⟨call, hcall, -⟩
      rw [hcall] at hcalling
      cases hcalling
  | replied answer =>
      rcases h.answer answer (Or.inr rfl) with ⟨call, hcall, -⟩
      rw [hcall] at hcalling
      cases hcalling

/-- The request goes to the end of the queue. -/
def Ghost.send (g : Ghost) (c : CString) (r : Request) : Ghost :=
  { g.setPhase c (.waiting r .queue) with queue := g.queue ++ [(c, r)] }

theorem send_clients_of_ne {call : ApiCall} (h : c' ≠ c) :
    (s.send c call).clients c' = s.clients c' :=
  Function.update_of_ne h _ _

theorem send_clients_self {call : ApiCall} :
    (s.send c call).clients c = (s.clients c).send call :=
  Function.update_self _ _ _

theorem stream_snoc (queue : List (CString × Request)) (r : Request) :
    stream ((queue ++ [(c, r)]).map Prod.snd) = stream (queue.map Prod.snd) ++ r.bytes := by
  rw [List.map_append, stream_append, List.map_singleton, stream_cons, stream_nil, List.append_nil]

/-- An idle client sends a request. -/
theorem ClientOk.send {client : Client} {handled : List Handled} {replies : List Answer}
    {call : ApiCall} {owned : Prop} {home : Fin maxClients → Prop}
    (h : ClientOk c client handled replies .idle owned home) (hwf : call.WellFormed)
    (hmount : call.isMount = true → call = .mount c ∧ client.sent = [])
    (hother : call.isMount = false → client.received ≠ []) :
    ClientOk c (client.send call) handled replies
      (.waiting ⟨client.sessionId, call⟩ .queue) owned home := by
  rcases h.history with ⟨hreplies, hmatches, hanswers⟩
  refine ⟨⟨hreplies, _, rfl, hmatches, hanswers⟩, ?_, ?_, ?_, ?_, ?_, h.known, ?_⟩
  · intro heq
    cases heq
  · intro r place heq
    cases heq
    rfl
  · rintro answer (heq | heq) <;> cases heq
  · intro r place heq
    cases heq
    refine ⟨hwf, fun hlast => hlast, ?_⟩
    cases hm : call.isMount with
    | true => exact Or.inl (hmount hm).1
    | false => exact Or.inr ⟨rfl, hother hm, rfl⟩
  · intro r heq hm
    cases heq
    exact h.fresh (hmount hm).2
  · intro hnil
    exact absurd (List.append_eq_nil_iff.mp hnil).2 (List.cons_ne_nil _ _)

/-- A client whose request is not queued has nothing on the pipe. -/
theorem Inv.not_queued (h : Inv n s g) (hphase : ∀ r, g.phase c ≠ .waiting r .queue) :
    c ∉ g.queue.map Prod.fst := by
  intro hmem
  rcases List.mem_map.mp hmem with ⟨⟨c', r⟩, hin, rfl⟩
  exact hphase r (h.queued c' r hin)

theorem mounts_snoc (queue : List (CString × Request)) (r : Request) :
    mounts ((queue ++ [(c, r)]).map Prod.snd) =
      mounts (queue.map Prod.snd) + if r.call.isMount then 1 else 0 := by
  rw [List.map_append, List.map_singleton, mounts, List.countP_append]
  congr 1
  exact List.countP_singleton

theorem inv_send {call : ApiCall} (h : Inv n s g) (hwf : call.WellFormed)
    (hcalling : (s.clients c).calling = none) (hclosed : (s.clients c).closed = false)
    (hmount : call.isMount = true → call = .mount c ∧ (s.clients c).sent = [] ∧ n < 63)
    (hother : call.isMount = false → (s.clients c).received ≠ []) :
    Inv (n + if call.isMount then 1 else 0) (s.send c call)
      (g.send c ⟨(s.clients c).sessionId, call⟩) := by
  have hclient := h.client c
  have hidle : g.phase c = .idle := hclient.phase_idle hcalling
  have hphase : ∀ c', c' ≠ c →
      (g.send c ⟨(s.clients c).sessionId, call⟩).phase c' = g.phase c' := fun c' hne =>
    Function.update_of_ne hne _ _
  have hsame : ∀ c', c' ≠ c →
      ((s.send c call).clients c').closed = (s.clients c').closed := by
    intro c' hne
    rw [send_clients_of_ne hne]
  have hseat : ∀ i, g.owner i ≠ some c →
      (s.send c call).seat (g.send c ⟨(s.clients c).sessionId, call⟩) i = s.seat g i :=
    fun i hne => seat_of_ne hne rfl hphase hsame
  refine ⟨?_, ?_, ?_, ?_, ?_, h.owner_inj, h.owner_next, h.numbered, ?_, ?_⟩
  · rw [Ghost.send, stream_snoc]
    refine h.receiver.frame rfl rfl (fun _ hlock => ⟨hlock, rfl, rfl⟩) ?_ ?_
    · intro i c' r closed hi
      exact hseat i (ne_of_seat hi (by rw [hidle]; intro heq; cases heq))
    · intro i c' r closed _ hi
      exact hseat i (ne_of_seat hi (by rw [hidle]; intro heq; cases heq))
  · intro i
    by_cases howner : g.owner i = some c
    · -- nothing is loaded or answered for an idle client, and it has not retired
      have hworker := h.worker i
      rw [seat_of_owner howner, hidle, hclosed] at hworker
      refine hworker.reseat_phase ?_ ?_ ?_
      · intro r heq
        cases heq
      · intro answer heq
        cases heq
      · intro hretired
        cases hretired
    · rw [hseat i howner]
      exact h.worker i
  · intro c'
    by_cases hne : c' = c
    · subst hne
      have hphase' : (g.send c' ⟨(s.clients c').sessionId, call⟩).phase c' =
          .waiting ⟨(s.clients c').sessionId, call⟩ .queue := Function.update_self _ _ _
      rw [hidle] at hclient
      rw [hphase', send_clients_self]
      exact hclient.send hwf (fun hm => ⟨(hmount hm).1, (hmount hm).2.1⟩) hother
    · rw [send_clients_of_ne hne, hphase c' hne]
      exact h.client c'
  · have hnot : c ∉ g.queue.map Prod.fst := h.not_queued fun r heq => by
      rw [hidle] at heq
      cases heq
    have happend : (g.send c ⟨(s.clients c).sessionId, call⟩).queue.map Prod.fst =
        g.queue.map Prod.fst ++ [c] := List.map_append
    rw [happend]
    refine List.nodup_append.mpr ⟨h.nodup, List.pairwise_singleton _ _, ?_⟩
    intro a ha b hb heq
    rw [List.mem_singleton.mp hb] at heq
    exact hnot (heq ▸ ha)
  · intro c' r hin
    rcases List.mem_append.mp hin with hin | hin
    · have hqueued := h.queued c' r hin
      have hne : c' ≠ c := by
        rintro rfl
        rw [hidle] at hqueued
        cases hqueued
      rw [hphase c' hne]
      exact hqueued
    · cases List.mem_singleton.mp hin
      exact Function.update_self _ _ _
  · have hcounted := h.counted
    have happend : mounts ((g.send c ⟨(s.clients c).sessionId, call⟩).queue.map Prod.snd) =
        mounts (g.queue.map Prod.snd) + if call.isMount then 1 else 0 := mounts_snoc _ _
    have hnext : (s.send c call).server.nextSessionId = s.server.nextSessionId := rfl
    rw [happend, hnext]
    push_cast
    omega
  · have hbounded := h.bounded
    split
    · exact (hmount ‹_›).2.2
    · exact hbounded

/-- An answer goes from the pipe of a client to the client. -/
theorem collect_cases (hs : s.collect c = some s') :
    ∃ answer replies call, s.replies c = answer :: replies ∧ (s.clients c).calling = some call ∧
      s' = s.collected c call answer replies := by
  unfold collect at hs
  split at hs
  · rename_i answer replies call hreplies hcalling
    split at hs
    · exact ⟨answer, replies, call, hreplies, hcalling, (Option.some.inj hs).symm⟩
    · cases hs
  · cases hs

/-- An answer on the pipe of a client is that of its last request, and the only one. -/
theorem History.replied {client : Client} {handled : List Handled} {replies : List Answer}
    {phase : Phase} {answer : Answer} (h : History client handled (answer :: replies) phase) :
    phase = .replied answer ∧ replies = [] := by
  cases phase with
  | idle => cases h.1
  | waiting r place => cases h.1
  | answered answer' => cases h.1
  | replied answer' =>
      cases h.1
      exact ⟨rfl, rfl⟩

/-- The client has its answer and waits for nothing. -/
theorem ClientOk.collect {client : Client} {handled : List Handled} {answer : Answer}
    {call : ApiCall} {owned : Prop} {home : Fin maxClients → Prop}
    (h : ClientOk c client handled [answer] (.replied answer) owned home)
    (hcalling : client.calling = some call) :
    ClientOk c (client.collect call answer) handled [] .idle owned home := by
  rcases h.history with ⟨-, hmatches, hanswers⟩
  rcases h.answer answer (Or.inr rfl) with ⟨call', hcall', hmount, hother⟩
  rw [hcalling] at hcall'
  cases hcall'
  refine ⟨⟨rfl, hmatches, hanswers⟩, fun _ => rfl, ?_, ?_, ?_, ?_, ?_, h.fresh⟩
  · intro r place heq
    cases heq
  · rintro answer' (heq | heq) <;> cases heq
  · intro r place heq
    cases heq
  · intro r heq
    cases heq
  · intro _
    cases hm : call.isMount with
    | true =>
        rcases hmount hm with ⟨i, hi, rfl⟩
        refine ⟨i, hi, ?_⟩
        have hlt := i.isLt
        have hint : IsInt ((i : Nat) + 1) := by
          simp only [maxClients] at hlt
          simp only [IsInt]
          omega
        rw [Client.collect, hm, if_pos rfl, List.flatten_singleton, leInt_int hint]
    | false =>
        rcases h.known (hother hm) with ⟨i, hi, hid⟩
        refine ⟨i, hi, ?_⟩
        rw [Client.collect, hm, if_neg (by decide)]
        exact hid

theorem inv_collect (h : Inv n s g) (hs : s.collect c = some s') :
    Inv n s' (g.setPhase c .idle) := by
  rcases collect_cases hs with ⟨answer, replies, call, hreplies, hcalling, rfl⟩
  have hclient := h.client c
  rw [hreplies] at hclient
  rcases hclient.history.replied with ⟨hphase, rfl⟩
  have hclosed : ∀ c', ((s.collected c call answer []).clients c').closed =
      (s.clients c').closed := by
    intro c'
    by_cases hne : c' = c
    · subst hne
      have hself : (s.collected c' call answer []).clients c' =
          (s.clients c').collect call answer := Function.update_self _ _ _
      rw [hself]
      rfl
    · exact congrArg Client.closed (Function.update_of_ne hne _ _)
  have hseat : ∀ i, g.owner i ≠ some c →
      (s.collected c call answer []).seat (g.setPhase c .idle) i = s.seat g i :=
    fun i hne => seat_of_ne hne rfl (fun c' => Ghost.setPhase_of_ne) (fun c' _ => hclosed c')
  -- the request is answered, so it is neither queued nor in hand
  have hwaiting : ∀ r place, g.phase c ≠ .waiting r place := by
    intro r place heq
    rw [hphase] at heq
    cases heq
  refine ⟨?_, ?_, ?_, h.nodup, ?_, h.owner_inj, h.owner_next, h.numbered, h.counted, h.bounded⟩
  · refine h.receiver.still rfl rfl (fun _ hlock => ⟨hlock, rfl, rfl⟩) ?_ ?_
    · intro i c' r closed hi
      exact hseat i (ne_of_seat hi (hwaiting r .hand))
    · intro i c' r closed _ hi
      exact hseat i (ne_of_seat hi (hwaiting r .session))
  · intro i
    by_cases howner : g.owner i = some c
    · have hworker := h.worker i
      rw [seat_of_owner howner, hphase] at hworker
      have hnew : (s.collected c call answer []).seat (g.setPhase c .idle) i =
          some ⟨c, .idle, (s.clients c).closed⟩ := by
        have hof : (g.setPhase c .idle).owner i = some c := howner
        rw [seat_of_owner hof, Ghost.setPhase_self, hclosed]
      rw [hnew]
      refine hworker.reseat_phase ?_ ?_ ?_
      · intro r heq
        cases heq
      · intro answer' heq
        cases heq
      · intro hretired _
        refine retired_iff.mpr ⟨hretired, ?_⟩
        intro r place hidle
        cases hidle
    · rw [hseat i howner]
      exact h.worker i
  · intro c'
    by_cases hne : c' = c
    · subst hne
      rw [hphase] at hclient
      have hnew := hclient.collect hcalling
      have hclients : (s.collected c' call answer []).clients c' =
          (s.clients c').collect call answer := Function.update_self _ _ _
      have hempty : (s.collected c' call answer []).replies c' = [] := Function.update_self _ _ _
      rw [Ghost.setPhase_self, hclients, hempty]
      exact hnew
    · have hclients : (s.collected c call answer []).clients c' = s.clients c' :=
        Function.update_of_ne hne _ _
      have hsame : (s.collected c call answer []).replies c' = s.replies c' :=
        Function.update_of_ne hne _ _
      rw [Ghost.setPhase_of_ne hne, hclients, hsame]
      exact h.client c'
  · intro c' r hin
    exact h.still_queued (fun r' => hwaiting r' .queue) hin

/-! ## The receiver -/

/-- The request of client `c` leaves the queue for session `i`. -/
def Ghost.take (g : Ghost) (c : CString) (r : Request) (i : Fin maxClients)
    (rest : List (CString × Request)) : Ghost where
  queue := rest
  owner := Function.update g.owner i (some c)
  phase := Function.update g.phase c (.waiting r .hand)

theorem take_owner_self {r : Request} {rest : List (CString × Request)} :
    (g.take c r i rest).owner i = some c :=
  Function.update_self _ _ _

theorem take_owner_of_ne {r : Request} {rest : List (CString × Request)} (hne : j ≠ i) :
    (g.take c r i rest).owner j = g.owner j :=
  Function.update_of_ne hne _ _

theorem take_phase_self {r : Request} {rest : List (CString × Request)} :
    (g.take c r i rest).phase c = .waiting r .hand :=
  Function.update_self _ _ _

theorem take_phase_of_ne {r : Request} {rest : List (CString × Request)} (hne : c' ≠ c) :
    (g.take c r i rest).phase c' = g.phase c' :=
  Function.update_of_ne hne _ _

/-- The session of a request: the next one for a mount, else the one of its client. -/
def SessionOf (s : Hub) (g : Ghost) (c : CString) (r : Request) (i : Fin maxClients) : Prop :=
  r.call.isMount = true ∧ g.owner i = none ∧ s.server.nextSessionId = (i : Nat) + 1 ∨
    r.call.isMount = false ∧ g.owner i = some c

/-- The header at the front of the pipe is that of the first request in the queue, and the
session is the one of its client, or the next one for a mount. -/
theorem take_cases (h : Inv n s g) (hready : s.receiver = .ready) (hs : s.take = some s') :
    ∃ c r rest i header server, g.queue = (c, r) :: rest ∧ HeaderOf i header c r ∧
      r.call.WellFormed ∧
      SessionOf s g c r i ∧
      server = { s.server with
        nextSessionId := s.server.nextSessionId + if r.call.isMount then 1 else 0 } ∧
      s' = { s with
        pipe := r.call.body ++ stream (rest.map Prod.snd)
        server := server
        receiver := .taken i header } := by
  have hpipe : s.pipe = stream (g.queue.map Prod.snd) := by
    have hreceiver := h.receiver
    rw [ReceiverOk, hready] at hreceiver
    exact hreceiver
  cases hqueue : g.queue with
  | nil =>
      rw [hqueue] at hpipe
      rw [take, hpipe] at hs
      cases hs
  | cons head rest =>
      rcases head with ⟨c, r⟩
      have hphase := h.queued c r (hqueue ▸ List.mem_cons_self)
      have hclient := h.client c
      rcases hclient.request r .queue hphase with ⟨hwf, -, hkind⟩
      rw [hqueue, List.map_cons, stream_cons] at hpipe
      -- a mount takes the next session, another call the one its client was told
      rcases hkind with hmount | ⟨hm, hreceived, hsid⟩
      · have hm : r.call.isMount = true := by
          rw [hmount]
          rfl
        rw [Request.bytes_of_mount hmount hwf, List.cons_append] at hpipe
        unfold take at hs
        rw [hpipe] at hs
        simp only [if_true] at hs
        split at hs
        · cases hs
        · rename_i i hi
          have hnext := index?_eq_some.mp hi
          refine ⟨c, r, rest, i, _, _, rfl, Or.inl ⟨hmount, rfl⟩, hwf,
            Or.inl ⟨hm, (h.owner_next i).mpr (by omega), by omega⟩, rfl, ?_⟩
          have hnum : s.server.nextSessionId = (i : Nat) + 1 := by omega
          rw [← Option.some.inj hs, hm, hmount, hnum]
          rfl
      · rcases hclient.known hreceived with ⟨i, ⟨howner, -⟩, hid⟩
        have hlt := i.isLt
        have hint : IsInt r.sessionId := by
          simp only [maxClients] at hlt
          rw [hsid, hid]
          simp only [IsInt]
          omega
        have hindex : index? maxClients (r.sessionId - 1) = some i := by
          rw [index?_eq_some, hsid, hid]
          omega
        rw [Request.bytes_of_not_mount hm hwf, List.cons_append, List.append_assoc] at hpipe
        unfold take at hs
        rw [hpipe] at hs
        simp only [if_neg (ApiCall.opCode_ne_mount hm), readBytes_append (length_intBytes _ _),
          leInt_int hint, hindex] at hs
        refine ⟨c, r, rest, i, _, _, rfl, Or.inr ⟨hm, by rw [hsid, hid], rfl⟩, hwf,
          Or.inr ⟨hm, howner⟩, rfl, ?_⟩
        rw [← Option.some.inj hs, hm, if_neg (by decide), Int.add_zero]

/-- A request that has left the queue goes on to another place. -/
theorem ClientOk.forward {client : Client} {handled : List Handled} {replies : List Answer}
    {r : Request} {place place' : Place} {owned owned' : Prop}
    {home home' : Fin maxClients → Prop}
    (h : ClientOk c client handled replies (.waiting r place) owned home)
    (hplace : place' ≠ .queue) (hhome : ∀ i, home i → home' i) :
    ClientOk c client handled replies (.waiting r place') owned' home' := by
  refine ⟨h.history, ?_, ?_, ?_, ?_, ?_, ?_, ?_⟩
  · intro heq
    cases heq
  · intro r' place'' heq
    cases heq
    exact h.calling r place rfl
  · rintro answer (heq | heq) <;> cases heq
  · intro r' place'' heq
    cases heq
    exact h.request r place rfl
  · intro r' heq
    cases heq
    exact absurd rfl hplace
  · intro hreceived
    rcases h.known hreceived with ⟨i, hi, hid⟩
    exact ⟨i, hhome i hi, hid⟩
  · -- it has sent this request
    intro hsent
    rcases h.history with ⟨-, done, hdone, -⟩
    rw [hsent] at hdone
    exact absurd hdone.symm (List.append_ne_nil_of_right_ne_nil _ (List.cons_ne_nil _ _))

section

variable {r : Request} (rest : List (CString × Request)) (h : Inv n s g)
  (hphase : g.phase c = .waiting r .queue) (hsession : SessionOf s g c r i)

include hsession

/-- The session is not another client's. -/
theorem SessionOf.owner : g.owner i = none ∨ g.owner i = some c := by
  rcases hsession with ⟨-, hnone, -⟩ | ⟨-, hsome⟩
  · exact Or.inl hnone
  · exact Or.inr hsome

include h

/-- A mount uses up the next number. -/
theorem SessionOf.owner_next (j : Fin maxClients) :
    (g.take c r i rest).owner j = none ↔
      s.server.nextSessionId + (if r.call.isMount then 1 else 0) ≤ (j : Nat) + 1 := by
  have hnext := h.owner_next j
  by_cases hji : j = i
  · subst hji
    rw [take_owner_self]
    refine iff_of_false (fun heq => by cases heq) ?_
    rcases hsession with ⟨hm, -, hnum⟩ | ⟨hm, hsome⟩
    · simp only [hm, if_true, hnum]
      omega
    · rw [hsome] at hnext
      have hlt : ¬ s.server.nextSessionId ≤ (j : Nat) + 1 := fun hle => by
        cases hnext.mpr hle
      simp only [hm, Bool.false_eq_true, if_false, Int.add_zero]
      exact hlt
  · rw [take_owner_of_ne hji, hnext]
    rcases hsession with ⟨hm, -, hnum⟩ | ⟨hm, -⟩
    · have hval : (j : Nat) ≠ i := fun heq => hji (Fin.ext heq)
      simp only [hm, if_true, hnum]
      omega
    · simp only [hm, Bool.false_eq_true, if_false, Int.add_zero]

include hphase

/-- The client has no other session. -/
theorem SessionOf.only (hne : j ≠ i) : g.owner j ≠ some c := by
  intro hj
  rcases hsession with ⟨hm, -, -⟩ | ⟨-, hsome⟩
  · exact (h.client c).unowned r hphase hm ⟨j, hj⟩
  · exact hne (h.owner_inj j i c hj hsome)

theorem SessionOf.seat_of_ne (hne : j ≠ i) : s.seat (g.take c r i rest) j = s.seat g j :=
  Hub.seat_of_ne (hsession.only h hphase hne) (take_owner_of_ne hne)
    (fun _ => take_phase_of_ne) fun _ _ => rfl

/-- The worker of the session is not concerned: the session was nobody's, or the request of its
client was queued. -/
theorem SessionOf.worker {closed : Bool} :
    WorkerOk (s.workers i) (s.lock i) (s.isActive i) (s.server.sessions i)
      (some ⟨c, .waiting r .hand, closed⟩) := by
  have hworker := h.worker i
  rcases hsession.owner with hnone | hsome
  · rw [seat_none hnone] at hworker
    refine hworker.reseat ?_ ?_ ?_
    · intro c' r' closed' heq
      cases heq
    · intro c' answer closed' heq
      cases heq
    · rintro ⟨c', phase, heq, -⟩
      cases heq
  · rw [seat_of_owner hsome, hphase] at hworker
    refine hworker.reseat_phase ?_ ?_ ?_
    · intro r' heq
      cases heq
    · intro answer heq
      cases heq
    · intro _ hserved
      exact absurd rfl (hserved r .queue)

theorem SessionOf.client (c' : CString) :
    ClientOk c' (s.clients c') (s.handledOf c') (s.replies c') ((g.take c r i rest).phase c')
      (∃ j, (g.take c r i rest).owner j = some c')
      (fun j => (g.take c r i rest).owner j = some c' ∧ s.tx j = some c') := by
  by_cases hne : c' = c
  · subst hne
    have hclient := h.client c'
    rw [hphase] at hclient
    rw [take_phase_self]
    refine hclient.forward (by simp) ?_
    rintro j ⟨hj, htx⟩
    refine ⟨?_, htx⟩
    by_cases hji : j = i
    · rw [hji]
      exact take_owner_self
    · exact absurd hj (hsession.only h hphase hji)
  · rw [take_phase_of_ne hne]
    -- session `i` was not this client's and is not now
    have hi : g.owner i ≠ some c' := by
      intro heq
      rcases hsession.owner with hnone | hsome
      · rw [hnone] at heq
        cases heq
      · rw [hsome] at heq
        exact hne (Option.some.inj heq).symm
    refine (h.client c').mono ?_ ?_
    · rintro ⟨j, hj⟩
      refine ⟨j, ?_⟩
      rwa [take_owner_of_ne] at hj
      rintro rfl
      rw [take_owner_self] at hj
      exact hne (Option.some.inj hj).symm
    · rintro j ⟨hj, htx⟩
      refine ⟨?_, htx⟩
      rwa [take_owner_of_ne]
      rintro rfl
      exact hi hj

theorem SessionOf.owner_inj (j k : Fin maxClients) (c' : CString)
    (hj : (g.take c r i rest).owner j = some c') (hk : (g.take c r i rest).owner k = some c') :
    j = k := by
  by_cases hji : j = i
  · by_cases hki : k = i
    · rw [hji, hki]
    · rw [hji, take_owner_self] at hj
      rw [take_owner_of_ne hki, ← hj] at hk
      exact absurd hk (hsession.only h hphase hki)
  · rw [take_owner_of_ne hji] at hj
    by_cases hki : k = i
    · rw [hki, take_owner_self] at hk
      rw [← hk] at hj
      exact absurd hj (hsession.only h hphase hji)
    · rw [take_owner_of_ne hki] at hk
      exact h.owner_inj j k c' hj hk

end

/-- The request is in the hands of the receiver. -/
theorem inv_taken {r : Request} {rest : List (CString × Request)} {header : Header}
    {server : Server} (h : Inv n s g) (hqueue : g.queue = (c, r) :: rest)
    (hheader : HeaderOf i header c r) (hwf : r.call.WellFormed) (hsession : SessionOf s g c r i)
    (hserver : server = { s.server with
      nextSessionId := s.server.nextSessionId + if r.call.isMount then 1 else 0 }) :
    Inv n { s with
      pipe := r.call.body ++ stream (rest.map Prod.snd)
      server := server
      receiver := .taken i header } (g.take c r i rest) := by
  have hphase := h.queued c r (hqueue ▸ List.mem_cons_self)
  have hsessions : server.sessions = s.server.sessions := by rw [hserver]
  have hnodup := h.nodup
  rw [hqueue] at hnodup
  have hseat : s.seat (g.take c r i rest) i =
      some ⟨c, .waiting r .hand, (s.clients c).closed⟩ := by
    rw [seat_of_owner take_owner_self, take_phase_self]
  have hclient := hsession.client rest h hphase
  have hinj := hsession.owner_inj rest h hphase
  refine ⟨?_, ?_, hclient, ?_, ?_, hinj, ?_, ?_, ?_, h.bounded⟩
  · exact ⟨c, r, _, hseat, hheader, hwf, rfl⟩
  · intro j
    show WorkerOk (s.workers j) (s.lock j) (s.isActive j) (server.sessions j)
      (s.seat (g.take c r i rest) j)
    rw [hsessions]
    by_cases hne : j = i
    · subst hne
      rw [hseat]
      exact hsession.worker h hphase
    · rw [hsession.seat_of_ne rest h hphase hne]
      exact h.worker j
  · exact (List.nodup_cons.mp hnodup).2
  · intro c' r' hin
    have hne : c' ≠ c := by
      rintro rfl
      exact (List.nodup_cons.mp hnodup).1 (List.mem_map.mpr ⟨(c', r'), hin, rfl⟩)
    rw [take_phase_of_ne hne]
    exact h.queued c' r' (hqueue ▸ List.mem_cons_of_mem _ hin)
  · intro j
    show (g.take c r i rest).owner j = none ↔ server.nextSessionId ≤ (j : Nat) + 1
    rw [hserver]
    exact hsession.owner_next rest h j
  · intro j
    show (server.sessions j).sessionId = (j : Nat) + 1
    rw [hsessions]
    exact h.numbered j
  · have hcounted := h.counted
    rw [hqueue, List.map_cons, mounts_cons] at hcounted
    show server.nextSessionId + mounts (rest.map Prod.snd) = n + 1
    rw [hserver]
    push_cast at hcounted
    show s.server.nextSessionId + (if r.call.isMount then 1 else 0) +
      mounts (rest.map Prod.snd) = n + 1
    omega

theorem inv_take (h : Inv n s g) (hready : s.receiver = .ready) (hs : s.take = some s') :
    ∃ g', Inv n s' g' := by
  rcases take_cases h hready hs with
    ⟨c, r, rest, i, header, server, hqueue, hheader, hwf, hsession, hserver, rfl⟩
  exact ⟨_, inv_taken h hqueue hheader hwf hsession hserver⟩

theorem inv_lock {header : Header} (h : Inv n s g) (hpos : s.receiver = .taken i header)
    (hfree : s.lock i = none) :
    Inv n { s with
      lock := Function.update s.lock i (some .receiver)
      receiver := .locked i header } g := by
  have hreceiver := h.receiver
  rw [ReceiverOk, hpos] at hreceiver
  refine { h with receiver := ⟨Function.update_self _ _ _, hreceiver⟩, worker := ?_ }
  intro j
  by_cases hne : j = i
  · subst hne
    have hworker := h.worker j
    rw [hfree] at hworker
    have hlock : Function.update s.lock j (some .receiver) j = some .receiver :=
      Function.update_self _ _ _
    simp only [hlock]
    exact hworker.relock (by simp) (by simp)
  · have hlock : Function.update s.lock i (some .receiver) j = s.lock j :=
      Function.update_of_ne hne _ _
    simp only [hlock]
    exact h.worker j

/-- The buffer of the session is filled with the bytes of the request in hand. -/
theorem fill_holds {header : Header} {r : Request} (h : Inv n s g)
    (hheader : HeaderOf i header c r) (hwf : r.call.WellFormed)
    (hpipe : s.pipe = r.call.body ++ later) :
    ∃ session : Session, session.sessionId = (i : Nat) + 1 ∧ Holds session r.bytes ∧
      s.fill i header = some { s with
        pipe := later
        server := s.server.fill i session
        receiver := .filled i } := by
  rcases hheader with ⟨hmount, rfl⟩ | ⟨hm, hsid, rfl⟩
  · have hroom : s.server.nextSessionId ≤ 64 := by
      have hcounted := h.counted
      have hbounded := h.bounded
      omega
    rcases fillMount_posts s.server i ((i : Nat) + 1) hmount hwf hroom with
      ⟨session, hid, hholds, hstep⟩
    refine ⟨session, hid, hholds, ?_⟩
    have hbody : r.call.body = padded c := by
      rw [hmount]
      rfl
    rw [fill, hpipe, hbody]
    simp only [hstep]
    rfl
  · rcases fillRequest_posts s.server i hm hwf hsid.symm with ⟨session, hid, hholds, hstep⟩
    refine ⟨session, hid.trans (h.numbered i), hholds, ?_⟩
    rw [fill, hpipe]
    simp only [hstep]
    rfl

theorem fill_cases {header : Header} {r : Request} (h : Inv n s g)
    (hheader : HeaderOf i header c r) (hwf : r.call.WellFormed)
    (hpipe : s.pipe = r.call.body ++ later) (hs : s.fill i header = some s') :
    ∃ session : Session, session.sessionId = (i : Nat) + 1 ∧ Holds session r.bytes ∧
      s' = { s with
        pipe := later
        server := s.server.fill i session
        receiver := .filled i } := by
  rcases fill_holds h hheader hwf hpipe with ⟨session, hid, hholds, hfill⟩
  rw [hfill] at hs
  exact ⟨session, hid, hholds, (Option.some.inj hs).symm⟩

/-- The request is in the buffer of the session. -/
theorem inv_filled {r : Request} {closed : Bool} {session : Session} (h : Inv n s g)
    (hlock : s.lock i = some .receiver) (hi : s.seat g i = some ⟨c, .waiting r .hand, closed⟩)
    (hid : session.sessionId = (i : Nat) + 1) (hholds : Holds session r.bytes) :
    Inv n { s with
      pipe := stream (g.queue.map Prod.snd)
      server := s.server.fill i session
      receiver := .filled i } (g.setPhase c (.waiting r .session)) := by
  rcases owner_of_seat hi with ⟨howner, hphase, -⟩
  have hworker := h.worker i
  rw [hlock, hi] at hworker
  refine ⟨?_, ?_, ?_, h.nodup, ?_, h.owner_inj, h.owner_next, ?_, h.counted, h.bounded⟩
  · refine ⟨hlock, rfl, hworker.inactive.1, c, r, _, seat_setPhase howner, ?_⟩
    rw [Server.fill_sessions, Function.update_self]
    exact hholds
  · intro j
    show WorkerOk (s.workers j) (s.lock j) (s.isActive j) ((s.server.fill i session).sessions j)
      (s.seat (g.setPhase c (.waiting r .session)) j)
    by_cases hne : j = i
    · -- the worker has not looked at the session since the request was sent
      subst hne
      rw [hlock]
      refine hworker.reseat_phase ?_ ?_ ?_
      · intro r' heq
        cases heq
      · intro answer heq
        cases heq
      · intro _ hserved
        exact absurd rfl (hserved r .hand)
    · rw [h.other_seat howner hne, Server.fill_sessions, Function.update_of_ne hne]
      exact h.worker j
  · intro c'
    by_cases hne : c' = c
    · subst hne
      have hclient := h.client c'
      rw [← hphase] at hclient
      rw [Ghost.setPhase_self]
      exact hclient.forward (by simp) fun _ hi => hi
    · rw [Ghost.setPhase_of_ne hne]
      exact h.client c'
  · intro c' r' hin
    refine h.still_queued (fun r'' heq => ?_) hin
    rw [← hphase] at heq
    cases heq
  · exact Server.Numbered.fill (fun j _ => h.numbered j) hid

theorem inv_fill {header : Header} (h : Inv n s g) (hpos : s.receiver = .locked i header)
    (hs : s.fill i header = some s') : ∃ g', Inv n s' g' := by
  have hreceiver := h.receiver
  rw [ReceiverOk, hpos] at hreceiver
  rcases hreceiver with ⟨hlock, c, r, closed, hi, hheader, hwf, hpipe⟩
  rcases fill_cases h hheader hwf hpipe hs with ⟨session, hid, hholds, rfl⟩
  exact ⟨_, inv_filled h hlock hi hid hholds⟩

theorem inv_activate (h : Inv n s g) (hpos : s.receiver = .filled i) :
    Inv n { s with isActive := Function.update s.isActive i true, receiver := .active i } g := by
  have hreceiver := h.receiver
  rw [ReceiverOk, hpos] at hreceiver
  rcases hreceiver with ⟨hlock, hpipe, -, hloaded⟩
  refine { h with receiver := ⟨hlock, hpipe⟩, worker := ?_ }
  intro j
  by_cases hne : j = i
  · subst hne
    have hworker := h.worker j
    rw [hlock] at hworker
    have hactive : Function.update s.isActive j true j = true := Function.update_self _ _ _
    simp only [hactive, hlock]
    exact hworker.activate hloaded
  · have hactive : Function.update s.isActive i true j = s.isActive j :=
      Function.update_of_ne hne _ _
    simp only [hactive]
    exact h.worker j

/-- A worker that waits may go outside, woken by the signal or not. -/
theorem inv_wake (h : Inv n s g) (hwaiting : s.workers i = .waiting) :
    Inv n { s with workers := Function.update s.workers i .outside } g := by
  refine { h with worker := ?_ }
  intro j
  by_cases hne : j = i
  · subst hne
    have hworker := h.worker j
    rw [hwaiting] at hworker
    have hpos : Function.update s.workers j .outside j = .outside := Function.update_self _ _ _
    simp only [hpos]
    exact hworker
  · have hpos : Function.update s.workers i .outside j = s.workers j :=
      Function.update_of_ne hne _ _
    simp only [hpos]
    exact h.worker j

theorem inv_signal (h : Inv n s g) (hpos : s.receiver = .active i) :
    Inv n { s with
      workers := match s.workers i with
        | .waiting => Function.update s.workers i .outside
        | _ => s.workers
      receiver := .leaving i } g := by
  have hreceiver := h.receiver
  rw [ReceiverOk, hpos] at hreceiver
  have hleaving : Inv n { s with receiver := .leaving i } g := { h with receiver := hreceiver }
  split
  · exact inv_wake hleaving ‹_›
  · exact hleaving

theorem inv_unlock (h : Inv n s g) (hpos : s.receiver = .leaving i) :
    Inv n { s with lock := Function.update s.lock i none, receiver := .ready } g := by
  have hreceiver := h.receiver
  rw [ReceiverOk, hpos] at hreceiver
  refine { h with receiver := hreceiver.2, worker := ?_ }
  intro j
  by_cases hne : j = i
  · subst hne
    have hworker := h.worker j
    rw [hreceiver.1] at hworker
    have hlock : Function.update s.lock j none j = none := Function.update_self _ _ _
    simp only [hlock]
    exact hworker.relock (by simp) (by simp)
  · have hlock : Function.update s.lock i none j = s.lock j := Function.update_of_ne hne _ _
    simp only [hlock]
    exact h.worker j

theorem inv_receiverStep (h : Inv n s g) (hs : s.receiverStep = some s') : ∃ g', Inv n s' g' := by
  unfold receiverStep at hs
  split at hs
  · exact inv_take h ‹_› hs
  · split at hs
    · cases hs
      exact ⟨g, inv_lock h ‹_› ‹_›⟩
    · cases hs
  · exact inv_fill h ‹_› hs
  · cases hs
    exact ⟨g, inv_activate h ‹_›⟩
  · cases hs
    exact ⟨g, inv_signal h ‹_›⟩
  · cases hs
    exact ⟨g, inv_unlock h ‹_›⟩

/-! ## The workers -/

/-- A worker goes to another position, and may take or release the lock of its session. -/
theorem Inv.move {pos : WorkerPos} {lock : Option Holder} (h : Inv n s g)
    (hlock : s.lock i ≠ some .receiver ∨ lock = some .receiver)
    (hworker : WorkerOk pos lock (s.isActive i) (s.server.sessions i) (s.seat g i)) :
    Inv n { s with
      lock := Function.update s.lock i lock
      workers := Function.update s.workers i pos } g := by
  refine { h with receiver := ?_, worker := ?_ }
  · refine h.receiver.still rfl rfl ?_ (fun _ _ _ _ _ => rfl) (fun _ _ _ _ _ _ => rfl)
    intro j hj
    refine ⟨?_, rfl, rfl⟩
    by_cases hne : j = i
    · subst hne
      rcases hlock with hnot | hreceiver
      · exact absurd hj hnot
      · exact (Function.update_self _ _ _).trans hreceiver
    · exact (Function.update_of_ne hne _ _).trans hj
  · intro j
    by_cases hne : j = i
    · subst hne
      have hpos : Function.update s.workers j pos j = pos := Function.update_self _ _ _
      have hlock' : Function.update s.lock j lock j = lock := Function.update_self _ _ _
      simp only [hpos, hlock']
      exact hworker
    · have hpos : Function.update s.workers i pos j = s.workers j := Function.update_of_ne hne _ _
      have hlock' : Function.update s.lock i lock j = s.lock j := Function.update_of_ne hne _ _
      simp only [hpos, hlock']
      exact h.worker j

/-- A worker goes to another position and keeps the lock as it is. -/
theorem Inv.stay {pos : WorkerPos} (h : Inv n s g) (hlock : s.lock i ≠ some .receiver)
    (hworker : WorkerOk pos (s.lock i) (s.isActive i) (s.server.sessions i) (s.seat g i)) :
    Inv n { s with workers := Function.update s.workers i pos } g := by
  have hmove := h.move (Or.inl hlock) hworker
  rw [Function.update_eq_self] at hmove
  exact hmove

/-- The file system and the flags of the server are nothing to the hand-off. -/
theorem Inv.others (h : Inv n s g) (fs : FS) (shutdownCalled exited : Bool) :
    Inv n { s with fs := fs, shutdownCalled := shutdownCalled, exited := exited } g :=
  ⟨h.receiver, h.worker, h.client, h.nodup, h.queued, h.owner_inj, h.owner_next, h.numbered,
    h.counted, h.bounded⟩

/-- A worker in these positions holds the lock. -/
theorem Inv.holds_lock {pos : WorkerPos} (h : Inv n s g) (hpos : s.workers i = pos)
    (hold : pos.Holding) : s.lock i = some .worker :=
  (h.worker i).1.mp (hpos ▸ hold)

theorem handledOf_snoc (entry : Handled) (rest : List Handled) :
    (rest ++ [entry]).filter (fun h => h.client = c) =
      if entry.client = c then rest.filter (fun h => h.client = c) ++ [entry]
      else rest.filter (fun h => h.client = c) := by
  rw [List.filter_append]
  by_cases hc : entry.client = c
  · rw [if_pos hc, List.filter_singleton, decide_eq_true hc]
    rfl
  · rw [if_neg hc, List.filter_singleton, decide_eq_false hc]
    exact List.append_nil _

/-- The request in the session is handled. -/
theorem ClientOk.handle {client : Client} {handled : List Handled} {replies : List Answer}
    {r : Request} {owned : Prop} {home home' : Fin maxClients → Prop} {entry : Handled}
    (h : ClientOk c client handled replies (.waiting r .session) owned home)
    (hentry : Matches entry r) (hhome : ∀ i, home i → home' i)
    (hmount : r.call.isMount = true → ∃ i : Fin maxClients, home' i ∧
      entry.answer = [intBytes sizeofInt ((i : Nat) + 1)]) :
    ClientOk c client (handled ++ [entry]) replies (.answered entry.answer) owned home' := by
  rcases h.history with ⟨hreplies, done, hdone, hmatches, hanswers⟩
  have hgot : List.Forall₂ Matches (handled ++ [entry]) client.sent := by
    rw [hdone]
    exact List.rel_append hmatches (List.Forall₂.cons hentry List.Forall₂.nil)
  refine ⟨⟨hreplies, hgot, ?_⟩, ?_, ?_, ?_, ?_, ?_, ?_, h.fresh⟩
  · rw [List.map_append]
    exact congrArg (· ++ [entry.answer]) hanswers
  · intro heq
    cases heq
  · intro r' place heq
    cases heq
  · intro answer heq
    have hsame : answer = entry.answer := by
      rcases heq with heq | heq <;> cases heq
      rfl
    subst hsame
    refine ⟨r.call, h.calling r .session rfl, hmount, ?_⟩
    intro hm
    rcases (h.request r .session rfl).2.2 with hcall | ⟨-, hreceived, -⟩
    · rw [hcall] at hm
      cases hm
    · exact hreceived
  · intro r' place heq
    cases heq
  · intro r' heq
    cases heq
  · intro hreceived
    rcases h.known hreceived with ⟨i, hi, hid⟩
    exact ⟨i, hhome i hi, hid⟩

/-- The request of the client of the session is handled, and its answer goes to the client. -/
theorem Inv.answer {r : Request} {closed : Bool} (h : Inv n s g) (answer : Answer)
    (after : After) (hlock : s.lock i = some .worker)
    (hi : s.seat g i = some ⟨c, .waiting r .session, closed⟩)
    (hholds : Holds (s.server.sessions i) r.bytes)
    (hmount : r.call.isMount = true → answer = [intBytes sizeofInt ((i : Nat) + 1)])
    (hfinish : after = .finish → closed = true) :
    Inv n ({ s with tx := Function.update s.tx i (some c) }.answer i c r.call answer after)
      (g.setPhase c (.answered answer)) := by
  rcases owner_of_seat hi with ⟨howner, hphase, hclosed⟩
  have hnot : ∀ r' place, place ≠ .session → g.phase c ≠ .waiting r' place := by
    intro r' place hplace heq
    rw [← hphase] at heq
    cases heq
    exact hplace rfl
  refine ⟨?_, ?_, ?_, h.nodup, ?_, h.owner_inj, h.owner_next, h.numbered, h.counted, h.bounded⟩
  · refine h.receiver.still rfl rfl (fun _ hj => ⟨hj, rfl, rfl⟩) ?_ ?_
    · intro j c' r' closed' hj
      refine h.other_seat howner ?_
      rintro rfl
      exact ne_of_seat hj (hnot r' .hand (by simp)) howner
    · intro j c' r' closed' hreceiver _
      refine h.other_seat howner ?_
      rintro rfl
      rw [hlock] at hreceiver
      cases hreceiver
  · intro j
    show WorkerOk (Function.update s.workers i (.replying c answer after) j) (s.lock j)
      (s.isActive j) (s.server.sessions j) (s.seat (g.setPhase c (.answered answer)) j)
    by_cases hne : j = i
    · subst hne
      rw [Function.update_self]
      refine ⟨iff_of_true trivial hlock, closed, ?_, hfinish⟩
      rw [seat_setPhase howner, hclosed]
    · rw [Function.update_of_ne hne, h.other_seat howner hne]
      exact h.worker j
  · intro c'
    show ClientOk c' (s.clients c')
      ((s.handled ++ [Handled.mk c (s.server.sessions i) r.call answer]).filter
        fun h => h.client = c')
      (s.replies c') ((g.setPhase c (.answered answer)).phase c') (∃ j, g.owner j = some c')
      (fun j => g.owner j = some c' ∧ Function.update s.tx i (some c) j = some c')
    -- session `i` answers on the pipe of its owner
    have hhome : ∀ j, g.owner j = some c' ∧ s.tx j = some c' →
        g.owner j = some c' ∧ Function.update s.tx i (some c) j = some c' := by
      rintro j ⟨hj, htx⟩
      refine ⟨hj, ?_⟩
      by_cases hne : j = i
      · subst hne
        rw [howner] at hj
        rw [Function.update_self, hj]
      · rw [Function.update_of_ne hne, htx]
    by_cases hne : c' = c
    · subst hne
      have hclient := h.client c'
      rw [← hphase] at hclient
      rw [handledOf_snoc, if_pos rfl, Ghost.setPhase_self]
      exact hclient.handle ⟨hholds, rfl⟩ hhome fun hm =>
        ⟨i, ⟨howner, Function.update_self _ _ _⟩, hmount hm⟩
    · rw [handledOf_snoc, if_neg (fun heq => hne heq.symm), Ghost.setPhase_of_ne hne]
      exact (h.client c').mono (fun ho => ho) hhome
  · intro c' r' hin
    exact h.still_queued (fun r'' => hnot r'' .queue (by simp)) hin

/-- The answer goes to the pipe of the client. -/
theorem ClientOk.reply {client : Client} {handled : List Handled} {replies : List Answer}
    {answer : Answer} {owned : Prop} {home : Fin maxClients → Prop}
    (h : ClientOk c client handled replies (.answered answer) owned home) :
    ClientOk c client handled (replies ++ [answer]) (.replied answer) owned home := by
  rcases h.history with ⟨rfl, hmatches, hanswers⟩
  refine ⟨⟨rfl, hmatches, hanswers⟩, ?_, ?_, ?_, ?_, ?_, h.known, h.fresh⟩
  · intro heq
    cases heq
  · intro r place heq
    cases heq
  · intro answer' heq
    have hsame : answer' = answer := by
      rcases heq with heq | heq <;> cases heq
      rfl
    subst hsame
    exact h.answer answer' (Or.inl rfl)
  · intro r place heq
    cases heq
  · intro r heq
    cases heq

/-- The answer is written to the pipe of the client. -/
theorem inv_reply {answer : Answer} {after : After} (h : Inv n s g)
    (hpos : s.workers i = .replying c answer after) :
    Inv n { s with
      replies := Function.update s.replies c (s.replies c ++ [answer])
      workers := Function.update s.workers i (.replied after) }
      (g.setPhase c (.replied answer)) := by
  have hlock := h.holds_lock hpos trivial
  have hworker := h.worker i
  rw [hpos] at hworker
  rcases hworker.2 with ⟨closed, hi, hfinish⟩
  rcases owner_of_seat hi with ⟨howner, hphase, hclosed⟩
  refine ⟨?_, ?_, ?_, h.nodup, ?_, h.owner_inj, h.owner_next, h.numbered, h.counted, h.bounded⟩
  · refine h.receiver.still rfl rfl (fun _ hj => ⟨hj, rfl, rfl⟩) ?_ ?_
    · intro j c' r' closed' hj
      refine h.other_seat howner ?_
      rintro rfl
      rw [hi] at hj
      cases hj
    · intro j c' r' closed' hreceiver _
      refine h.other_seat howner ?_
      rintro rfl
      rw [hlock] at hreceiver
      cases hreceiver
  · intro j
    show WorkerOk (Function.update s.workers i (.replied after) j) (s.lock j) (s.isActive j)
      (s.server.sessions j) (s.seat (g.setPhase c (.replied answer)) j)
    by_cases hne : j = i
    · subst hne
      rw [Function.update_self]
      refine ⟨iff_of_true trivial hlock, ?_⟩
      intro hafter
      rw [seat_setPhase howner]
      -- the worker ends after the answer to a client that has said its last
      refine retired_iff.mpr ⟨hclosed.symm.trans (hfinish hafter), ?_⟩
      intro r place heq
      cases heq
    · rw [Function.update_of_ne hne, h.other_seat howner hne]
      exact h.worker j
  · intro c'
    show ClientOk c' (s.clients c') (s.handledOf c')
      (Function.update s.replies c (s.replies c ++ [answer]) c')
      ((g.setPhase c (.replied answer)).phase c') (∃ j, g.owner j = some c')
      (fun j => g.owner j = some c' ∧ s.tx j = some c')
    by_cases hne : c' = c
    · subst hne
      have hclient := h.client c'
      rw [← hphase] at hclient
      rw [Ghost.setPhase_self, Function.update_self]
      exact hclient.reply
    · rw [Ghost.setPhase_of_ne hne, Function.update_of_ne hne]
      exact h.client c'
  · intro c' r' hin
    refine h.still_queued (fun r'' heq => ?_) hin
    rw [← hphase] at heq
    cases heq

/-- The worker takes the flag down and clears the buffer. -/
theorem inv_clear {after : After} (h : Inv n s g) (hpos : s.workers i = .replied after) :
    Inv n { s with
      isActive := Function.update s.isActive i false
      server := s.clearBuffer i
      workers := Function.update s.workers i .cleared } g := by
  have hlock := h.holds_lock hpos trivial
  have hsessions : ∀ j, j ≠ i → (s.clearBuffer i).sessions j = s.server.sessions j := fun j hne =>
    Function.update_of_ne hne _ _
  refine { h with receiver := ?_, worker := ?_, numbered := ?_ }
  · refine h.receiver.still rfl rfl ?_ (fun _ _ _ _ _ => rfl) (fun _ _ _ _ _ _ => rfl)
    intro j hj
    have hne : j ≠ i := by
      rintro rfl
      rw [hlock] at hj
      cases hj
    exact ⟨hj, Function.update_of_ne hne _ _, hsessions j hne⟩
  · intro j
    show WorkerOk (Function.update s.workers i .cleared j) (s.lock j)
      (Function.update s.isActive i false j) ((s.clearBuffer i).sessions j) (s.seat g j)
    by_cases hne : j = i
    · subst hne
      rw [Function.update_self, Function.update_self]
      exact ⟨iff_of_true trivial hlock, rfl⟩
    · rw [Function.update_of_ne hne, Function.update_of_ne hne, hsessions j hne]
      exact h.worker j
  · exact Server.Numbered.fill (fun j _ => h.numbered j) (h.numbered i)

/-- The worker of a session has handled the request of its client, and is about to answer. -/
def Answers (s : Hub) (g : Ghost) (i : Fin maxClients) (s' : Hub) (g' : Ghost) : Prop :=
  ∃ c r answer after, g.owner i = some c ∧ g.phase c = .waiting r .session ∧
    g' = g.setPhase c (.answered answer) ∧ s'.receiver = s.receiver ∧ s'.isActive = s.isActive ∧
    s'.workers = Function.update s.workers i (.replying c answer after)

/-- A client that has mounted is the one its session answers. -/
theorem Inv.tx_owner {r : Request} {place : Place} (h : Inv n s g) (howner : g.owner i = some c)
    (hphase : g.phase c = .waiting r place) (hm : r.call.isMount = false) : s.tx i = some c := by
  have hclient := h.client c
  rcases (hclient.request r place hphase).2.2 with hmount | ⟨-, hreceived, -⟩
  · rw [hmount] at hm
    cases hm
  · rcases hclient.known hreceived with ⟨j, ⟨hj, htx⟩, -⟩
    rw [h.owner_inj i j c howner hj]
    exact htx

/-- The answer to a call that is no mount goes to the client of the session. -/
theorem Inv.reply {r : Request} {closed : Bool} (h : Inv n s g) (answer : Answer)
    (after : After) (hlock : s.lock i = some .worker)
    (hi : s.seat g i = some ⟨c, .waiting r .session, closed⟩)
    (hholds : Holds (s.server.sessions i) r.bytes) (hm : r.call.isMount = false)
    (hfinish : after = .finish → closed = true) (fs : FS) (shutdownCalled exited : Bool) :
    ∃ g', Inv n { s.answer i c r.call answer after with
        fs := fs, shutdownCalled := shutdownCalled, exited := exited } g' ∧
      s.Answers g i { s.answer i c r.call answer after with
        fs := fs, shutdownCalled := shutdownCalled, exited := exited } g' := by
  rcases owner_of_seat hi with ⟨howner, hphase, -⟩
  have hinv := h.answer answer after hlock hi hholds
    (fun hmount => absurd (hm.symm.trans hmount) (by decide)) hfinish
  rw [← h.tx_owner howner hphase.symm hm, Function.update_eq_self] at hinv
  exact ⟨_, hinv.others fs shutdownCalled exited, c, r, _, _, howner, hphase.symm, rfl, rfl, rfl,
    rfl⟩

theorem inv_executeCall {sys : System} {r : Request} {closed : Bool} (h : Inv n s g)
    (hlock : s.lock i = some .worker)
    (hi : s.seat g i = some ⟨c, .waiting r .session, closed⟩)
    (hholds : Holds (s.server.sessions i) r.bytes) (hm : r.call.isMount = false)
    (hs : s.executeCall sys i r.call = some s') : ∃ g', Inv n s' g' ∧ s.Answers g i s' g' := by
  rcases owner_of_seat hi with ⟨howner, hphase, -⟩
  simp only [executeCall, h.tx_owner howner hphase.symm hm] at hs
  split at hs
  · cases hs
  · rename_i reply backend' hreply
    rw [← Option.some.inj hs]
    refine h.reply reply.chunks _ hlock hi hholds hm ?_ backend'.fs s.shutdownCalled s.exited
    exact fun hafter => by split at hafter <;> cases hafter

/-- Copying and executing a request: what was sent is what is executed, and the answer goes
to the client that sent it. An open only checks the flag at first, and the first shutdown has to
wait. -/
theorem inv_execute {sys : System} (h : Inv n s g) (hpos : s.workers i = .executing)
    (hs : s.execute sys i = some s') : ∃ g', Inv n s' g' ∧ (s.Answers g i s' g' ∨
      g' = g ∧ s'.receiver = s.receiver ∧ s'.isActive = s.isActive ∧
        ∃ pos, (pos = .opening ∨ pos = .closing) ∧
          s'.workers = Function.update s.workers i pos) := by
  have hlock := h.holds_lock hpos trivial
  have hworker := h.worker i
  rw [hpos] at hworker
  rcases hworker.2 with ⟨c, r, closed, hi, hholds⟩
  rcases owner_of_seat hi with ⟨howner, hphase, hclosed⟩
  have hclient := h.client c
  rcases hclient.request r .session hphase.symm with ⟨hwf, hlast, hkind⟩
  have hcall : threadHandler (s.server.sessions i) = some r.call :=
    threadHandler_of_holds hwf hholds
  have hother : r.call.isMount = false → s.executeCall sys i r.call = some s' →
      ∃ g', Inv n s' g' ∧ s.Answers g i s' g' := inv_executeCall h hlock hi hholds
  unfold execute at hs
  rw [hcall] at hs
  cases hr : r.call with
  | mount path =>
      rw [hr] at hs
      have hpath : path = c := by
        rcases hkind with hmount | ⟨hm, -⟩
        · rw [hr] at hmount
          exact ApiCall.mount.inj hmount
        · rw [hr] at hm
          cases hm
      subst hpath
      have hinv := h.answer [intBytes sizeofInt (s.server.sessions i).sessionId] .next hlock hi
        hholds (fun _ => congrArg (fun id => [intBytes sizeofInt id]) (h.numbered i))
        (fun hafter => by cases hafter)
      rw [← Option.some.inj hs, ← hr]
      exact ⟨_, hinv, Or.inl ⟨_, r, _, _, howner, hphase.symm, rfl, rfl, rfl, rfl⟩⟩
  | shutdown =>
      rw [hr] at hs
      have hm : r.call.isMount = false := by
        rw [hr]
        rfl
      simp only [h.tx_owner howner hphase.symm hm] at hs
      split at hs
      · have hlastCall : closed = true := by
          rw [hclosed]
          exact hlast (by rw [hr]; rfl)
        have hreply := h.reply [failureCode] .finish hlock hi hholds hm (fun _ => hlastCall) s.fs
          s.shutdownCalled s.exited
        rw [← Option.some.inj hs, ← hr]
        exact hreply.imp fun _ hinv => ⟨hinv.1, Or.inl hinv.2⟩
      · have hclosing : Inv n { s with workers := Function.update s.workers i .closing } g := by
          refine h.stay (by rw [hlock]; simp) ?_
          exact ⟨iff_of_true trivial hlock, c, r, closed, hi, hr, hholds⟩
        rw [← Option.some.inj hs]
        exact ⟨g, hclosing.others s.fs true s.exited,
          Or.inr ⟨rfl, rfl, rfl, _, Or.inr rfl, rfl⟩⟩
  | unmount =>
      have hm : r.call.isMount = false := by
        rw [hr]
        rfl
      rw [hr] at hs hother
      exact (hother rfl hs).imp fun _ hinv => ⟨hinv.1, Or.inl hinv.2⟩
  | «open» name flags =>
      rw [hr] at hs hother
      dsimp only at hs
      split at hs
      · exact (hother rfl hs).imp fun _ hinv => ⟨hinv.1, Or.inl hinv.2⟩
      · have hopening : Inv n { s with workers := Function.update s.workers i .opening } g := by
          refine h.stay (by rw [hlock]; simp) ?_
          exact ⟨iff_of_true trivial hlock, c, r, closed, hi, ⟨name, flags, hr⟩, hholds⟩
        rw [← Option.some.inj hs]
        exact ⟨g, hopening, Or.inr ⟨rfl, rfl, rfl, _, Or.inl rfl, rfl⟩⟩
  | close fhandle =>
      rw [hr] at hs hother
      exact (hother rfl hs).imp fun _ hinv => ⟨hinv.1, Or.inl hinv.2⟩
  | write fhandle buffer =>
      rw [hr] at hs hother
      exact (hother rfl hs).imp fun _ hinv => ⟨hinv.1, Or.inl hinv.2⟩
  | read fhandle len =>
      rw [hr] at hs hother
      exact (hother rfl hs).imp fun _ hinv => ⟨hinv.1, Or.inl hinv.2⟩

/-- An open past the check of the flag answers. -/
theorem inv_openPast (h : Inv n s g) (hpos : s.workers i = .opening)
    (hs : s.openPast i = some s') : ∃ g', Inv n s' g' ∧ s.Answers g i s' g' := by
  have hlock := h.holds_lock hpos trivial
  have hworker := h.worker i
  rw [hpos] at hworker
  rcases hworker.2 with ⟨c, r, closed, hi, ⟨name, flags, hr⟩, hholds⟩
  rcases owner_of_seat hi with ⟨howner, hphase, -⟩
  have hm : r.call.isMount = false := by
    rw [hr]
    rfl
  have hwf := ((h.client c).request r .session hphase.symm).1
  have hcall := threadHandler_of_holds hwf hholds
  rw [hr] at hcall
  simp only [openPast, h.tx_owner howner hphase.symm hm, hcall] at hs
  have hreply := h.reply [intBytes sizeofInt (openInBuffer s.fs name flags).1] .next hlock hi
    hholds hm (fun hafter => by cases hafter) (openInBuffer s.fs name flags).2 s.shutdownCalled
    s.exited
  rw [hr] at hreply
  rw [← Option.some.inj hs]
  exact hreply

/-- The first shutdown answers once no file is open. -/
theorem inv_close (h : Inv n s g) (hpos : s.workers i = .closing) (hs : s.close i = some s') :
    ∃ g', Inv n s' g' ∧ s.Answers g i s' g' := by
  have hlock := h.holds_lock hpos trivial
  have hworker := h.worker i
  rw [hpos] at hworker
  rcases hworker.2 with ⟨c, r, closed, hi, hr, hholds⟩
  rcases owner_of_seat hi with ⟨howner, hphase, -⟩
  have hm : r.call.isMount = false := by
    rw [hr]
    rfl
  simp only [close, h.tx_owner howner hphase.symm hm] at hs
  split at hs
  · cases hs
  · rename_i reply backend' _
    have hreply := h.reply reply.chunks .exit hlock hi hholds hm (fun hafter => by cases hafter)
      backend'.fs s.shutdownCalled s.exited
    rw [hr] at hreply
    rw [← Option.some.inj hs]
    exact hreply

/-- The worker takes the lock of its session. -/
theorem inv_enter (h : Inv n s g) (hpos : s.workers i = .outside) (hfree : s.lock i = none) :
    Inv n { s with
      lock := Function.update s.lock i (some .worker)
      workers := Function.update s.workers i .checking } g := by
  have hworker := h.worker i
  rw [hpos] at hworker
  refine h.move (Or.inl (by rw [hfree]; simp)) ⟨?_, hworker.2⟩
  exact iff_of_true trivial rfl

/-- The worker finds the flag up. -/
theorem inv_see (h : Inv n s g) (hpos : s.workers i = .checking) (hactive : s.isActive i = true) :
    Inv n { s with workers := Function.update s.workers i .executing } g := by
  have hlock := h.holds_lock hpos trivial
  have hworker := h.worker i
  rw [hpos] at hworker
  refine h.stay (by rw [hlock]; simp) ⟨?_, hworker.2 hactive⟩
  exact iff_of_true trivial hlock

/-- The worker finds the flag down, and waits. -/
theorem inv_wait (h : Inv n s g) (hpos : s.workers i = .checking)
    (hactive : ¬ s.isActive i = true) :
    Inv n { s with
      lock := Function.update s.lock i none
      workers := Function.update s.workers i .waiting } g := by
  have hlock := h.holds_lock hpos trivial
  refine h.move (Or.inl (by rw [hlock]; simp)) ⟨?_, fun ha => absurd ha hactive⟩
  exact iff_of_false id (by simp)

/-- The worker of a refused shutdown leaves its loop. -/
theorem inv_end (h : Inv n s g) (hpos : s.workers i = .replied .finish) :
    Inv n { s with
      lock := Function.update s.lock i none
      workers := Function.update s.workers i .ended } g := by
  have hlock := h.holds_lock hpos trivial
  have hworker := h.worker i
  rw [hpos] at hworker
  refine h.move (Or.inl (by rw [hlock]; simp)) ⟨?_, hworker.2 rfl⟩
  exact iff_of_false id (by simp)

/-- The worker releases the lock of its session. -/
theorem inv_leave (h : Inv n s g) (hpos : s.workers i = .cleared) :
    Inv n { s with
      lock := Function.update s.lock i none
      workers := Function.update s.workers i .outside } g := by
  have hlock := h.holds_lock hpos trivial
  have hworker := h.worker i
  rw [hpos] at hworker
  refine h.move (Or.inl (by rw [hlock]; simp)) ⟨?_, fun ha => ?_⟩
  · exact iff_of_false id (by simp)
  · rw [hworker.2] at ha
    cases ha

theorem inv_workerStep {sys : System} (h : Inv n s g) (hs : s.workerStep sys i = some s') :
    ∃ g', Inv n s' g' := by
  unfold workerStep at hs
  split at hs
  · split at hs
    · cases hs
      exact ⟨g, inv_enter h ‹_› ‹_›⟩
    · cases hs
  · split at hs
    · cases hs
      exact ⟨g, inv_see h ‹_› ‹_›⟩
    · cases hs
      exact ⟨g, inv_wait h ‹_› ‹_›⟩
  · cases hs
    exact ⟨g, inv_wake h ‹_›⟩
  · exact (inv_execute h ‹_› hs).imp fun _ => And.left
  · exact (inv_openPast h ‹_› hs).imp fun _ => And.left
  · exact (inv_close h ‹_› hs).imp fun _ => And.left
  · rename_i c answer after hpos
    cases hs
    exact ⟨_, (inv_reply h hpos).others s.fs s.shutdownCalled (s.exited || after == .exit)⟩
  · cases hs
    exact ⟨g, inv_clear h ‹_›⟩
  · cases hs
    exact ⟨g, inv_end h ‹_›⟩
  · cases hs
  · cases hs
    exact ⟨g, inv_leave h ‹_›⟩
  · cases hs

end Hub

end TecnicoFS.Part2
