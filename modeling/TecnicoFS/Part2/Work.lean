import TecnicoFS.Part2.Handoff
import TecnicoFS.Part2.Conversation
import Mathlib.Algebra.BigOperators.Group.Finset.Basic
import Mathlib.Data.Fintype.BigOperators

/-!
# Part 2: how much work the server has

Neither the receive loop nor a worker spins: every step of the server uses up some of the work
that the bytes on its pipe stand for. A worker that wakes up without a signal goes round its wait
loop once more, and no other step adds work; so the number of steps is bounded by the bytes sent
and the wake-ups, whatever calls the clients make and in whatever order the steps are taken
(`server_steps_bounded`).

Clients send whole requests and keep the pipe of the server open: at its end `read_buffer` does
spin. Where the source goes on out of bounds the server stands still here: the receiver at a 65th
mount and at a write that its buffer does not hold, a worker at a request to a session that no
client has mounted.
-/

namespace TecnicoFS.Part2

namespace Hub

variable {sys : System} {s s' : Hub} {i : Fin maxClients}

/-! ## The work that is left -/

/-- The steps of a worker before it waits for the next request. -/
def workerWork : WorkerPos → Nat
  | .waiting => 0
  | .ended => 0
  | .checking => 1
  | .outside => 2
  | .cleared => 3
  | .replied _ => 4
  | .replying _ _ _ => 5
  | .opening => 6
  | .closing => 6
  | .executing => 7

/-- The worker comes to look at its flag before anything takes it down. -/
def looks : WorkerPos → Bool
  | .outside => true
  | .checking => true
  | .waiting => true
  | .cleared => true
  | _ => false

/-- The work that a session is for its worker: a flag that is up is one more request. -/
def sessionWork (pos : WorkerPos) (active : Bool) : Nat :=
  workerWork pos + if active && looks pos then 7 else 0

/-- The work of the receiver, and what it leaves to the worker. -/
def receiverWork : ReceiverPos → Nat
  | .ready => 0
  | .leaving _ => 1
  | .active _ => 4
  | .filled _ => 12
  | .locked _ _ => 13
  | .taken _ _ => 14

/-- The work of the server. -/
def work (s : Hub) : Nat :=
  15 * s.pipe.length + receiverWork s.receiver +
    ∑ i, sessionWork (s.workers i) (s.isActive i)

/-- A step of the server counts. -/
def serverStep : Hub → Action → Nat
  | _, .receive => 1
  | _, .work _ => 1
  | _, _ => 0

/-- What a step may add: the bytes that are sent, and the round of a worker that wakes up without
a signal. -/
def allowance (s : Hub) : Action → Nat
  | .send c call => 15 * (Request.mk (s.clients c).sessionId call).bytes.length
  | .work i => match s.workers i with
      | .waiting => 3
      | _ => 0
  | _ => 0

theorem sessionWork_of_looks {pos : WorkerPos} {active : Bool} (h : looks pos = true) :
    sessionWork pos active = workerWork pos + if active then 7 else 0 := by
  simp [sessionWork, h]

theorem sessionWork_of_not_looks {pos : WorkerPos} {active : Bool} (h : looks pos = false) :
    sessionWork pos active = workerWork pos := by
  simp [sessionWork, h]

/-! ## The receiver -/

theorem sessionWork_raise (pos : WorkerPos) (active : Bool) :
    sessionWork pos true ≤ sessionWork pos active + 7 := by
  unfold sessionWork
  split
  · omega
  · omega

/-- A change of one session changes one term. -/
theorem sum_change (f f' : Fin maxClients → Nat) (h : ∀ j, j ≠ i → f' j = f j) :
    ∑ j, f' j + f i = ∑ j, f j + f' i := by
  have hrest : ∑ j ∈ Finset.univ.erase i, f' j = ∑ j ∈ Finset.univ.erase i, f j :=
    Finset.sum_congr rfl fun j hj => h j (Finset.ne_of_mem_erase hj)
  have hf := Finset.add_sum_erase Finset.univ f (Finset.mem_univ i)
  have hf' := Finset.add_sum_erase Finset.univ f' (Finset.mem_univ i)
  omega

/-- Taking a request off the pipe takes at least its operation code. -/
theorem take_pipe (hs : s.take = some s') : s'.pipe.length + 1 ≤ s.pipe.length ∧
    (s'.receiver = s.receiver ∨ ∃ j header, s'.receiver = .taken j header) ∧
    s'.workers = s.workers ∧ s'.isActive = s.isActive := by
  unfold take at hs
  split at hs
  · cases hs
  · rename_i opCode rest hpipe
    have hlength : s.pipe.length = rest.length + 1 := by rw [hpipe, List.length_cons]
    split at hs
    · split at hs
      · cases hs
      · cases hs
        exact ⟨hlength.ge, Or.inr ⟨_, _, rfl⟩, rfl, rfl⟩
    · split at hs
      · cases hs
      · rename_i idBytes rest1 hread
        have hle := (readBytes_length hread).2
        split at hs
        · cases hs
          exact ⟨by simp only; omega, Or.inl rfl, rfl, rfl⟩
        · cases hs
          exact ⟨by simp only; omega, Or.inr ⟨_, _, rfl⟩, rfl, rfl⟩

theorem fill_pipe {header : Header} (hs : s.fill i header = some s') :
    s'.pipe.length ≤ s.pipe.length ∧
    (s'.receiver = .leaving i ∨ s'.receiver = .filled i) ∧ s'.workers = s.workers ∧
    s'.isActive = s.isActive := by
  unfold fill at hs
  simp only at hs
  split at hs
  · rename_i es server rest hfilled
    cases hs
    refine ⟨?_, ?_, rfl, rfl⟩
    · cases header with
      | mount sessionId => exact fillMount_progress hfilled
      | request opCode sessionId => exact fillRequest_progress hfilled
    · simp only
      split
      · exact Or.inl rfl
      · exact Or.inr rfl
  · cases hs

/-- Every step of the receiver is some of its work. -/
theorem receiverStep_work (hs : s.receiverStep = some s') : s'.work + 1 ≤ s.work := by
  unfold receiverStep at hs
  split at hs
  · rename_i hready
    obtain ⟨hpipe, hreceiver, hworkers, hactive⟩ := take_pipe hs
    simp only [work, hready, hworkers, hactive]
    obtain hreceiver | ⟨j, header, hreceiver⟩ := hreceiver
    · simp only [hreceiver, hready, receiverWork]
      omega
    · simp only [hreceiver, receiverWork]
      omega
  · rename_i hpos
    split at hs
    · cases hs
      simp only [work, hpos, receiverWork]
      omega
    · cases hs
  · rename_i hpos
    obtain ⟨hpipe, hreceiver, hworkers, hactive⟩ := fill_pipe hs
    simp only [work, hpos, hworkers, hactive]
    obtain hreceiver | hreceiver := hreceiver
    · simp only [hreceiver, receiverWork]
      omega
    · simp only [hreceiver, receiverWork]
      omega
  · rename_i j hpos
    cases hs
    simp only [work, hpos, receiverWork]
    -- the raised flag is a request for the worker
    have hsum := sum_change (fun k => sessionWork (s.workers k) (s.isActive k))
      (fun k => sessionWork (s.workers k) (Function.update s.isActive j true k))
      fun k (hk : k ≠ j) => by rw [Function.update_of_ne hk]
    have hraise := sessionWork_raise (s.workers j) (s.isActive j)
    simp only [Function.update_self] at hsum
    omega
  · rename_i j hpos
    cases hs
    simp only [work, hpos, receiverWork]
    have hsum := sum_change (fun k => sessionWork (s.workers k) (s.isActive k))
      (fun k => sessionWork (Function.update s.workers j .outside k) (s.isActive k))
      fun k (hk : k ≠ j) => by rw [Function.update_of_ne hk]
    have hwoken : sessionWork .outside (s.isActive j) =
        sessionWork .waiting (s.isActive j) + 2 := by
      rw [sessionWork_of_looks rfl, sessionWork_of_looks rfl]
      simp only [workerWork]
      omega
    cases hworker : s.workers j
    case waiting =>
      simp only [Function.update_self, hworker, hwoken] at hsum
      simp only
      omega
    all_goals
      simp only
      omega
  · rename_i j hpos
    cases hs
    simp only [work, hpos, receiverWork]
    omega

/-! ## The workers -/

/-- The step of a worker changes its own session and the pipes of the clients. -/
structure OwnStep (s : Hub) (i : Fin maxClients) (s' : Hub) (pos : WorkerPos) (active : Bool) :
    Prop where
  pipe : s'.pipe = s.pipe
  receiver : s'.receiver = s.receiver
  workers : s'.workers = Function.update s.workers i pos
  isActive : s'.isActive = Function.update s.isActive i active

theorem OwnStep.work {pos : WorkerPos} {active : Bool} (h : OwnStep s i s' pos active) :
    s'.work + sessionWork (s.workers i) (s.isActive i) = s.work + sessionWork pos active := by
  have hsum := sum_change (fun k => sessionWork (s.workers k) (s.isActive k))
    (fun k => sessionWork (s'.workers k) (s'.isActive k)) fun k (hk : k ≠ i) => by
      rw [h.workers, h.isActive, Function.update_of_ne hk, Function.update_of_ne hk]
  simp only [h.workers, h.isActive, Function.update_self] at hsum
  simp only [Hub.work, h.pipe, h.receiver, h.workers, h.isActive]
  omega

/-- The worker goes to another position. -/
theorem OwnStep.move {pos : WorkerPos} (hpipe : s'.pipe = s.pipe)
    (hreceiver : s'.receiver = s.receiver) (hactive : s'.isActive = s.isActive)
    (hworkers : s'.workers = Function.update s.workers i pos) :
    OwnStep s i s' pos (s.isActive i) := by
  refine ⟨hpipe, hreceiver, hworkers, ?_⟩
  rw [hactive, Function.update_eq_self]

/-- A worker that executes a request goes on to answer it, to open a file, to wait for open files,
or to clear the buffer. -/
theorem execute_ownStep (hs : s.execute sys i = some s') :
    ∃ pos, OwnStep s i s' pos (s.isActive i) ∧ looks pos = false ∧ workerWork pos < 7 := by
  have hcall : ∀ call, s.executeCall sys i call = some s' →
      ∃ pos, OwnStep s i s' pos (s.isActive i) ∧ looks pos = false ∧ workerWork pos < 7 := by
    intro call hs
    unfold executeCall at hs
    split at hs
    · cases hs
    · split at hs
      · cases hs
      · cases hs
        exact ⟨_, OwnStep.move rfl rfl rfl rfl, rfl, by simp [workerWork]⟩
  unfold execute at hs
  split at hs
  · cases hs
    exact ⟨_, OwnStep.move rfl rfl rfl rfl, rfl, by simp [workerWork]⟩
  · split at hs
    · cases hs
      exact ⟨_, OwnStep.move rfl rfl rfl rfl, rfl, by simp [workerWork]⟩
    · split at hs
      · cases hs
      · split at hs
        · cases hs
          exact ⟨_, OwnStep.move rfl rfl rfl rfl, rfl, by simp [workerWork]⟩
        · cases hs
          exact ⟨_, OwnStep.move rfl rfl rfl rfl, rfl, by simp [workerWork]⟩
    · split at hs
      · exact hcall _ hs
      · cases hs
        exact ⟨_, OwnStep.move rfl rfl rfl rfl, rfl, by simp [workerWork]⟩
    · exact hcall _ hs

theorem openPast_ownStep (hs : s.openPast i = some s') :
    ∃ c answer after, OwnStep s i s' (.replying c answer after) (s.isActive i) := by
  unfold openPast at hs
  split at hs
  · cases hs
    exact ⟨_, _, _, OwnStep.move rfl rfl rfl rfl⟩
  · cases hs

theorem close_ownStep (hs : s.close i = some s') :
    ∃ c answer after, OwnStep s i s' (.replying c answer after) (s.isActive i) := by
  unfold close at hs
  split at hs
  · cases hs
  · split at hs
    · cases hs
    · cases hs
      exact ⟨_, _, _, OwnStep.move rfl rfl rfl rfl⟩

/-- Every step of a worker is some of its work, unless it wakes up without a signal. -/
theorem workerStep_work (hs : s.workerStep sys i = some s') :
    s'.work + 1 ≤ s.work + allowance s (.work i) := by
  have hfinish : ∀ pos active, OwnStep s i s' pos active →
      sessionWork pos active + 1 ≤
        sessionWork (s.workers i) (s.isActive i) + allowance s (.work i) →
      s'.work + 1 ≤ s.work + allowance s (.work i) := by
    intro pos active hown hle
    have hwork := hown.work
    omega
  unfold workerStep at hs
  split at hs
  · rename_i hpos
    split at hs
    · cases hs
      refine hfinish _ _ (OwnStep.move rfl rfl rfl rfl) ?_
      rw [hpos, sessionWork_of_looks rfl, sessionWork_of_looks rfl]
      simp only [workerWork]
      omega
    · cases hs
  · rename_i hpos
    split at hs
    · rename_i hactive
      cases hs
      refine hfinish _ _ (OwnStep.move rfl rfl rfl rfl) ?_
      rw [hpos, hactive, sessionWork_of_not_looks rfl, sessionWork_of_looks rfl]
      simp [workerWork]
    · rename_i hactive
      cases hs
      refine hfinish _ _ (OwnStep.move rfl rfl rfl rfl) ?_
      rw [hpos, sessionWork_of_looks rfl, sessionWork_of_looks rfl]
      simp only [workerWork]
      omega
  · rename_i hpos
    cases hs
    refine hfinish _ _ (OwnStep.move rfl rfl rfl rfl) ?_
    simp only [allowance, hpos]
    rw [sessionWork_of_looks rfl, sessionWork_of_looks rfl]
    simp only [workerWork]
    omega
  · rename_i hpos
    obtain ⟨pos, hown, hlooks, hlt⟩ := execute_ownStep hs
    refine hfinish _ _ hown ?_
    rw [hpos, sessionWork_of_not_looks hlooks, sessionWork_of_not_looks rfl]
    simp only [workerWork] at hlt ⊢
    omega
  · rename_i hpos
    obtain ⟨c, answer, after, hown⟩ := openPast_ownStep hs
    refine hfinish _ _ hown ?_
    rw [hpos, sessionWork_of_not_looks rfl, sessionWork_of_not_looks rfl]
    simp only [workerWork]
    omega
  · rename_i hpos
    obtain ⟨c, answer, after, hown⟩ := close_ownStep hs
    refine hfinish _ _ hown ?_
    rw [hpos, sessionWork_of_not_looks rfl, sessionWork_of_not_looks rfl]
    simp only [workerWork]
    omega
  · rename_i hpos
    cases hs
    refine hfinish _ _ (OwnStep.move rfl rfl rfl rfl) ?_
    rw [hpos, sessionWork_of_not_looks rfl, sessionWork_of_not_looks rfl]
    simp only [workerWork]
    omega
  · rename_i hpos
    cases hs
    refine hfinish _ _ ⟨rfl, rfl, rfl, rfl⟩ ?_
    rw [hpos, sessionWork_of_looks rfl, sessionWork_of_not_looks rfl]
    simp [workerWork]
  · rename_i hpos
    cases hs
    refine hfinish _ _ (OwnStep.move rfl rfl rfl rfl) ?_
    rw [hpos, sessionWork_of_not_looks rfl, sessionWork_of_not_looks rfl]
    simp only [workerWork]
    omega
  · cases hs
  · rename_i hpos
    cases hs
    refine hfinish _ _ (OwnStep.move rfl rfl rfl rfl) ?_
    rw [hpos, sessionWork_of_looks rfl, sessionWork_of_looks rfl]
    simp only [workerWork]
    omega
  · cases hs

/-- One step of the system. -/
theorem exec_work (s : Hub) (a : Action) (u : Unit) (s' : Hub)
    (hex : exec sys s a = some (u, s')) :
    serverStep s a + s'.work ≤ s.work + allowance s a := by
  obtain ⟨c, call, rfl, rfl⟩ | ⟨c, rfl, hs⟩ | ⟨rfl, hs⟩ | ⟨i, rfl, hs⟩ := exec_cases hex
  · simp only [serverStep, allowance, work, send, List.length_append]
    omega
  · unfold collect at hs
    split at hs
    · split at hs
      · cases hs
        simp [serverStep, allowance, work, collected]
      · cases hs
    · cases hs
  · have hwork := receiverStep_work hs
    simp only [serverStep, allowance]
    omega
  · have hwork := workerStep_work hs
    simp only [serverStep]
    omega

end Hub

/-- From any state, whatever calls the clients make, and in any order of steps: the receiver and the
workers take no more steps than the work they find, with fifteen for each byte that is sent and
three for each worker that wakes up without a signal. -/
theorem server_steps_bounded (sys : System) {s s' : Hub} {actions : List Hub.Action}
    {results : List Unit} (hrun : (Hub.machine sys).run s actions = some (results, s')) :
    (Hub.machine sys).total Hub.serverStep s actions + s'.work ≤
      s.work + (Hub.machine sys).total Hub.allowance s actions :=
  Machine.run_amortised (M := Hub.machine sys) Hub.serverStep Hub.allowance Hub.work
    (fun s a u s' hex => Hub.exec_work s a u s' hex) hrun

/-- A client mounts, and the server takes ten steps until the answer is on its pipe. -/
theorem server_steps_bounded_mount : ∃ (actions : List Hub.Action) (s' : Hub),
    (Hub.machine ampleSystem).total Hub.serverStep Hub.initial actions = 10 ∧
      (Hub.machine ampleSystem).total Hub.serverStep Hub.initial actions + s'.work ≤
        Hub.initial.work + (Hub.machine ampleSystem).total Hub.allowance Hub.initial actions := by
  let actions : List Hub.Action :=
    [.send pathA (.mount pathA), .receive, .receive, .receive, .receive, .receive, .receive,
      .work 0, .work 0, .work 0, .work 0]
  have hcost : (Hub.machine ampleSystem).total Hub.serverStep Hub.initial actions = 10 := by
    decide +kernel
  have hsome : ((Hub.machine ampleSystem).run Hub.initial actions).isSome = true := by
    decide +kernel
  obtain ⟨⟨results, s'⟩, hrun⟩ := Option.isSome_iff_exists.mp hsome
  exact ⟨actions, s', hcost, server_steps_bounded ampleSystem hrun⟩

end TecnicoFS.Part2
