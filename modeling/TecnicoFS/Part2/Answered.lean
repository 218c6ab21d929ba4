import TecnicoFS.Part2.ExactlyOnce

/-!
# Part 2: every request is answered

`HandoffInv.lean` says what may be where; here it is also said that nothing gets lost. The
outstanding request of a client is on the pipe, in the hands of the receiver, or with a worker
that is about to see it (`Attends`): a worker that waits beside a raised flag is about to be
signalled. `Settled` is the invariant.

So where neither the receiver nor a worker has anything left to do, the whole answer to every
client that waits for one is written, unless the library crashed on its request, or it has asked
for the shutdown and files are still open (`requests_answered`).
-/

namespace TecnicoFS.Part2

/-- The call of the library that a request asks for, where it copies bytes. -/
def ApiCall.copyCall : ApiCall → Option Call
  | .write fhandle buffer => some (.write fhandle buffer)
  | .read fhandle len => some (.read fhandle len)
  | _ => none

namespace Hub

variable {sys : System} {s s' : Hub} {g g' : Ghost} {i j : Fin maxClients} {c c' : CString}
  {n : Nat}

/-! ## Nothing is lost -/

/-- The worker is at the request of its session, or will find it. -/
def Attends : WorkerPos → Bool → Prop
  | .outside, active => active = true
  | .checking, active => active = true
  | .waiting, active => active = true
  | .executing, _ => True
  | .opening, _ => True
  | .closing, _ => True
  | _, _ => False

/-- The receiver holds the lock of the session. -/
def Locks : ReceiverPos → Fin maxClients → Prop
  | .locked k _, i => k = i
  | .filled k, i => k = i
  | .active k, i => k = i
  | .leaving k, i => k = i
  | _, _ => False

/-- Where the request of each client is, and that somebody goes on with it. -/
structure Settled (s : Hub) (g : Ghost) : Prop where
  queued : ∀ c r, g.phase c = .waiting r .queue → (c, r) ∈ g.queue
  inHand : ∀ c r, g.phase c = .waiting r .hand → ∃ i header, g.owner i = some c ∧
    (s.receiver = .taken i header ∨ s.receiver = .locked i header)
  inSession : ∀ c r, g.phase c = .waiting r .session → ∃ i, g.owner i = some c ∧
    (s.receiver = .filled i ∨ Attends (s.workers i) (s.isActive i))
  answered : ∀ c answer, g.phase c = .answered answer →
    ∃ i after, s.workers i = .replying c answer after
  awake : ∀ i, s.workers i = .waiting → s.isActive i = true → s.receiver = .active i
  locks : ∀ i, s.lock i = some .receiver → Locks s.receiver i
  exits : ∀ i, s.workers i = .replied .exit → s.exited = true
  started : 1 ≤ s.server.nextSessionId

theorem settled_initial : Settled initial ⟨[], fun _ => none, fun _ => .idle⟩ where
  queued := by simp
  inHand := by simp
  inSession := by simp
  answered := by simp
  awake := by simp [initial]
  locks := by simp [initial]
  exits := by simp [initial]
  started := Int.le_refl _

/-- What a client does leaves the server alone. -/
theorem Settled.client (h : Settled s g) (hserver : s'.server = s.server)
    (hreceiver : s'.receiver = s.receiver) (hworkers : s'.workers = s.workers)
    (hactive : s'.isActive = s.isActive) (hlock : s'.lock = s.lock) (hexited : s'.exited = s.exited)
    (howner : g'.owner = g.owner) (hqueue : ∀ e ∈ g.queue, e ∈ g'.queue)
    (hphase : ∀ c phase, g'.phase c = phase → g.phase c = phase ∨ phase = .idle ∨
      ∃ r, phase = .waiting r .queue ∧ (c, r) ∈ g'.queue) : Settled s' g' where
  queued := by
    intro c r hc
    obtain hsame | hidle | ⟨r', heq, hmem⟩ := hphase c _ hc
    · exact hqueue _ (h.queued c r hsame)
    · cases hidle
    · cases heq
      exact hmem
  inHand := by
    intro c r hc
    rw [howner, hreceiver]
    obtain hsame | hidle | ⟨r', heq, -⟩ := hphase c _ hc
    · exact h.inHand c r hsame
    · cases hidle
    · cases heq
  inSession := by
    intro c r hc
    rw [howner, hreceiver, hworkers, hactive]
    obtain hsame | hidle | ⟨r', heq, -⟩ := hphase c _ hc
    · exact h.inSession c r hsame
    · cases hidle
    · cases heq
  answered := by
    intro c answer hc
    rw [hworkers]
    obtain hsame | hidle | ⟨r', heq, -⟩ := hphase c _ hc
    · exact h.answered c answer hsame
    · cases hidle
    · cases heq
  awake := by
    rw [hworkers, hactive, hreceiver]
    exact h.awake
  locks := by
    rw [hlock, hreceiver]
    exact h.locks
  exits := by
    rw [hworkers, hexited]
    exact h.exits
  started := by
    rw [hserver]
    exact h.started

theorem settled_send {call : ApiCall} {r : Request} (h : Settled s g) :
    Settled (s.send c call) (g.send c r) := by
  refine h.client rfl rfl rfl rfl rfl rfl rfl (fun e he => List.mem_append_left _ he) ?_
  intro c' phase hc'
  by_cases hne : c' = c
  · subst hne
    have hself : (g.send c' r).phase c' = .waiting r .queue := Function.update_self _ _ _
    rw [hself] at hc'
    exact Or.inr (Or.inr ⟨r, hc'.symm, by simp [Ghost.send]⟩)
  · have hother : (g.send c r).phase c' = g.phase c' := Function.update_of_ne hne _ _
    rw [hother] at hc'
    exact Or.inl hc'

theorem settled_collect (h : Settled s g) (hs : s.collect c = some s') :
    Settled s' (g.setPhase c .idle) := by
  obtain ⟨answer, replies, call, -, -, rfl⟩ := collect_cases hs
  refine h.client rfl rfl rfl rfl rfl rfl rfl (fun e he => he) ?_
  intro c' phase hc'
  by_cases hne : c' = c
  · subst hne
    rw [Ghost.setPhase_self] at hc'
    exact Or.inr (Or.inl hc'.symm)
  · rw [Ghost.setPhase_of_ne hne] at hc'
    exact Or.inl hc'

/-! ## The receiver -/

theorem settled_take (h : Settled s g) (hinv : Inv n s g) (hready : s.receiver = .ready)
    (hs : s.take = some s') : ∃ g', Inv n s' g' ∧ Settled s' g' := by
  obtain ⟨c, r, rest, i, header, server, hqueue, hheader, hwf, hsession, hserver, rfl⟩ :=
    take_cases hinv hready hs
  have hnot : ∀ {c' r'}, g.phase c' ≠ .waiting r' .hand := by
    intro c' r' hc'
    obtain ⟨j, header', -, hpos | hpos⟩ := h.inHand c' r' hc'
    · rw [hready] at hpos
      cases hpos
    · rw [hready] at hpos
      cases hpos
  refine ⟨_, inv_taken hinv hqueue hheader hwf hsession hserver, ?_, ?_, ?_, ?_, ?_, ?_, h.exits,
    ?_⟩
  · intro c' r' hc'
    by_cases hne : c' = c
    · subst hne
      rw [take_phase_self] at hc'
      cases hc'
    · rw [take_phase_of_ne hne] at hc'
      have hmem := h.queued c' r' hc'
      rw [hqueue] at hmem
      obtain heq | hmem := List.mem_cons.mp hmem
      · exact absurd (Prod.mk.inj heq).1 hne
      · exact hmem
  · intro c' r' hc'
    by_cases hne : c' = c
    · subst hne
      exact ⟨i, header, take_owner_self, Or.inl rfl⟩
    · rw [take_phase_of_ne hne] at hc'
      exact absurd hc' hnot
  · intro c' r' hc'
    by_cases hne : c' = c
    · subst hne
      rw [take_phase_self] at hc'
      cases hc'
    · rw [take_phase_of_ne hne] at hc'
      obtain ⟨j, hj, hpos | hattends⟩ := h.inSession c' r' hc'
      · rw [hready] at hpos
        cases hpos
      · have hji : j ≠ i := by
          rintro rfl
          obtain hnone | hsome := hsession.owner
          · rw [hnone] at hj
            cases hj
          · rw [hsome] at hj
            exact hne (Option.some.inj hj).symm
        exact ⟨j, (take_owner_of_ne hji).trans hj, Or.inr hattends⟩
  · intro c' answer hc'
    by_cases hne : c' = c
    · subst hne
      rw [take_phase_self] at hc'
      cases hc'
    · rw [take_phase_of_ne hne] at hc'
      exact h.answered c' answer hc'
  · intro j hwaiting hactive
    have hpos := h.awake j hwaiting hactive
    rw [hready] at hpos
    cases hpos
  · intro j hj
    have hlocks := h.locks j hj
    rw [hready] at hlocks
    exact hlocks
  · have hstarted := h.started
    simp only [hserver]
    split
    · omega
    · omega

/-- The receiver goes on, and the requests stay where they are. -/
theorem Settled.receiver (h : Settled s g) (hserver : s'.server = s.server)
    (hexited : s'.exited = s.exited)
    (hhand : ∀ i header, s.receiver = .taken i header ∨ s.receiver = .locked i header →
      s'.receiver = .taken i header ∨ s'.receiver = .locked i header)
    (hsession : ∀ i, s.receiver = .filled i ∨ Attends (s.workers i) (s.isActive i) →
      s'.receiver = .filled i ∨ Attends (s'.workers i) (s'.isActive i))
    (hworkers : ∀ i pos, (∃ c answer after, pos = .replying c answer after) ∨
      pos = .replied .exit → (s'.workers i = pos ↔ s.workers i = pos))
    (hawake : ∀ i, s'.workers i = .waiting → s'.isActive i = true → s'.receiver = .active i)
    (hlocks : ∀ i, s'.lock i = some .receiver → Locks s'.receiver i) : Settled s' g where
  queued := h.queued
  inHand := by
    intro c r hc
    obtain ⟨i, header, howner, hpos⟩ := h.inHand c r hc
    exact ⟨i, header, howner, hhand i header hpos⟩
  inSession := by
    intro c r hc
    obtain ⟨i, howner, hpos⟩ := h.inSession c r hc
    exact ⟨i, howner, hsession i hpos⟩
  answered := by
    intro c answer hc
    obtain ⟨i, after, hpos⟩ := h.answered c answer hc
    exact ⟨i, after, (hworkers i _ (Or.inl ⟨_, _, _, rfl⟩)).mpr hpos⟩
  awake := hawake
  locks := hlocks
  exits := by
    intro i hpos
    rw [hexited]
    exact h.exits i ((hworkers i _ (Or.inr rfl)).mp hpos)
  started := by
    rw [hserver]
    exact h.started

theorem settled_lock {header : Header} (h : Settled s g) (hpos : s.receiver = .taken i header) :
    Settled { s with
      lock := Function.update s.lock i (some .receiver)
      receiver := .locked i header } g := by
  refine h.receiver rfl rfl ?_ ?_ (fun _ _ _ => Iff.rfl) ?_ ?_
  · intro j header' hj
    rw [hpos] at hj
    obtain heq | heq := hj
    · cases heq
      exact Or.inr rfl
    · cases heq
  · intro j hj
    rw [hpos] at hj
    obtain heq | hattends := hj
    · cases heq
    · exact Or.inr hattends
  · intro j hwaiting hactive
    have heq := h.awake j hwaiting hactive
    rw [hpos] at heq
    cases heq
  · intro j hj
    by_cases hji : j = i
    · exact hji.symm
    · have hsame : Function.update s.lock i (some .receiver) j = s.lock j :=
        Function.update_of_ne hji _ _
      have hlocks := h.locks j (hsame.symm.trans hj)
      rw [hpos] at hlocks
      exact hlocks.elim

theorem settled_fill {header : Header} (h : Settled s g) (hinv : Inv n s g)
    (hpos : s.receiver = .locked i header) (hs : s.fill i header = some s') :
    ∃ g', Inv n s' g' ∧ Settled s' g' := by
  have hreceiver := hinv.receiver
  rw [ReceiverOk, hpos] at hreceiver
  obtain ⟨hlock, c, r, closed, hi, hheader, hwf, hpipe⟩ := hreceiver
  obtain ⟨session, hid, hholds, rfl⟩ := fill_cases hinv hheader hwf hpipe hs
  obtain ⟨howner, hphase, -⟩ := owner_of_seat hi
  refine ⟨_, inv_filled hinv hlock hi hid hholds, ?_, ?_, ?_, ?_, ?_, ?_, h.exits, h.started⟩
  · intro c' r' hc'
    by_cases hne : c' = c
    · subst hne
      rw [Ghost.setPhase_self] at hc'
      cases hc'
    · rw [Ghost.setPhase_of_ne hne] at hc'
      exact h.queued c' r' hc'
  · intro c' r' hc'
    by_cases hne : c' = c
    · subst hne
      rw [Ghost.setPhase_self] at hc'
      cases hc'
    · -- the receiver holds one request at a time
      rw [Ghost.setPhase_of_ne hne] at hc'
      obtain ⟨j, header', hj, heq | heq⟩ := h.inHand c' r' hc'
      · rw [hpos] at heq
        cases heq
      · rw [hpos] at heq
        cases heq
        rw [howner] at hj
        exact absurd (Option.some.inj hj).symm hne
  · intro c' r' hc'
    by_cases hne : c' = c
    · subst hne
      exact ⟨i, howner, Or.inl rfl⟩
    · rw [Ghost.setPhase_of_ne hne] at hc'
      obtain ⟨j, hj, heq | hattends⟩ := h.inSession c' r' hc'
      · rw [hpos] at heq
        cases heq
      · exact ⟨j, hj, Or.inr hattends⟩
  · intro c' answer hc'
    by_cases hne : c' = c
    · subst hne
      rw [Ghost.setPhase_self] at hc'
      cases hc'
    · rw [Ghost.setPhase_of_ne hne] at hc'
      exact h.answered c' answer hc'
  · intro j hwaiting hactive
    have heq := h.awake j hwaiting hactive
    rw [hpos] at heq
    cases heq
  · intro j hj
    have hlocks := h.locks j hj
    rw [hpos] at hlocks
    exact hlocks

theorem settled_activate (h : Settled s g) (hinv : Inv n s g) (hpos : s.receiver = .filled i) :
    Settled { s with
      isActive := Function.update s.isActive i true
      receiver := .active i } g := by
  have hreceiver := hinv.receiver
  rw [ReceiverOk, hpos] at hreceiver
  obtain ⟨hlock, -, -, c, r, closed, hi, -⟩ := hreceiver
  -- the worker of a session with a request has not ended
  have hworker := hinv.worker i
  rw [hlock, hi] at hworker
  have haway : s.workers i = .outside ∨ s.workers i = .waiting := by
    obtain hout | hwaiting | hended := hworker.away
    · exact Or.inl hout
    · exact Or.inr hwaiting
    · rw [hended] at hworker
      exact absurd rfl ((retired_iff.mp hworker.2).2 r .session)
  refine h.receiver rfl rfl ?_ ?_ (fun _ _ _ => Iff.rfl) ?_ ?_
  · intro j header hj
    rw [hpos] at hj
    obtain heq | heq := hj
    · cases heq
    · cases heq
  · intro j hj
    refine Or.inr ?_
    simp only
    by_cases hji : j = i
    · subst hji
      rw [Function.update_self]
      obtain hout | hwaiting := haway
      · rw [hout]
        rfl
      · rw [hwaiting]
        rfl
    · rw [Function.update_of_ne hji]
      obtain heq | hattends := hj
      · rw [hpos] at heq
        cases heq
        exact absurd rfl hji
      · exact hattends
  · intro j hwaiting hactive
    by_cases hji : j = i
    · rw [hji]
    · simp only [Function.update_of_ne hji] at hactive
      have heq := h.awake j hwaiting hactive
      rw [hpos] at heq
      cases heq
  · intro j hj
    have hlocks := h.locks j hj
    rw [hpos] at hlocks
    exact hlocks

/-- The signal wakes the worker of the session, if it waits. -/
theorem signal_cases (hpos : s.receiver = .active i) (hs : s.receiverStep = some s') :
    s'.receiver = .leaving i ∧ s'.server = s.server ∧ s'.isActive = s.isActive ∧
      s'.lock = s.lock ∧ s'.exited = s.exited ∧ (∀ j, j ≠ i → s'.workers j = s.workers j) ∧
      (s.workers i = .waiting ∧ s'.workers i = .outside ∨
        s.workers i ≠ .waiting ∧ s'.workers i = s.workers i) := by
  unfold receiverStep at hs
  rw [hpos] at hs
  simp only [Option.some.injEq] at hs
  subst hs
  cases hw : s.workers i
  case waiting =>
    exact ⟨rfl, rfl, rfl, rfl, rfl, fun j hj => Function.update_of_ne hj _ _,
      Or.inl ⟨rfl, Function.update_self _ _ _⟩⟩
  all_goals exact ⟨rfl, rfl, rfl, rfl, rfl, fun _ _ => rfl, Or.inr ⟨by simp, hw⟩⟩

theorem settled_signal (h : Settled s g) (hpos : s.receiver = .active i)
    (hs : s.receiverStep = some s') : Settled s' g := by
  obtain ⟨hreceiver, hserver, hactive, hlock, hexited, hother, hself⟩ := signal_cases hpos hs
  refine h.receiver hserver hexited ?_ ?_ ?_ ?_ ?_
  · intro j header hj
    rw [hpos] at hj
    obtain heq | heq := hj
    · cases heq
    · cases heq
  · intro j hj
    obtain heq | hattends := hj
    · rw [hpos] at heq
      cases heq
    · refine Or.inr ?_
      rw [hactive]
      by_cases hji : j = i
      · subst hji
        obtain ⟨hwaiting, hout⟩ | ⟨-, hsame⟩ := hself
        · rw [hwaiting] at hattends
          rw [hout]
          exact hattends
        · rw [hsame]
          exact hattends
      · rw [hother j hji]
        exact hattends
  · intro j pos hanswers
    by_cases hji : j = i
    · subst hji
      obtain ⟨hwaiting, hout⟩ | ⟨-, hsame⟩ := hself
      · rw [hout, hwaiting]
        obtain ⟨c, answer, after, rfl⟩ | rfl := hanswers
        · simp
        · simp
      · rw [hsame]
    · rw [hother j hji]
  · intro j hwaiting hup
    rw [hactive] at hup
    by_cases hji : j = i
    · subst hji
      obtain ⟨-, hout⟩ | ⟨hnot, hsame⟩ := hself
      · rw [hout] at hwaiting
        cases hwaiting
      · exact absurd (hsame.symm.trans hwaiting) hnot
    · rw [hother j hji] at hwaiting
      have heq := h.awake j hwaiting hup
      rw [hpos] at heq
      cases heq
      exact absurd rfl hji
  · intro j hj
    rw [hlock] at hj
    have hlocks := h.locks j hj
    rw [hpos] at hlocks
    rw [hreceiver]
    exact hlocks

theorem settled_unlock (h : Settled s g) (hpos : s.receiver = .leaving i) :
    Settled { s with lock := Function.update s.lock i none, receiver := .ready } g := by
  refine h.receiver rfl rfl ?_ ?_ (fun _ _ _ => Iff.rfl) ?_ ?_
  · intro j header hj
    rw [hpos] at hj
    obtain heq | heq := hj
    · cases heq
    · cases heq
  · intro j hj
    rw [hpos] at hj
    obtain heq | hattends := hj
    · cases heq
    · exact Or.inr hattends
  · intro j hwaiting hactive
    have heq := h.awake j hwaiting hactive
    rw [hpos] at heq
    cases heq
  · intro j hj
    simp only at hj
    by_cases hji : j = i
    · subst hji
      rw [Function.update_self] at hj
      cases hj
    · rw [Function.update_of_ne hji] at hj
      have hlocks := h.locks j hj
      rw [hpos] at hlocks
      exact absurd hlocks.symm hji

theorem settled_receiverStep (h : Settled s g) (hinv : Inv n s g)
    (hs : s.receiverStep = some s') : ∃ g', Inv n s' g' ∧ Settled s' g' := by
  have hsignal := fun i (hpos : s.receiver = .active i) => settled_signal h hpos hs
  unfold receiverStep at hs
  split at hs
  · exact settled_take h hinv ‹_› hs
  · split at hs
    · cases hs
      exact ⟨g, inv_lock hinv ‹_› ‹_›, settled_lock h ‹_›⟩
    · cases hs
  · exact settled_fill h hinv ‹_› hs
  · cases hs
    exact ⟨g, inv_activate hinv ‹_›, settled_activate h hinv ‹_›⟩
  · cases hs
    exact ⟨g, inv_signal hinv ‹_›, hsignal _ ‹_›⟩
  · cases hs
    exact ⟨g, inv_unlock hinv ‹_›, settled_unlock h ‹_›⟩

/-! ## The workers -/

/-- A worker goes on, and the requests stay where they are. -/
theorem Settled.worker {pos : WorkerPos} {active : Bool} {lock : Option Holder} (h : Settled s g)
    (hnumbers : s'.server.nextSessionId = s.server.nextSessionId)
    (hreceiver : s'.receiver = s.receiver)
    (hworkers : s'.workers = Function.update s.workers i pos)
    (hactive : s'.isActive = Function.update s.isActive i active)
    (hlock : s'.lock = Function.update s.lock i lock)
    (hexited : s.exited = true → s'.exited = true)
    (hattends : Attends (s.workers i) (s.isActive i) → Attends pos active)
    (hanswer : ∀ c answer after, s.workers i ≠ .replying c answer after)
    (hwaiting : pos = .waiting → active = false)
    (hheld : lock = some .receiver → s.lock i = some .receiver)
    (hexit : pos = .replied .exit → s'.exited = true) : Settled s' g where
  queued := h.queued
  inHand := by
    rw [hreceiver]
    exact h.inHand
  inSession := by
    intro c r hc
    obtain ⟨j, hj, heq | hold⟩ := h.inSession c r hc
    · exact ⟨j, hj, Or.inl (hreceiver.trans heq)⟩
    · refine ⟨j, hj, Or.inr ?_⟩
      rw [hworkers, hactive]
      by_cases hji : j = i
      · subst hji
        rw [Function.update_self, Function.update_self]
        exact hattends hold
      · rw [Function.update_of_ne hji, Function.update_of_ne hji]
        exact hold
  answered := by
    intro c answer hc
    obtain ⟨j, after, hj⟩ := h.answered c answer hc
    have hji : j ≠ i := by
      rintro rfl
      exact hanswer _ _ _ hj
    refine ⟨j, after, ?_⟩
    rw [hworkers, Function.update_of_ne hji, hj]
  awake := by
    intro j hj hup
    rw [hworkers] at hj
    rw [hactive] at hup
    rw [hreceiver]
    by_cases hji : j = i
    · subst hji
      rw [Function.update_self] at hj hup
      rw [hwaiting hj] at hup
      cases hup
    · rw [Function.update_of_ne hji] at hj hup
      exact h.awake j hj hup
  locks := by
    intro j hj
    rw [hlock] at hj
    rw [hreceiver]
    by_cases hji : j = i
    · subst hji
      rw [Function.update_self] at hj
      exact h.locks j (hheld hj)
    · rw [Function.update_of_ne hji] at hj
      exact h.locks j hj
  exits := by
    intro j hj
    rw [hworkers] at hj
    by_cases hji : j = i
    · subst hji
      rw [Function.update_self] at hj
      exact hexit hj
    · rw [Function.update_of_ne hji] at hj
      exact hexited (h.exits j hj)
  started := by
    rw [hnumbers]
    exact h.started

/-- The request of a client is handled. -/
theorem Settled.answers (h : Settled s g)
    (hpos : ∀ c answer after, s.workers i ≠ .replying c answer after)
    (hanswers : s.Answers g i s' g') (hlock : s'.lock = s.lock) (hexited : s'.exited = s.exited)
    (hnumbers : s'.server.nextSessionId = s.server.nextSessionId) : Settled s' g' := by
  obtain ⟨c, r, answer, after, howner, hphase, rfl, hreceiver, hactive, hworkers⟩ := hanswers
  have hother : ∀ j, j ≠ i → s'.workers j = s.workers j := by
    intro j hji
    rw [hworkers, Function.update_of_ne hji]
  have hself : s'.workers i = .replying c answer after := by
    rw [hworkers, Function.update_self]
  refine ⟨?_, ?_, ?_, ?_, ?_, ?_, ?_, ?_⟩
  · intro c' r' hc'
    by_cases hne : c' = c
    · subst hne
      rw [Ghost.setPhase_self] at hc'
      cases hc'
    · rw [Ghost.setPhase_of_ne hne] at hc'
      exact h.queued c' r' hc'
  · intro c' r' hc'
    rw [hreceiver]
    by_cases hne : c' = c
    · subst hne
      rw [Ghost.setPhase_self] at hc'
      cases hc'
    · rw [Ghost.setPhase_of_ne hne] at hc'
      exact h.inHand c' r' hc'
  · intro c' r' hc'
    by_cases hne : c' = c
    · subst hne
      rw [Ghost.setPhase_self] at hc'
      cases hc'
    · rw [Ghost.setPhase_of_ne hne] at hc'
      obtain ⟨j, hj, hold⟩ := h.inSession c' r' hc'
      have hji : j ≠ i := by
        rintro rfl
        rw [howner] at hj
        exact hne (Option.some.inj hj).symm
      refine ⟨j, hj, ?_⟩
      rw [hreceiver, hother j hji, hactive]
      exact hold
  · intro c' answer' hc'
    by_cases hne : c' = c
    · subst hne
      rw [Ghost.setPhase_self] at hc'
      cases hc'
      exact ⟨i, after, hself⟩
    · rw [Ghost.setPhase_of_ne hne] at hc'
      obtain ⟨j, after', hj⟩ := h.answered c' answer' hc'
      have hji : j ≠ i := by
        rintro rfl
        exact hpos _ _ _ hj
      exact ⟨j, after', (hother j hji).trans hj⟩
  · intro j hwaiting hup
    rw [hactive] at hup
    rw [hreceiver]
    by_cases hji : j = i
    · subst hji
      rw [hself] at hwaiting
      cases hwaiting
    · rw [hother j hji] at hwaiting
      exact h.awake j hwaiting hup
  · rw [hlock, hreceiver]
    exact h.locks
  · intro j hj
    rw [hexited]
    by_cases hji : j = i
    · subst hji
      rw [hself] at hj
      cases hj
    · rw [hother j hji] at hj
      exact h.exits j hj
  · rw [hnumbers]
    exact h.started

/-- The answer goes to the pipe of the client. -/
theorem settled_reply {answer : Answer} {after : After} (h : Settled s g)
    (hpos : s.workers i = .replying c answer after) :
    Settled { s with
      replies := Function.update s.replies c (s.replies c ++ [answer])
      exited := s.exited || after == .exit
      workers := Function.update s.workers i (.replied after) } (g.setPhase c (.replied answer)) := by
  have hphase : ∀ {c' phase}, (g.setPhase c (.replied answer)).phase c' = phase →
      phase ≠ .replied answer → c' ≠ c ∧ g.phase c' = phase := by
    intro c' phase hc' hnot
    by_cases hne : c' = c
    · subst hne
      rw [Ghost.setPhase_self] at hc'
      exact absurd hc'.symm hnot
    · rw [Ghost.setPhase_of_ne hne] at hc'
      exact ⟨hne, hc'⟩
  refine ⟨?_, ?_, ?_, ?_, ?_, h.locks, ?_, h.started⟩
  · intro c' r' hc'
    exact h.queued c' r' (hphase hc' (by simp)).2
  · intro c' r' hc'
    exact h.inHand c' r' (hphase hc' (by simp)).2
  · intro c' r' hc'
    obtain ⟨j, hj, hold⟩ := h.inSession c' r' (hphase hc' (by simp)).2
    refine ⟨j, hj, ?_⟩
    simp only
    by_cases hji : j = i
    · subst hji
      rw [hpos] at hold
      obtain heq | hattends := hold
      · exact Or.inl heq
      · exact hattends.elim
    · rw [Function.update_of_ne hji]
      exact hold
  · intro c' answer' hc'
    obtain ⟨hne, hold⟩ := hphase hc' (by simp)
    obtain ⟨j, after', hj⟩ := h.answered c' answer' hold
    have hji : j ≠ i := by
      rintro rfl
      rw [hpos] at hj
      cases hj
      exact hne rfl
    exact ⟨j, after', (Function.update_of_ne hji _ _).trans hj⟩
  · intro j hwaiting hup
    simp only at hwaiting
    by_cases hji : j = i
    · subst hji
      rw [Function.update_self] at hwaiting
      cases hwaiting
    · rw [Function.update_of_ne hji] at hwaiting
      exact h.awake j hwaiting hup
  · intro j hj
    simp only at hj ⊢
    by_cases hji : j = i
    · subst hji
      rw [Function.update_self] at hj
      cases hj
      simp
    · rw [Function.update_of_ne hji] at hj
      rw [h.exits j hj]
      rfl

/-- What a worker that computes an answer leaves alone. -/
theorem answer_others {call : ApiCall} {answer : Answer} {after : After} :
    (s.answer i c call answer after).lock = s.lock ∧
      (s.answer i c call answer after).exited = s.exited ∧
      (s.answer i c call answer after).server = s.server := ⟨rfl, rfl, rfl⟩

theorem executeCall_others {call : ApiCall} (hs : s.executeCall sys i call = some s') :
    s'.lock = s.lock ∧ s'.exited = s.exited ∧ s'.server = s.server := by
  unfold executeCall at hs
  split at hs
  · cases hs
  · split at hs
    · cases hs
    · cases hs
      exact answer_others

theorem execute_others (hs : s.execute sys i = some s') :
    s'.lock = s.lock ∧ s'.exited = s.exited ∧ s'.server = s.server := by
  unfold execute at hs
  split at hs
  · cases hs
    exact ⟨rfl, rfl, rfl⟩
  · split at hs
    · cases hs
      exact answer_others
    · split at hs
      · cases hs
      · split at hs
        · cases hs
          exact answer_others
        · cases hs
          exact ⟨rfl, rfl, rfl⟩
    · split at hs
      · exact executeCall_others hs
      · cases hs
        exact ⟨rfl, rfl, rfl⟩
    · exact executeCall_others hs

theorem openPast_others (hs : s.openPast i = some s') :
    s'.lock = s.lock ∧ s'.exited = s.exited ∧ s'.server = s.server := by
  unfold openPast at hs
  split at hs
  · cases hs
    exact answer_others
  · cases hs

theorem close_others (hs : s.close i = some s') :
    s'.lock = s.lock ∧ s'.exited = s.exited ∧ s'.server = s.server := by
  unfold close at hs
  split at hs
  · cases hs
  · split at hs
    · cases hs
    · cases hs
      exact answer_others

/-- A worker goes on under the lock or outside of it, and nothing is handled. -/
theorem Settled.move {pos : WorkerPos} {lock : Option Holder} (h : Settled s g)
    (hattends : Attends (s.workers i) (s.isActive i) → Attends pos (s.isActive i))
    (hanswer : ∀ c answer after, s.workers i ≠ .replying c answer after)
    (hwaiting : pos = .waiting → s.isActive i = false)
    (hheld : lock = some .receiver → s.lock i = some .receiver)
    (hexit : pos ≠ .replied .exit) :
    Settled { s with
      lock := Function.update s.lock i lock
      workers := Function.update s.workers i pos } g :=
  h.worker rfl rfl rfl (Function.update_eq_self _ _).symm rfl id hattends hanswer hwaiting hheld
    fun heq => absurd heq hexit

/-- A worker goes on and keeps the lock as it is. -/
theorem Settled.stay {pos : WorkerPos} (h : Settled s g)
    (hattends : Attends (s.workers i) (s.isActive i) → Attends pos (s.isActive i))
    (hanswer : ∀ c answer after, s.workers i ≠ .replying c answer after)
    (hwaiting : pos = .waiting → s.isActive i = false) (hexit : pos ≠ .replied .exit) :
    Settled { s with workers := Function.update s.workers i pos } g := by
  have hheld : s.lock i = some .receiver → s.lock i = some .receiver := id
  have hmove := h.move hattends hanswer hwaiting hheld hexit
  rw [Function.update_eq_self] at hmove
  exact hmove

theorem settled_execute (h : Settled s g) (hinv : Inv n s g) (hpos : s.workers i = .executing)
    (hs : s.execute sys i = some s') : ∃ g', Inv n s' g' ∧ Settled s' g' := by
  have hanswer : ∀ c answer after, s.workers i ≠ .replying c answer after := by simp [hpos]
  obtain ⟨hlock, hexited, hserver⟩ := execute_others hs
  obtain ⟨g', hinv', hanswers | ⟨rfl, hreceiver, hactive, pos, hpos', hworkers⟩⟩ :=
    inv_execute hinv hpos hs
  · exact ⟨g', hinv', h.answers hanswer hanswers hlock hexited (by rw [hserver])⟩
  · refine ⟨g', hinv', h.worker (by rw [hserver]) hreceiver hworkers
      (hactive.trans (Function.update_eq_self i _).symm)
      (hlock.trans (Function.update_eq_self i _).symm) (fun hexit => hexited.trans hexit)
      ?_ hanswer ?_ id ?_⟩
    all_goals
      rcases hpos' with rfl | rfl
      all_goals simp [Attends]

theorem settled_openPast (h : Settled s g) (hinv : Inv n s g) (hpos : s.workers i = .opening)
    (hs : s.openPast i = some s') : ∃ g', Inv n s' g' ∧ Settled s' g' := by
  have hanswer : ∀ c answer after, s.workers i ≠ .replying c answer after := by simp [hpos]
  obtain ⟨hlock, hexited, hserver⟩ := openPast_others hs
  obtain ⟨g', hinv', hanswers⟩ := inv_openPast hinv hpos hs
  exact ⟨g', hinv', h.answers hanswer hanswers hlock hexited (by rw [hserver])⟩

theorem settled_close (h : Settled s g) (hinv : Inv n s g) (hpos : s.workers i = .closing)
    (hs : s.close i = some s') : ∃ g', Inv n s' g' ∧ Settled s' g' := by
  have hanswer : ∀ c answer after, s.workers i ≠ .replying c answer after := by simp [hpos]
  obtain ⟨hlock, hexited, hserver⟩ := close_others hs
  obtain ⟨g', hinv', hanswers⟩ := inv_close hinv hpos hs
  exact ⟨g', hinv', h.answers hanswer hanswers hlock hexited (by rw [hserver])⟩

theorem settled_clear (h : Settled s g) (hpos : s.workers i = .replied .next) :
    Settled { s with
      isActive := Function.update s.isActive i false
      server := s.clearBuffer i
      workers := Function.update s.workers i .cleared } g := by
  refine h.worker rfl rfl rfl rfl (Function.update_eq_self i _).symm id ?_ ?_ ?_ id ?_
  · rw [hpos]
    exact False.elim
  · simp [hpos]
  · simp
  · simp

theorem settled_workerStep (h : Settled s g) (hinv : Inv n s g)
    (hs : s.workerStep sys i = some s') : ∃ g', Inv n s' g' ∧ Settled s' g' := by
  unfold workerStep at hs
  split at hs
  · rename_i hpos
    split at hs
    · rename_i hfree
      cases hs
      refine ⟨g, inv_enter hinv hpos hfree, h.move ?_ ?_ ?_ ?_ ?_⟩
      · rw [hpos]
        exact id
      all_goals simp [hpos]
    · cases hs
  · rename_i hpos
    split at hs
    · rename_i hactive
      cases hs
      refine ⟨g, inv_see hinv hpos hactive, h.stay (fun _ => trivial) ?_ ?_ ?_⟩
      all_goals simp [hpos]
    · rename_i hactive
      cases hs
      refine ⟨g, inv_wait hinv hpos hactive, h.move ?_ ?_ ?_ ?_ ?_⟩
      · rw [hpos]
        exact fun hup => absurd hup hactive
      all_goals simp [hpos, hactive]
  · rename_i hpos
    cases hs
    refine ⟨g, inv_wake hinv hpos, h.stay ?_ ?_ ?_ ?_⟩
    · rw [hpos]
      exact id
    all_goals simp [hpos]
  · exact settled_execute h hinv ‹_› hs
  · exact settled_openPast h hinv ‹_› hs
  · exact settled_close h hinv ‹_› hs
  · rename_i c answer after hpos
    cases hs
    have hreply := inv_reply hinv hpos
    exact ⟨_, hreply.others s.fs s.shutdownCalled (s.exited || after == .exit),
      settled_reply h hpos⟩
  · cases hs
    exact ⟨g, inv_clear hinv ‹_›, settled_clear h ‹_›⟩
  · rename_i hpos
    cases hs
    refine ⟨g, inv_end hinv hpos, h.move ?_ ?_ ?_ ?_ ?_⟩
    · rw [hpos]
      exact False.elim
    all_goals simp [hpos]
  · cases hs
  · rename_i hpos
    cases hs
    refine ⟨g, inv_leave hinv hpos, h.move ?_ ?_ ?_ ?_ ?_⟩
    · rw [hpos]
      exact False.elim
    all_goals simp [hpos]
  · cases hs

/-! ## Runs -/

/-- The invariants hold in every run of polite clients. -/
theorem reach_settled {tr : Machine.Trace Action Unit}
    (h : (machine sys).Reach Polite (tr, s)) : ∃ g, Inv (mountsSent tr) s g ∧ Settled s g := by
  refine h.invariant (P := fun tr s => ∃ g, Inv (mountsSent tr) s g ∧ Settled s g)
    ⟨_, inv_initial, settled_initial⟩ ?_
  rintro tr s a r s' ⟨g, hinv, hsettled⟩ hpolite hex
  obtain ⟨c, call, rfl, rfl⟩ | ⟨c, rfl, hs⟩ | ⟨rfl, hs⟩ | ⟨i, rfl, hs⟩ := exec_cases hex
  · obtain ⟨hwf, hcalling, hclosed, hmount, hother⟩ := hpolite c call rfl
    rw [mountsSent_send]
    exact ⟨_, inv_send hinv hwf hcalling hclosed hmount hother, settled_send hsettled⟩
  · exact ⟨_, inv_collect hinv hs, settled_collect hsettled hs⟩
  · exact settled_receiverStep hsettled hinv hs
  · exact settled_workerStep hsettled hinv hs

/-! ## Where nothing is left to do -/

/-- A receiver that is ready goes on, if there is a request on the pipe. -/
theorem take_some (h : Settled s g) (hinv : Inv n s g) (hready : s.receiver = .ready)
    (hqueue : g.queue ≠ []) : s.take ≠ none := by
  have hpipe : s.pipe = stream (g.queue.map Prod.snd) := by
    have hreceiver := hinv.receiver
    rw [ReceiverOk, hready] at hreceiver
    exact hreceiver
  obtain ⟨⟨c, r⟩, rest, hcons⟩ := List.exists_cons_of_ne_nil hqueue
  have hclient := hinv.client c
  obtain ⟨hwf, -, hkind⟩ :=
    hclient.request r .queue (hinv.queued c r (hcons ▸ List.mem_cons_self))
  rw [hcons, List.map_cons, stream_cons] at hpipe
  obtain hmount | ⟨hm, hreceived, hsid⟩ := hkind
  · -- the mounts sent leave a session for this one
    have hm : r.call.isMount = true := by
      rw [hmount]
      rfl
    have hcounted := hinv.counted
    rw [hcons, List.map_cons, mounts_cons, if_pos hm] at hcounted
    have hbounded := hinv.bounded
    have hstarted := h.started
    have hlt : (s.server.nextSessionId - 1).toNat < maxClients := by
      simp only [maxClients]
      push_cast at hcounted
      omega
    have hindex : index? maxClients (s.server.nextSessionId - 1) =
        some ⟨(s.server.nextSessionId - 1).toNat, hlt⟩ := by
      rw [index?_eq_some]
      simp only
      omega
    rw [Request.bytes_of_mount hmount hwf, List.cons_append] at hpipe
    unfold take
    rw [hpipe]
    simp [hindex]
  · obtain ⟨i, -, hid⟩ := hclient.known hreceived
    have hlt := i.isLt
    have hint : IsInt r.sessionId := by
      simp only [maxClients] at hlt
      rw [hsid, hid]
      simp only [IsInt]
      omega
    have hindex : index? maxClients (r.sessionId - 1) = some i := by
      rw [index?_eq_some, hsid, hid]
      omega
    rw [Request.bytes_of_not_mount hm hwf, List.cons_append, List.append_assoc] at hpipe
    unfold take
    rw [hpipe]
    simp [ApiCall.opCode_ne_mount hm, readBytes_append (length_intBytes _ _), leInt_int hint,
      hindex]

/-- A handler that does not answer is that of a shutdown that waits, or the library crashes. -/
theorem handle_none {backend : Backend} {call : ApiCall} (hm : call.isMount = false)
    (hshutdown : call ≠ .shutdown) (h : handle sys backend call = none) :
    ∃ lc, call.copyCall = some lc ∧ Part2.exec backend.fs lc = none := by
  cases call with
  | mount path => cases hm
  | unmount => cases h
  | shutdown => exact absurd rfl hshutdown
  | «open» name flags => cases h
  | close fhandle => cases h
  | write fhandle buffer =>
      refine ⟨_, rfl, ?_⟩
      simp only [handle, caseWriteReply] at h
      split at h
      · split at h
        · simpa [Part2.exec]
        · cases h
      · cases h
  | read fhandle len =>
      refine ⟨_, rfl, ?_⟩
      simp only [handle, caseReadReply] at h
      split at h
      · split at h
        · simpa [Part2.exec]
        · split at h
          · cases h
          · cases h
      · cases h

/-- A worker that cannot execute its request calls a function of the library that crashes. -/
theorem execute_none {call : ApiCall} (hcall : threadHandler (s.server.sessions i) = some call)
    (htx : call.isMount = false → s.tx i = some c) (hs : s.execute sys i = none) :
    ∃ lc, call.copyCall = some lc ∧ Part2.exec s.fs lc = none := by
  have hlibrary : call.isMount = false → call ≠ .shutdown → s.executeCall sys i call = none →
      ∃ lc, call.copyCall = some lc ∧ Part2.exec s.fs lc = none := by
    intro hm hshutdown hs
    simp only [executeCall, htx hm] at hs
    split at hs
    · rename_i hhandle
      exact handle_none hm hshutdown hhandle
    · cases hs
  unfold execute at hs
  rw [hcall] at hs
  cases call with
  | mount path => cases hs
  | shutdown =>
      simp only [htx rfl] at hs
      split at hs
      · cases hs
      · cases hs
  | unmount => exact hlibrary rfl (by simp) hs
  | «open» name flags =>
      dsimp only at hs
      split at hs
      · exact hlibrary rfl (by simp) hs
      · cases hs
  | close fhandle => exact hlibrary rfl (by simp) hs
  | write fhandle buffer => exact hlibrary rfl (by simp) hs
  | read fhandle len => exact hlibrary rfl (by simp) hs

/-- An open past the check of the flag goes on. -/
theorem openPast_ne_none (hinv : Inv n s g) (hpos : s.workers i = .opening) :
    s.openPast i ≠ none := by
  have hworker := hinv.worker i
  rw [hpos] at hworker
  obtain ⟨c, r, closed, hi, ⟨name, flags, hr⟩, hholds⟩ := hworker.2
  obtain ⟨howner, hphase, -⟩ := owner_of_seat hi
  have htx : s.tx i = some c := hinv.tx_owner howner hphase.symm (by rw [hr]; rfl)
  have hwf := ((hinv.client c).request r .session hphase.symm).1
  have hcall := threadHandler_of_holds hwf hholds
  rw [hr] at hcall
  simp [openPast, htx, hcall]

/-- Neither the receiver nor a worker has anything left to do. A worker that waits may always
wake up without a signal, and look again. -/
def Quiet (sys : System) (s : Hub) : Prop :=
  s.receiverStep = none ∧ ∀ i, s.workers i ≠ .waiting → s.workerStep sys i = none

instance (sys : System) (s : Hub) : Decidable (s.Quiet sys) :=
  inferInstanceAs (Decidable (s.receiverStep = none ∧
    ∀ i, s.workers i ≠ .waiting → s.workerStep sys i = none))

/-- A worker with the lock is stopped by a request only. -/
theorem Quiet.worker (hquiet : s.Quiet sys) (h : Settled s g) (hinv : Inv n s g)
    (hexited : s.exited = false) (hold : (s.workers i).Holding) :
    s.workers i = .executing ∨ s.workers i = .closing := by
  cases hpos : s.workers i with
  | executing => exact Or.inl rfl
  | closing => exact Or.inr rfl
  | opening =>
      have hstep := hquiet.2 i (by simp [hpos])
      simp only [workerStep, hpos] at hstep
      exact absurd hstep (openPast_ne_none hinv hpos)
  | outside =>
      rw [hpos] at hold
      exact hold.elim
  | waiting =>
      rw [hpos] at hold
      exact hold.elim
  | ended =>
      rw [hpos] at hold
      exact hold.elim
  | replied after =>
      cases after with
      | exit =>
          have hexit := h.exits i hpos
          rw [hexited] at hexit
          cases hexit
      | next =>
          have hstep := hquiet.2 i (by simp [hpos])
          simp [workerStep, hpos] at hstep
      | finish =>
          have hstep := hquiet.2 i (by simp [hpos])
          simp [workerStep, hpos] at hstep
  | checking =>
      have hstep := hquiet.2 i (by simp [hpos])
      simp only [workerStep, hpos] at hstep
      split at hstep
      · cases hstep
      · cases hstep
  | replying c answer after =>
      have hstep := hquiet.2 i (by simp [hpos])
      simp [workerStep, hpos] at hstep
  | cleared =>
      have hstep := hquiet.2 i (by simp [hpos])
      simp [workerStep, hpos] at hstep

/-- The receiver does not wait for the lock of a session in vain: the request of its client is
in the hands of the receiver. -/
theorem Quiet.receiver (hquiet : s.Quiet sys) (h : Settled s g) (hinv : Inv n s g)
    (hexited : s.exited = false) : s.receiver = .ready ∧ g.queue = [] := by
  have hstep := hquiet.1
  have hreceiver := hinv.receiver
  unfold ReceiverOk at hreceiver
  unfold receiverStep at hstep
  cases hpos : s.receiver with
  | ready =>
      rw [hpos] at hstep
      refine ⟨rfl, ?_⟩
      by_contra hqueue
      exact take_some h hinv hpos hqueue hstep
  | taken i header =>
      rw [hpos] at hstep hreceiver
      obtain ⟨c, r, closed, hi, -⟩ := hreceiver
      have hworker := hinv.worker i
      rw [hi] at hworker
      have hnot : ∀ {c' r'} {closed' : Bool},
          some (Seat.mk c (.waiting r .hand) closed) ≠ some ⟨c', .waiting r' .session, closed'⟩ := by
        simp
      cases hlock : s.lock i with
      | none => simp [hlock] at hstep
      | some holder =>
          cases holder with
          | receiver =>
              have hlocks := h.locks i hlock
              rw [hpos] at hlocks
              exact hlocks.elim
          | worker =>
              obtain hworking | hworking :=
                hquiet.worker h hinv hexited (hworker.1.mpr hlock)
              · rw [hworking] at hworker
                obtain ⟨c', r', closed', hseat, -⟩ := hworker.2
                exact absurd hseat hnot
              · rw [hworking] at hworker
                obtain ⟨c', r', closed', hseat, -⟩ := hworker.2
                exact absurd hseat hnot
  | locked i header =>
      rw [hpos] at hstep hreceiver
      obtain ⟨hlock, c, r, closed, hi, hheader, hwf, hpipe⟩ := hreceiver
      obtain ⟨session, -, -, hfill⟩ := fill_holds hinv hheader hwf hpipe
      simp only [hfill] at hstep
      cases hstep
  | filled i => simp [hpos] at hstep
  | active i => simp [hpos] at hstep
  | leaving i => simp [hpos] at hstep

/-- The request in a session is one that the library crashed on, or a shutdown that waits for
the open files. -/
theorem Quiet.session {r : Request} (hquiet : s.Quiet sys) (h : Settled s g) (hinv : Inv n s g)
    (hexited : s.exited = false) (hphase : g.phase c = .waiting r .session) :
    r.call = .shutdown ∧ s.fs.openFilesCount ≠ 0 ∨
      ∃ lc, r.call.copyCall = some lc ∧ Part2.exec s.fs lc = none := by
  obtain ⟨hready, -⟩ := hquiet.receiver h hinv hexited
  obtain ⟨i, howner, hfilled | hattends⟩ := h.inSession c r hphase
  · rw [hready] at hfilled
    cases hfilled
  have hworker := hinv.worker i
  rw [seat_of_owner howner, hphase] at hworker
  have hfree : s.lock i ≠ some .receiver := by
    intro hlock
    have hlocks := h.locks i hlock
    rw [hready] at hlocks
    exact hlocks
  have hwf := ((hinv.client c).request r .session hphase).1
  cases hpos : s.workers i with
  | outside =>
      rw [hpos] at hworker
      have hstep := hquiet.2 i (by simp [hpos])
      cases hlock : s.lock i with
      | none => simp [workerStep, hpos, hlock] at hstep
      | some holder =>
          cases holder with
          | receiver => exact absurd hlock hfree
          | worker => exact (hworker.1.mpr hlock).elim
  | waiting =>
      rw [hpos] at hattends
      have hactive := h.awake i hpos hattends
      rw [hready] at hactive
      cases hactive
  | checking =>
      obtain hworking | hworking := hquiet.worker h hinv hexited (by rw [hpos]; trivial)
      · rw [hpos] at hworking
        cases hworking
      · rw [hpos] at hworking
        cases hworking
  | executing =>
      have hstep := hquiet.2 i (by simp [hpos])
      rw [hpos] at hworker
      obtain ⟨c', r', closed', hseat, hholds⟩ := hworker.2
      cases hseat
      simp only [workerStep, hpos] at hstep
      exact Or.inr (execute_none (threadHandler_of_holds hwf hholds)
        (hinv.tx_owner howner hphase) hstep)
  | opening =>
      have hstep := hquiet.2 i (by simp [hpos])
      simp only [workerStep, hpos] at hstep
      exact absurd hstep (openPast_ne_none hinv hpos)
  | closing =>
      have hstep := hquiet.2 i (by simp [hpos])
      rw [hpos] at hworker
      obtain ⟨c', r', closed', hseat, hshutdown, -⟩ := hworker.2
      cases hseat
      refine Or.inl ⟨hshutdown, ?_⟩
      intro hnone
      have htx := hinv.tx_owner howner hphase (by rw [hshutdown]; rfl)
      simp [workerStep, hpos, close, htx, caseShutdownReply, hnone] at hstep
  | replying c' answer after =>
      rw [hpos] at hattends
      exact hattends.elim
  | replied after =>
      rw [hpos] at hattends
      exact hattends.elim
  | cleared =>
      rw [hpos] at hattends
      exact hattends.elim
  | ended =>
      rw [hpos] at hattends
      exact hattends.elim

end Hub

/-- In every run of polite clients, where neither the receiver nor a worker has anything left to do
and the server has not exited: the whole answer to a client that still waits is written, one answer
and no other (the reads of the client may not take it, `ApiCall.takes`); except where the library
crashed on a read or a write, and except for the client that asked for the shutdown while files are
open. -/
theorem requests_answered (sys : System) (tr : Machine.Trace Hub.Action Unit) (s : Hub)
    (h : (Hub.machine sys).Reach Hub.Polite (tr, s)) (hquiet : s.Quiet sys)
    (hexited : s.exited = false) (c : CString) (call : ApiCall)
    (hcalling : (s.clients c).calling = some call) :
    (∃ answer, s.replies c = [answer]) ∨ call = .shutdown ∧ s.fs.openFilesCount ≠ 0 ∨
      ∃ lc, call.copyCall = some lc ∧ exec s.fs lc = none := by
  obtain ⟨g, hinv, hsettled⟩ := Hub.reach_settled h
  have hclient := hinv.client c
  obtain ⟨hready, hqueue⟩ := hquiet.receiver hsettled hinv hexited
  cases hphase : g.phase c with
  | idle =>
      rw [hclient.idle hphase] at hcalling
      cases hcalling
  | waiting r place =>
      rw [hclient.calling r place hphase] at hcalling
      cases hcalling
      cases place with
      | queue =>
          have hmem := hsettled.queued c r hphase
          rw [hqueue] at hmem
          cases hmem
      | hand =>
          obtain ⟨i, header, -, hpos | hpos⟩ := hsettled.inHand c r hphase
          · rw [hready] at hpos
            cases hpos
          · rw [hready] at hpos
            cases hpos
      | session => exact Or.inr (hquiet.session hsettled hinv hexited hphase)
  | answered answer =>
      obtain ⟨i, after, hpos⟩ := hsettled.answered c answer hphase
      obtain hworking | hworking := hquiet.worker hsettled hinv hexited
        (i := i) (by rw [hpos]; trivial)
      · rw [hpos] at hworking
        cases hworking
      · rw [hpos] at hworking
        cases hworking
  | replied answer =>
      have hhistory := hclient.history
      rw [hphase] at hhistory
      exact Or.inl ⟨answer, hhistory.1⟩

/-- The workers go round their loops, and a client mounts, opens a file and reads at its end: the
answer is the result 0, and the client waits for more. -/
theorem requests_answered_read : ∃ s : Hub, s.Quiet ampleSystem ∧
    (s.clients pathA).calling = some (.read 0 4) ∧
    s.replies pathA = [[intBytes sizeofSsizeT 0]] ∧
    ((∃ answer, s.replies pathA = [answer]) ∨
      ApiCall.read 0 4 = .shutdown ∧ s.fs.openFilesCount ≠ 0 ∨
      ∃ lc, (ApiCall.read 0 4).copyCall = some lc ∧ exec s.fs lc = none) := by
  let rounds : List Hub.Action :=
    (List.finRange maxClients).flatMap fun i => [.work i, .work i]
  have hplay : ((Hub.machine ampleSystem).play Hub.Polite ([], Hub.initial)
      (rounds ++ [.send pathA (.mount pathA)] ++ Hub.serve 0 ++
        [.collect pathA, .send pathA (.open pathA tfsOCreat)] ++ Hub.serve 0 ++
        [.work 0, .collect pathA, .send pathA (.read 0 4)] ++ Hub.serve 0 ++
        [.work 0, .work 0])).map
      (fun cfg => decide (cfg.2.Quiet ampleSystem ∧ cfg.2.exited = false ∧
        (cfg.2.clients pathA).calling = some (.read 0 4) ∧
        cfg.2.replies pathA = [[intBytes sizeofSsizeT 0]])) = some true := by
    decide +kernel
  obtain ⟨⟨tr, s⟩, hplay, hfacts⟩ := Option.map_eq_some_iff.mp hplay
  obtain ⟨hquiet, hexited, hcalling, hreplies⟩ := of_decide_eq_true hfacts
  have hreach : (Hub.machine ampleSystem).Reach Hub.Polite (tr, s) :=
    Machine.Reach.start.play hplay
  exact ⟨s, hquiet, hcalling, hreplies,
    requests_answered ampleSystem tr s hreach hquiet hexited pathA _ hcalling⟩

end TecnicoFS.Part2
