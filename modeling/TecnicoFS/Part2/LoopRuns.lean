import TecnicoFS.Part2.MainLoop
import TecnicoFS.Part2.Framing

/-!
# Part 2: the receive loop on bytes and the loop of `main`

`receive` has an iteration of the loop of `main` as a function of the bytes on the pipe;
`MainLoop.iteration` has it as a program over the locks, which comes upon whatever a `read` may.
On a pipe that delivers its bytes at once, the program run alone does what the function says, from
one iteration to the next. At a session id out of range both go on behind the id.
-/

namespace TecnicoFS.Part2.MainLoop

open Threads Threads.Prog

variable {input items rest : List UInt8} {count : Nat} {m : Main} {server : Server}
  {i : Fin maxClients} {session : Session} {α : Type}

/-! ## Reads that find everything -/

/-- A pipe that has delivered these bytes. -/
def delivered : List UInt8 → List Arrival
  | [] => []
  | first :: more => [.data first more]

theorem readPipe_delivered (hcount : count ≠ 0) (h : readBytes count input = some (items, rest)) :
    readPipe count (delivered input) = some (some items, delivered rest) := by
  unfold readBytes at h
  split at h
  · rename_i hle
    cases h
    cases input with
    | nil => exact absurd (Nat.le_zero.mp hle) hcount
    | cons first more =>
        rw [delivered, readPipe]
        cases hdrop : (first :: more).drop count with
        | nil =>
            rw [List.take_of_length_le (List.drop_eq_nil_iff.mp hdrop)]
            rfl
        | cons next left => rfl
  · cases h

theorem readBuffer_delivered (h : readBytes count input = some (items, rest)) :
    readBuffer count (delivered input) = some ((true, items), delivered rest) := by
  unfold readBytes at h
  split at h
  · rename_i hle
    cases h
    cases count with
    | zero =>
        rw [List.take_zero, List.drop_zero]
        cases input with
        | nil => rfl
        | cons first more => rfl
    | succ n =>
        cases input with
        | nil => exact absurd hle (Nat.not_succ_le_zero n)
        | cons first more =>
            rw [delivered, readBuffer, List.take_succ_cons, List.drop_succ_cons]
            cases hdrop : more.drop n with
            | nil =>
                have hle' := List.drop_eq_nil_iff.mp hdrop
                rw [Nat.sub_eq_zero_of_le (Nat.le_of_succ_le_succ hle),
                  List.take_of_length_le hle']
                simp [readBuffer, delivered]
            | cons next left => rfl
  · cases h

theorem eval_pipe {k : Option (List UInt8) → Op α} (hcount : count ≠ 0)
    (harrivals : m.arrivals = delivered input) (h : readBytes count input = some (items, rest)) :
    eval ((read count).bind k) m = eval (k (some items)) (m.setArrivals (delivered rest)) := by
  have hread := readPipe_delivered hcount h
  rw [← harrivals] at hread
  have heff : (readPipe count m.arrivals).map (fun p => m.setArrivals p.2) =
      some (m.setArrivals (delivered rest)) := by
    rw [hread]
    rfl
  rw [read, act_bind, eval_act_of_some heff]
  simp only [hread, ret_bind]

theorem eval_session {change : Session → Session} {k : Unit → Op α} :
    eval ((modify? fun m : Main => m.changeSession (i : Nat) change).bind k) m =
      eval (k ()) { m with server := m.server.fill i (change (m.server.sessions i)) } := by
  have heff : m.changeSession (i : Nat) change =
      some { m with server := m.server.fill i (change (m.server.sessions i)) } := by
    rw [Main.changeSession, index?_natCast]
    rfl
  rw [modify?, act_bind, eval_act_of_some heff]
  rfl

theorem eval_buffer {offset : Nat} {k : Bool → Op α} (hfits : offset + count ≤ maxRequestSize)
    (harrivals : m.arrivals = delivered input) (h : readBytes count input = some (items, rest)) :
    eval ((readBufferInto (i : Nat) offset count).bind k) m =
      eval (k true) { m with
        server := m.server.fill i (fill offset items (m.server.sessions i))
        arrivals := delivered rest } := by
  have hread := readBuffer_delivered h
  rw [← harrivals] at hread
  have heff : ((readBuffer count m.arrivals).bind fun p =>
      (m.setArrivals p.2).changeSession (i : Nat) (fill offset p.1.2)) = some { m with
        server := m.server.fill i (fill offset items (m.server.sessions i))
        arrivals := delivered rest } := by
    rw [hread, Option.bind_some, Main.changeSession, index?_natCast]
    rfl
  rw [readBufferInto, if_neg (Nat.not_lt.mpr hfits), act_bind, eval_act_of_some heff]
  simp only [hread, ret_bind]

theorem eval_temp {k : Unit → Op α} (harrivals : m.arrivals = delivered input)
    (h : readBytes count input = some (items, rest)) :
    eval ((readTempBuffer count).bind k) m = eval (k ()) (m.setArrivals (delivered rest)) := by
  have hread := readBuffer_delivered h
  rw [← harrivals] at hread
  have heff : (readBuffer count m.arrivals).map (fun p => m.setArrivals p.2) =
      some (m.setArrivals (delivered rest)) := by
    rw [hread]
    rfl
  rw [readTempBuffer, act_bind, eval_act_of_some heff]
  rfl

theorem eval_postSession :
    eval (postSession (i : Nat)) m =
      some (.completed, { m with isActive := Function.update m.isActive i true }) := by
  have heff : m.activate (i : Nat) =
      some { m with isActive := Function.update m.isActive i true } := by
    rw [Main.activate, index?_natCast]
    rfl
  rw [postSession, bind_eq, modify?, act_bind, eval_act_of_some heff]
  rfl

/-! ## One iteration -/

/-- The server and the bytes on the pipe are these, and the local variables have their sizes. -/
structure Main.Sees (m : Main) (server : Server) (input : List UInt8) : Prop where
  server : m.server = server
  arrivals : m.arrivals = delivered input
  sessionId : m.sessionId.length = sizeofInt
  len : m.len.length = sizeofSizeT

/-- The rest of an iteration ends as the function on bytes says; where that waits, a `read` comes
upon fewer bytes than it asks for. -/
def Follows (prog : Op Ended) (m : Main) : List Event × Outcome Server UInt8 Stop → Prop
  | (_, .wait) => True
  | (_, .stop .badOpCode) => ∃ m', eval prog m = some (.exited, m')
  | (_, .stop _) => eval prog m = none
  | (es, .next server rest) => ∃ e m', eval prog m = some (e, m') ∧ m'.Sees server rest ∧
      e ≠ .exited ∧ (e = .completed ↔ posts es ≠ [])

theorem fill_fill (server : Server) (i : Fin maxClients) (session session' : Session) :
    (server.fill i session).fill i session' = server.fill i session' := by
  simp [Server.fill]

theorem Main.Sees.read {m : Main} (hm : m.Sees server input) (rest : List UInt8) :
    (m.setArrivals (delivered rest)).Sees server rest :=
  ⟨hm.server, rfl, hm.sessionId, hm.len⟩

theorem Main.Sees.readLen {m : Main} (hm : m.Sees server input) {bytes : List UInt8}
    (hlength : bytes.length = sizeofSizeT) :
    (m.setLen bytes).Sees server input ∧ (m.setLen bytes).len = bytes := by
  have hlen : (m.setLen bytes).len = bytes := by
    rw [Main.setLen, List.drop_eq_nil_of_le (by rw [hm.len, hlength]), List.append_nil]
  exact ⟨⟨hm.server, hm.arrivals, hm.sessionId, by rw [hlen, hlength]⟩, hlen⟩

theorem Main.Sees.readSessionId {m : Main} (hm : m.Sees server input) {bytes : List UInt8}
    (hlength : bytes.length = sizeofInt) :
    (m.setSessionId bytes).Sees server input ∧ (m.setSessionId bytes).sessionId = bytes := by
  have hsession : (m.setSessionId bytes).sessionId = bytes := by
    rw [Main.setSessionId, List.drop_eq_nil_of_le (by rw [hm.sessionId, hlength]),
      List.append_nil]
  exact ⟨⟨hm.server, hm.arrivals, by rw [hsession, hlength], hm.len⟩, hsession⟩

theorem Main.Sees.takeSessionId {m : Main} (hm : m.Sees server input) :
    m.takeSessionId.Sees { server with nextSessionId := server.nextSessionId + 1 } input where
  server := by rw [Main.takeSessionId, hm.server]
  arrivals := hm.arrivals
  sessionId := length_intBytes _ _
  len := hm.len

/-- A change of a session. -/
theorem Main.Sees.fill {m : Main} (hm : m.Sees server input) (i : Fin maxClients)
    (session : Session) :
    { m with server := server.fill i session }.Sees (server.fill i session) input :=
  ⟨rfl, hm.arrivals, hm.sessionId, hm.len⟩

/-- A change of the session whose lock `main` holds. -/
theorem Main.Sees.change {m : Main} (hm : m.Sees (server.fill i session) input)
    (session' : Session) :
    { m with server := m.server.fill i session' }.Sees (server.fill i session') input :=
  ⟨by rw [hm.server, fill_fill], hm.arrivals, hm.sessionId, hm.len⟩

theorem Main.Sees.sessions {m : Main} (hm : m.Sees (server.fill i session) input) :
    m.server.sessions i = session := by
  rw [hm.server, Server.fill_sessions, Function.update_self]

/-- The session is handed to its worker as it is. -/
theorem postSession_follows (hm : m.Sees (server.fill i session) input) :
    Follows (postSession (i : Nat)) m
      ([.index (i : Nat), .post i session], .next (server.fill i session) input) :=
  ⟨_, _, eval_postSession, ⟨hm.server, hm.arrivals, hm.sessionId, hm.len⟩, by simp, by simp [posts]⟩

/-- A program that goes on like another one ends like it. -/
theorem Follows.of_eval {prog prog' : Op Ended} {m m' : Main}
    {out : List Event × Outcome Server UInt8 Stop} (heval : eval prog m = eval prog' m')
    (h : Follows prog' m' out) : Follows prog m out := by
  obtain ⟨es, end'⟩ := out
  cases end' with
  | wait => trivial
  | stop why =>
      cases why with
      | badOpCode => exact h.imp fun _ hexit => heval.trans hexit
      | outOfBounds => exact heval.trans h
      | overrun => exact heval.trans h
  | next server rest =>
      obtain ⟨e, m₁, hend, hrest⟩ := h
      exact ⟨e, m₁, heval.trans hend, hrest⟩

theorem readRest_follows {offset : Nat} (hm : m.Sees (server.fill i session) input)
    (hfits : offset + count ≤ maxRequestSize) :
    Follows (readRest (i : Nat) offset count) m
      (fillAndPost server i session offset count input) := by
  unfold fillAndPost
  cases hread : readBytes count input with
  | none => trivial
  | some p =>
      obtain ⟨items, rest⟩ := p
      refine Follows.of_eval (eval_buffer hfits hm.arrivals hread) ?_
      rw [if_pos rfl, hm.sessions]
      exact postSession_follows ((hm.change (fill offset items session)).read rest)

theorem receiveWrite_follows (hm : m.Sees (server.fill i session) input) :
    Follows (receiveWrite (i : Nat)) m (Part2.receiveWrite server i session input) := by
  unfold Part2.receiveWrite
  cases hhandle : readBytes sizeofInt input with
  | none => trivial
  | some p =>
      obtain ⟨handleBytes, rest⟩ := p
      dsimp only
      cases hlength : readBytes sizeofSizeT rest with
      | none => trivial
      | some p =>
          obtain ⟨lenBytes, rest'⟩ := p
          dsimp only
          refine Follows.of_eval (eval_pipe (by decide) hm.arrivals hhandle) ?_
          have hm₁ := hm.read rest
          refine Follows.of_eval eval_session ?_
          have hm₂ := hm₁.change (fill (1 + sizeofInt) handleBytes session)
          rw [hm₁.sessions]
          refine Follows.of_eval (eval_pipe (by decide) hm₂.arrivals hlength) ?_
          obtain ⟨hm₃, hlen⟩ := (hm₂.read rest').readLen (readBytes_length hlength).1
          refine Follows.of_eval (eval_modify _ _ _) (Follows.of_eval (eval_read _ _ _) ?_)
          rw [hlen]
          refine Follows.of_eval eval_session ?_
          rw [hm₃.sessions]
          have hm₄ := hm₃.change (fill (1 + 2 * sizeofInt) lenBytes
            (fill (1 + sizeofInt) handleBytes session))
          split
          · -- the data would run past the end of the buffer
            rename_i hover
            rw [readRest, readBufferInto, if_pos hover]
            rfl
          · rename_i hfits
            exact readRest_follows hm₄ (Nat.not_lt.mp hfits)

theorem receiveBody_follows {opCode : UInt8} (hm : m.Sees (server.fill i session) input) :
    Follows (receiveBody (i : Nat) opCode) m
      (Part2.receiveBody server i session opCode input) := by
  unfold receiveBody Part2.receiveBody
  split
  · exact readRest_follows hm (by decide)
  split
  · exact readRest_follows hm (by decide)
  split
  · exact receiveWrite_follows hm
  split
  · exact readRest_follows hm (by decide)
  split
  · -- nothing follows the session id
    have hread : readBytes 0 input = some ([], input) := rfl
    simp only [fillAndPost, hread, Memory.store_nil]
    exact postSession_follows hm
  · exact ⟨m, rfl⟩

theorem receiveRequest_follows {opCode : UInt8} (hm : m.Sees server input) :
    Follows (receiveRequest opCode) m (Part2.receiveRequest server opCode input) := by
  unfold Part2.receiveRequest
  cases hid : readBytes sizeofInt input with
  | none => trivial
  | some p =>
      obtain ⟨idBytes, rest⟩ := p
      dsimp only
      refine Follows.of_eval (eval_pipe (by decide) hm.arrivals hid) ?_
      obtain ⟨hm₁, hsession⟩ := (hm.read rest).readSessionId (readBytes_length hid).1
      refine Follows.of_eval (eval_modify _ _ _) (Follows.of_eval (eval_read _ _ _) ?_)
      rw [hsession]
      refine Follows.of_eval (eval_lock _ _ _) ?_
      cases hi : index? maxClients (leInt idBytes - 1) with
      | none =>
          have hout : leInt idBytes < 1 ∨ (maxClients : Int) < leInt idBytes := by
            have hnone := index?_eq_none.mp hi
            omega
          rw [if_pos hout]
          exact ⟨.continued, _, rfl, hm₁, by simp, by simp [posts]⟩
      | some i =>
          rw [index?_eq_some.mp hi]
          unfold fillRequest
          split
          · exact ⟨.continued, _, rfl, hm₁, by simp, by simp [posts]⟩
          · refine Follows.of_eval eval_session ?_
            have hbytes := intBytes_leInt idBytes
            rw [(readBytes_length hid).1] at hbytes
            rw [hm₁.server, hbytes]
            exact receiveBody_follows (hm₁.fill i _)

theorem receiveMount_follows (hm : m.Sees server input) :
    Follows receiveMount m (Part2.receiveMount server input) := by
  unfold Part2.receiveMount
  refine Follows.of_eval (eval_lock _ _ _) (Follows.of_eval (eval_read _ _ _) ?_)
  refine Follows.of_eval (eval_modify _ _ _) (Follows.of_eval (eval_lock _ _ _) ?_)
  have hm₁ := hm.takeSessionId
  rw [hm.server]
  cases hi : index? maxClients (server.nextSessionId - 1) with
  | none =>
      -- the array of sessions has no such index
      have heff : ∀ change,
          m.takeSessionId.changeSession (server.nextSessionId - 1) change = none := by
        intro change
        rw [Main.changeSession, hi]
        rfl
      exact eval_act_of_none (heff _)
  | some i =>
      rw [index?_eq_some.mp hi]
      refine Follows.of_eval eval_session (Follows.of_eval (eval_read _ _ _) ?_)
      have hm₂ := hm₁.fill i (fill 0 [tfsOpCodeMount]
        { server.sessions i with sessionId := server.nextSessionId })
      rw [hm₁.server]
      unfold fillMount
      dsimp only
      split
      · rename_i hmany
        have hmany : 64 < server.nextSessionId + 1 := hmany
        rw [if_pos hmany]
        cases hread : readBytes mountSizeServer input with
        | none => trivial
        | some p =>
            obtain ⟨path, rest⟩ := p
            refine Follows.of_eval (eval_unlock _ _ _) ?_
            refine Follows.of_eval (eval_temp hm₂.arrivals hread) ?_
            exact ⟨.continued, _, rfl, hm₂.read rest, by simp, by simp [posts]⟩
      · rename_i hfew
        have hfew : ¬ 64 < server.nextSessionId + 1 := hfew
        rw [if_neg hfew]
        unfold fillAndPost
        cases hread : readBytes mountSizeServer input with
        | none => trivial
        | some p =>
            obtain ⟨path, rest⟩ := p
            refine Follows.of_eval (eval_buffer (by decide) hm₂.arrivals hread) ?_
            rw [if_pos rfl, hm₂.sessions]
            refine Follows.of_eval (eval_unlock _ _ _) ?_
            exact postSession_follows ((hm₂.change _).read rest)

/-- An iteration of the loop of `main` on a pipe that delivers its bytes at once. -/
theorem iteration_follows (hm : m.Sees server input) :
    Follows iteration m (receive server input) := by
  cases input with
  | nil => trivial
  | cons opCode rest =>
      have hread : readBytes 1 (opCode :: rest) = some ([opCode], rest) := by
        simp [readBytes]
      refine Follows.of_eval (eval_unlock _ _ _) ?_
      refine Follows.of_eval (eval_pipe (by decide) hm.arrivals hread) ?_
      have hm₁ := hm.read rest
      show Follows (if opCode = tfsOpCodeMount then receiveMount else receiveRequest opCode) _
        (if opCode = tfsOpCodeMount then Part2.receiveMount server rest
          else Part2.receiveRequest server opCode rest)
      split
      · exact receiveMount_follows hm₁
      · exact receiveRequest_follows hm₁

/-! ## Runs -/

/-- An iteration after which the loop goes on. -/
def GoesOn (m m' : Main) : Prop := ∃ e, eval iteration m = some (e, m') ∧ e ≠ .exited

/-- The loop is left as the one on bytes is. -/
def EndsLike (m : Main) : LoopEnd Server UInt8 Stop → Prop
  | .waiting server rest => m.Sees server rest
  | .stopped .badOpCode => ∃ m', eval iteration m = some (.exited, m')
  | .stopped _ => eval iteration m = none

theorem consume_follows {fuel : Nat} (hm : m.Sees server input) :
    ∃ m', Relation.ReflTransGen GoesOn m m' ∧
      EndsLike m' (Loop.consume receive fuel server input).2 := by
  induction fuel generalizing m server input with
  | zero => exact ⟨m, Relation.ReflTransGen.refl, hm⟩
  | succ fuel ih =>
      have hfollows := iteration_follows hm
      rw [Loop.consume]
      cases hout : receive server input with
      | mk es out =>
          rw [hout] at hfollows
          cases out with
          | wait => exact ⟨m, Relation.ReflTransGen.refl, hm⟩
          | stop why => cases why <;> exact ⟨m, Relation.ReflTransGen.refl, hfollows⟩
          | next server' rest =>
              obtain ⟨e, m₁, heval, hm₁, hmore, -⟩ := hfollows
              obtain ⟨m', hrun, hend⟩ := ih hm₁
              exact ⟨m', Relation.ReflTransGen.head ⟨e, heval, hmore⟩ hrun, hend⟩

/-- The loop of `main`, with whatever in its local variables, takes the bytes of any stream as the
loop on bytes does, and is left as that one is. -/
theorem loop_follows_receive (input sessionId len : List UInt8)
    (hsession : sessionId.length = sizeofInt) (hlen : len.length = sizeofSizeT) :
    ∃ m', Relation.ReflTransGen GoesOn (Main.start (delivered input) sessionId len) m' ∧
      EndsLike m' (Loop.run receive startSessions input).2 :=
  consume_follows ⟨rfl, rfl, hsession, hlen⟩

end TecnicoFS.Part2.MainLoop
