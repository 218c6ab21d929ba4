import TecnicoFS.Part2.Framing
import Mathlib.Data.List.Forall2

/-!
# Part 2: the stream of requests

The bytes of many requests lie end to end on the server pipe, with nothing
between them. A request the loop accepts is taken whole, so what follows it is
read from its first byte; by induction over the list the requests come back one by
one, in order (`requests_recovered`). A request with a session id out of range is
rejected, but only after the array of sessions has been indexed with the id, and
what is left of it on the pipe is read as the next request (`rejected_alone_iff`).
-/

namespace TecnicoFS.Part2

open Loop

/-- The bytes of a list of requests on the pipe. -/
def stream (requests : List Request) : List UInt8 := requests.flatMap Request.bytes

/-- The number of mounts in a list of requests. -/
def mounts (requests : List Request) : Nat := requests.countP fun r => r.call.isMount

@[simp] theorem stream_nil : stream [] = [] := rfl

@[simp] theorem stream_cons (r : Request) (requests : List Request) :
    stream (r :: requests) = r.bytes ++ stream requests := rfl

@[simp] theorem stream_append (requests requests' : List Request) :
    stream (requests ++ requests') = stream requests ++ stream requests' :=
  List.flatMap_append

theorem mounts_cons (r : Request) (requests : List Request) :
    mounts (r :: requests) = mounts requests + if r.call.isMount then 1 else 0 :=
  List.countP_cons

/-! ## Requests and posted sessions -/

namespace Request

/-- The session id is one the server gives out. A mount carries none. -/
def InRange (r : Request) : Prop :=
  r.call.isMount = true ∨ 1 ≤ r.sessionId ∧ r.sessionId ≤ maxClients

/-- The request as the server numbers it: a mount gets the next session id. -/
def numbered (next : Int) (r : Request) : Request :=
  if r.call.isMount then ⟨next, r.call⟩ else r

end Request

/-- The requests as the server numbers them, the first mount getting `next`. -/
def numbered : Int → List Request → List Request
  | _, [] => []
  | next, r :: requests =>
      r.numbered next :: numbered (next + if r.call.isMount then 1 else 0) requests

/-- The posted session is the one of the request, and its handler makes the call
of the request. -/
def Carries (post : Fin maxClients × Session) (r : Request) : Prop :=
  ((post.1 : Nat) : Int) + 1 = r.sessionId ∧ post.2.sessionId = r.sessionId ∧
    threadHandler post.2 = some r.call

/-- Every session knows its own number. -/
def Server.Numbered (server : Server) : Prop :=
  ∀ i, (server.sessions i).sessionId = (i : Nat) + 1

theorem startSessions_numbered : startSessions.Numbered := fun _ => rfl

theorem Server.Numbered.fill {server : Server} {i : Fin maxClients} {session : Session}
    (h : ∀ j, j ≠ i → (server.sessions j).sessionId = (j : Nat) + 1)
    (hsession : session.sessionId = (i : Nat) + 1) : (server.fill i session).Numbered := by
  intro j
  by_cases hj : j = i
  · subst hj
    rw [Server.fill_sessions, Function.update_self, hsession]
  · rw [Server.fill_sessions, Function.update_of_ne hj, h j hj]

theorem posts_append (es es' : List Event) : posts (es ++ es') = posts es ++ posts es' :=
  List.filterMap_append

/-! ## One request -/

/-- An iteration that posts a session takes the request and carries it. -/
theorem Posts.takes {r r' : Request} {server server' : Server} {i : Fin maxClients}
    (h : Posts (receive server) server' i r'.sessionId r.bytes r.bytes)
    (hwf : r.call.WellFormed) (hcall : r'.call = r.call)
    (hi : ((i : Nat) : Int) + 1 = r'.sessionId)
    (hnum : ∀ j, j ≠ i → (server'.sessions j).sessionId = (j : Nat) + 1) :
    ∃ es server'' post, posts es = [post] ∧ Carries post r' ∧ server''.Numbered ∧
      server''.nextSessionId = server'.nextSessionId ∧ Takes receive server r.bytes es server'' := by
  rcases h with ⟨session, hsid, hholds, hstep⟩
  refine ⟨_, server'.fill i session, (i, session), ?_, ⟨hi, hsid, ?_⟩, ?_, rfl,
    Takes.single receive_progress hstep⟩
  · rfl
  · rw [threadHandler_of_holds hwf hholds, hcall]
  · exact Server.Numbered.fill hnum (hsid.trans hi.symm)

/-- A request with a session id in range, or a mount while ids are left, is posted. -/
theorem request_takes {r : Request} {server : Server} (hwf : r.call.WellFormed)
    (hrange : r.InRange) (hnum : server.Numbered) (hlo : 1 ≤ server.nextSessionId)
    (hhi : r.call.isMount = true → server.nextSessionId ≤ 63) :
    ∃ es server' post, posts es = [post] ∧ Carries post (r.numbered server.nextSessionId) ∧
      server'.Numbered ∧
      server'.nextSessionId = server.nextSessionId + (if r.call.isMount then 1 else 0) ∧
      Takes receive server r.bytes es server' := by
  cases hm : r.call.isMount with
  | true =>
      rcases receive_mount_posts server hm hwf hlo (hhi hm) with ⟨i, hi, hposts⟩
      have hr : r.numbered server.nextSessionId = ⟨server.nextSessionId, r.call⟩ := by
        rw [Request.numbered, hm]
        rfl
      rw [hr, if_pos rfl]
      let mounted : Request := ⟨server.nextSessionId, r.call⟩
      have hmounted : Posts (receive server)
          { server with nextSessionId := server.nextSessionId + 1 } i mounted.sessionId
          r.bytes r.bytes := hposts
      exact hmounted.takes hwf rfl hi fun j _ => hnum j
  | false =>
      have hsid : 1 ≤ r.sessionId ∧ r.sessionId ≤ maxClients := by
        rcases hrange with hmount | hsid
        · rw [hm] at hmount
          cases hmount
        · exact hsid
      rcases receive_posts server hm hwf hsid.1 hsid.2 with ⟨i, hi, hposts⟩
      have hr : r.numbered server.nextSessionId = r := by
        rw [Request.numbered, hm]
        rfl
      rw [hnum i, hi] at hposts
      rw [hr, if_neg (by decide), Int.add_zero]
      exact hposts.takes hwf rfl hi fun j _ => hnum j

/-! ## A list of requests -/

/-- The induction over the stream: the requests are posted one by one. -/
theorem requests_taken (requests : List Request) :
    ∀ server : Server, server.Numbered → 1 ≤ server.nextSessionId →
      (∀ r ∈ requests, r.call.WellFormed ∧ r.InRange) →
      server.nextSessionId + mounts requests ≤ 64 →
      ∃ es server', Takes receive server (stream requests) es server' ∧
        List.Forall₂ Carries (posts es) (numbered server.nextSessionId requests) := by
  induction requests with
  | nil =>
      intro server _ _ _ _
      exact ⟨[], server, Takes.refl, List.Forall₂.nil⟩
  | cons r requests ih =>
      intro server hnum hlo hreqs hmounts
      rcases hreqs r List.mem_cons_self with ⟨hwf, hrange⟩
      rw [mounts_cons] at hmounts
      -- the mounts that are still to come leave a session for this one
      have hroom : r.call.isMount = true → server.nextSessionId ≤ 63 := by
        intro hm
        rw [hm, if_pos rfl] at hmounts
        omega
      rcases request_takes hwf hrange hnum hlo hroom with
        ⟨es, server1, post, hpost, hcarries, hnum1, hnext1, htakes⟩
      have hlo1 : 1 ≤ server1.nextSessionId := by
        rw [hnext1]
        split <;> omega
      have hmounts1 : server1.nextSessionId + mounts requests ≤ 64 := by
        push_cast at hmounts
        rw [hnext1]
        split at hmounts
        · rw [if_pos ‹_›]
          omega
        · rw [if_neg ‹_›]
          omega
      rcases ih server1 hnum1 hlo1 (fun r hr => hreqs r (List.mem_cons_of_mem _ hr)) hmounts1 with
        ⟨es', server2, htakes', hall⟩
      refine ⟨es ++ es', server2, htakes.append htakes', ?_⟩
      rw [posts_append, hpost, numbered, ← hnext1]
      exact List.Forall₂.cons hcarries hall

/-- The loop recovers the requests from the pipe, in order, and consumes all the
bytes. -/
theorem requests_recovered (requests : List Request)
    (hreqs : ∀ r ∈ requests, r.call.WellFormed ∧ r.InRange) (hmounts : mounts requests ≤ 63) :
    List.Forall₂ Carries (posts (run receive startSessions (stream requests)).1)
        (numbered 1 requests) ∧
      ∃ server, (run receive startSessions (stream requests)).2 = .waiting server [] := by
  have hroom : startSessions.nextSessionId + mounts requests ≤ 64 := by
    have hnext : startSessions.nextSessionId = 1 := rfl
    omega
  rcases requests_taken requests startSessions startSessions_numbered le_rfl hreqs hroom with
    ⟨es, server, htakes, hall⟩
  rw [htakes.run_eq rfl]
  exact ⟨hall, server, rfl⟩

/-- One client mounts, creates a file, writes two bytes, reads and leaves. -/
def oneSession : List Request :=
  [⟨0, .mount ⟨[99], by simp⟩⟩, ⟨1, .open ⟨[47, 102], by simp⟩ 1⟩, ⟨1, .write 0 [104, 105]⟩,
    ⟨1, .read 0 2⟩, ⟨1, .close 0⟩, ⟨1, .unmount⟩]

theorem requests_recovered_oneSession :
    List.Forall₂ Carries (posts (run receive startSessions (stream oneSession)).1)
        (numbered 1 oneSession) ∧
      ∃ server, (run receive startSessions (stream oneSession)).2 = .waiting server [] := by
  apply requests_recovered
  · intro r hr
    simp only [oneSession, List.mem_cons, List.not_mem_nil, or_false] at hr
    rcases hr with rfl | rfl | rfl | rfl | rfl | rfl <;>
      norm_num [ApiCall.WellFormed, Request.InRange, ApiCall.isMount, IsInt, CString.strlen]
  · decide

/-! ## Waiting for a request -/

/-- The events of an iteration that is in the middle of a request: nothing is posted yet, and the
array of sessions is indexed inside its bounds. -/
def Harmless (es : List Event) : Prop :=
  posts es = [] ∧ ∀ j ∈ indices es, 0 ≤ j ∧ j < (maxClients : Int)

theorem harmless_nil : Harmless [] := ⟨rfl, fun _ hj => absurd hj List.not_mem_nil⟩

theorem harmless_index (i : Fin maxClients) (more : List Event) (hposts : posts more = [])
    (hindices : indices more = []) : Harmless (.index (i : Nat) :: more) := by
  refine ⟨hposts, fun j hj => ?_⟩
  have hone : indices (.index (i : Nat) :: more) = [((i : Nat) : Int)] := by
    rw [← hindices]
    rfl
  rw [hone, List.mem_singleton] at hj
  have hlt := i.isLt
  omega

section

variable {server : Server} {i : Fin maxClients} {session : Session} {sessionId : Int}
  {opCode : UInt8} {rest : List UInt8}

theorem fillAndPost_wait {offset count : Nat} :
    (fillAndPost server i session offset count rest).2 = .wait →
      Harmless (fillAndPost server i session offset count rest).1 := by
  unfold fillAndPost
  split
  · exact fun _ => harmless_index i [] rfl rfl
  · exact fun h => by cases h

theorem fillMount_wait : (fillMount server i sessionId rest).2 = .wait →
    Harmless (fillMount server i sessionId rest).1 := by
  unfold fillMount
  dsimp only
  split
  · split
    · exact fun _ => harmless_index i [.refuse i] rfl rfl
    · exact fun h => by cases h
  · exact fillAndPost_wait

theorem receiveWrite_wait : (receiveWrite server i session rest).2 = .wait →
    Harmless (receiveWrite server i session rest).1 := by
  unfold receiveWrite
  split
  · exact fun _ => harmless_index i [] rfl rfl
  split
  · exact fun _ => harmless_index i [] rfl rfl
  dsimp only
  split
  · exact fun h => by cases h
  · exact fillAndPost_wait

theorem receiveBody_wait : (receiveBody server i session opCode rest).2 = .wait →
    Harmless (receiveBody server i session opCode rest).1 := by
  unfold receiveBody
  split
  · exact fillAndPost_wait
  split
  · exact fillAndPost_wait
  split
  · exact receiveWrite_wait
  split
  · exact fillAndPost_wait
  split
  · exact fillAndPost_wait
  · exact fun h => by cases h

/-- An iteration that waits has done nothing yet. -/
theorem receive_wait {input : List UInt8} : (receive server input).2 = .wait →
    Harmless (receive server input).1 := by
  unfold receive
  split
  · exact fun _ => harmless_nil
  split
  · unfold receiveMount
    split
    · exact fun h => by cases h
    · exact fillMount_wait
  · unfold receiveRequest
    split
    · exact fun _ => harmless_nil
    split
    · exact fun h => by cases h
    unfold fillRequest
    split
    · exact fun h => by cases h
    · exact receiveBody_wait

end

/-! ## A request with a session id out of range -/

/-- Where `main` is once it has the bytes of some requests: between two requests, in the middle of
one, out of its loop, or past a store outside its arrays. -/
inductive Position where
  | between
  | inside
  | ended
  | undefined
deriving DecidableEq

/-- The position after these requests. -/
def position (before : List Request) : Position :=
  match (run receive startSessions (stream before)).2 with
  | .waiting _ [] => .between
  | .waiting _ (_ :: _) => .inside
  | .stopped .badOpCode => .ended
  | .stopped _ => .undefined

/-- The request that `main` waits for after these takes up all these bytes, and more. -/
def TakesUp (before : List Request) (bytes : List UInt8) : Prop :=
  match (run receive startSessions (stream before)).2 with
  | .waiting server rest =>
      match (receive server (rest ++ bytes)).2 with
      | .wait => True
      | _ => False
  | .stopped _ => False

/-- What the loop does while it handles `b`, after the requests before it. -/
def handling (before : List Request) (b : Request) : List Event :=
  (run receive startSessions (stream (before ++ [b]))).1.drop
    (run receive startSessions (stream before)).1.length

/-- The request `b` leaves the others alone: the same sessions are posted as
without it, and the array of sessions is indexed inside its bounds. -/
def RejectedAlone (before : List Request) (b : Request) (later : List Request) : Prop :=
  posts (run receive startSessions (stream (before ++ b :: later))).1 =
      posts (run receive startSessions (stream (before ++ later))).1 ∧
    ∀ i ∈ indices (handling before b), 0 ≤ i ∧ i < (maxClients : Int)

variable {before later : List Request} {b : Request}

/-- Between two requests, the loop takes what it has read. -/
theorem position_between (h : position before = .between) :
    ∃ server, Takes receive startSessions (stream before)
      (run receive startSessions (stream before)).1 server := by
  unfold position at h
  split at h
  · rename_i server hend
    rcases run_waiting receive_progress receive_local (Nat.lt_succ_self _) hend with
      ⟨es, -, htakes⟩
    have htakes : Takes receive startSessions (stream before) es server := htakes
    refine ⟨server, ?_⟩
    rw [htakes.run_eq rfl]
    exact htakes
  · cases h
  · cases h
  · cases h

/-- Read from its first byte, the request makes the loop index the array with its id. -/
theorem not_rejectedAlone (hposition : position before = .between)
    (hb : b.call.isMount = false) (hwf : b.call.WellFormed) (hint : IsInt b.sessionId)
    (hout : ¬ (1 ≤ b.sessionId ∧ b.sessionId ≤ maxClients)) : ¬ RejectedAlone before b later := by
  rcases position_between hposition with ⟨server, htakes⟩
  intro halone
  have hstep := receive_out_of_range server hb hwf hint hout []
  have hhandling : handling before b =
      .index (b.sessionId - 1) :: (run receive server b.call.body).1 := by
    have hboth := htakes b.bytes
    rw [← List.append_nil b.bytes, run_next receive_progress hstep, List.append_nil,
      List.append_nil] at hboth
    rw [handling, stream_append, stream_cons, stream_nil, List.append_nil, hboth, List.drop_left]
    rfl
  have hin := halone.2 (b.sessionId - 1) (by rw [hhandling]; exact List.mem_cons_self)
  omega

/-- Once the loop has ended, nothing is read of the request. -/
theorem rejectedAlone_of_ended (h : position before = .ended) : RejectedAlone before b later := by
  unfold position at h
  split at h
  · cases h
  · cases h
  · rename_i hend
    have hstops : Stops receive startSessions (stream before)
        (run receive startSessions (stream before)).1 .badOpCode :=
      fun more => run_stopped receive_progress receive_local (Prod.ext rfl hend) more
    refine ⟨?_, fun j hj => ?_⟩
    · rw [stream_append, stream_append, (hstops.append _).run_eq, (hstops.append _).run_eq]
    · rw [handling, stream_append, (hstops.append _).run_eq, List.drop_length] at hj
      cases hj
  · cases h

theorem takesUp_wait {server : Server} {rest bytes : List UInt8}
    (hend : (run receive startSessions (stream before)).2 = .waiting server rest)
    (h : TakesUp before bytes) : (receive server (rest ++ bytes)).2 = .wait := by
  rw [TakesUp, hend] at h
  dsimp only at h
  split at h
  · assumption
  · exact h.elim

/-- While the loop waits for the rest of an earlier request, it posts nothing. -/
theorem rejectedAlone_of_takesUp (hwith : TakesUp before (b.bytes ++ stream later))
    (hwithout : TakesUp before (stream later)) : RejectedAlone before b later := by
  cases hend : (run receive startSessions (stream before)).2 with
  | stopped why =>
      rw [TakesUp, hend] at hwith
      exact hwith.elim
  | waiting server rest =>
      rcases run_waiting receive_progress receive_local (Nat.lt_succ_self _) hend with
        ⟨es, -, hrun⟩
      -- the events of the iterations that ended, and those of the one that waits
      have hevents : ∀ more, (receive server (rest ++ more)).2 = .wait →
          (run receive startSessions (stream before ++ more)).1 =
            es ++ (receive server (rest ++ more)).1 := by
        intro more hwait
        rw [hrun more, run_wait (Prod.ext rfl hwait)]
      have hall := takesUp_wait hend hwith
      have hlater := takesUp_wait hend hwithout
      rw [← List.append_assoc] at hall
      have hb := receive_local.wait_of_more hall
      rw [List.append_assoc] at hall
      refine ⟨?_, fun j hj => (receive_wait hb).2 j ?_⟩
      · rw [stream_append, stream_append, stream_cons, hevents _ hall, hevents _ hlater,
          posts_append, posts_append, (receive_wait hall).1, (receive_wait hlater).1]
      · rw [handling, stream_append, stream_cons, stream_nil, List.append_nil, hevents _ hb,
          ← List.append_nil (stream before), hrun [], List.length_append,
          List.drop_append] at hj
        rcases List.mem_filterMap.mp hj with ⟨event, hevent, hindex⟩
        refine List.mem_filterMap.mpr ⟨event, ?_, hindex⟩
        rw [List.drop_eq_nil_of_le (Nat.le_add_right _ _), List.nil_append] at hevent
        exact List.mem_of_mem_drop hevent

/-- A close with session id 65 between a mount and the unmount of the client that
mounted: the lock it takes is that of `sessions[64]`. -/
theorem not_rejected_alone_close :
    (ApiCall.close 0).WellFormed ∧ IsInt 65 ∧
      ¬ RejectedAlone [⟨0, .mount ⟨[99], by simp⟩⟩] ⟨65, .close 0⟩ [⟨1, .unmount⟩] := by
  have hwf : (ApiCall.close 0).WellFormed := by
    norm_num [ApiCall.WellFormed, IsInt]
  have hint : IsInt 65 := by norm_num [IsInt]
  exact ⟨hwf, hint, not_rejectedAlone (by decide +kernel) rfl hwf hint (by decide)⟩

/-- A request with a session id out of range does not leave the others alone where `main` comes to
it between two requests. It does where `main` has ended its loop at an unknown operation code, or
where an earlier request takes up all that follows, with it as without it. -/
theorem rejected_alone_iff (before later : List Request) (b : Request)
    (hb : b.call.isMount = false) (hwf : b.call.WellFormed) (hint : IsInt b.sessionId)
    (hout : ¬ (1 ≤ b.sessionId ∧ b.sessionId ≤ maxClients)) :
    (position before = .between → ¬ RejectedAlone before b later) ∧
    (position before = .ended ∨
        TakesUp before (b.bytes ++ stream later) ∧ TakesUp before (stream later) →
      RejectedAlone before b later) := by
  refine ⟨fun hbetween => not_rejectedAlone hbetween hb hwf hint hout, ?_⟩
  rintro (hended | ⟨hwith, hwithout⟩)
  · exact rejectedAlone_of_ended hended
  · exact rejectedAlone_of_takesUp hwith hwithout

/-- An unmount with session id 65 leaves nothing on the pipe, so the close after it is read from its
first byte; the flags and the name of an open with session id 65 are read as an unknown operation
code for session 1. -/
theorem rejected_alone_iff_unmount_open :
    ¬ RejectedAlone [⟨0, .mount ⟨[99], by simp⟩⟩, ⟨65, .unmount⟩] ⟨65, .close 0⟩ [⟨1, .unmount⟩] ∧
      RejectedAlone [⟨0, .mount ⟨[99], by simp⟩⟩, ⟨65, .open ⟨[], by simp⟩ 264⟩] ⟨65, .close 0⟩
        [⟨1, .unmount⟩] := by
  have hwf : (ApiCall.close 0).WellFormed := by
    norm_num [ApiCall.WellFormed, IsInt]
  have hint : IsInt 65 := by norm_num [IsInt]
  constructor
  · exact (rejected_alone_iff _ _ _ rfl hwf hint (by decide)).1 (by decide +kernel)
  · exact (rejected_alone_iff _ _ _ rfl hwf hint (by decide)).2 (Or.inl (by decide +kernel))

end TecnicoFS.Part2
