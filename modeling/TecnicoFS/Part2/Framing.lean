import TecnicoFS.Part2.Receiver

/-!
# Part 2: framing

What the client sends, the server reads back: one iteration of the receive loop
takes exactly the bytes of one request from the front of the pipe, leaves them in
the buffer of the session, and the handler finds the arguments of the call in
them. A request with a session id out of range, and a mount after the refused one,
index the array of sessions outside its bounds.
-/

namespace TecnicoFS.Part2

variable {server : Server} {session : Session} {rest : List UInt8} {i : Fin maxClients}

/-! ## Requests -/

/-- A value of the C type `int`. -/
def IsInt (i : Int) : Prop := -2 ^ 31 ≤ i ∧ i < 2 ^ 31

instance : DecidablePred IsInt := fun i => inferInstanceAs (Decidable (-2 ^ 31 ≤ i ∧ i < 2 ^ 31))

namespace ApiCall

/-- The arguments fit the request: paths of at most 39 bytes, at most 2031 bytes
of data, and numbers of their C types. -/
def WellFormed : ApiCall → Prop
  | .mount clientPipePath => clientPipePath.strlen ≤ 39
  | .open name _ => name.strlen ≤ 39
  | .close fhandle => IsInt fhandle
  | .write fhandle buffer => IsInt fhandle ∧ buffer.length ≤ 2031
  | .read fhandle len => IsInt fhandle ∧ len < 2 ^ 64
  | _ => True

instance : DecidablePred WellFormed
  | .mount path => inferInstanceAs (Decidable (path.strlen ≤ 39))
  | .unmount => isTrue trivial
  | .open name _ => inferInstanceAs (Decidable (name.strlen ≤ 39))
  | .close fhandle => inferInstanceAs (Decidable (IsInt fhandle))
  | .write fhandle buffer => inferInstanceAs (Decidable (IsInt fhandle ∧ buffer.length ≤ 2031))
  | .read fhandle len => inferInstanceAs (Decidable (IsInt fhandle ∧ len < 2 ^ 64))
  | .shutdown => isTrue trivial

end ApiCall

/-- A call together with the session id of the client that makes it. -/
structure Request where
  sessionId : Int
  call : ApiCall

namespace Request

/-- The bytes of the request. -/
def bytes (r : Request) : List UInt8 := serverRequest r.sessionId r.call

end Request

/-! ## The handlers -/

theorem leInt_int {n : Int} (h : IsInt n) : leInt (intBytes sizeofInt n) = n := by
  rcases h with ⟨hlo, hhi⟩
  apply leInt_intBytes
  · norm_num [sizeofInt]
    omega
  · norm_num [sizeofInt]
    omega

/-- The buffer of the session starts with these bytes. -/
def Holds (session : Session) (bytes : List UInt8) : Prop :=
  Memory.load session.buffer 0 bytes.length = bytes

/-- A part of the bytes, read from its offset. -/
theorem Holds.part {xs ys zs : List UInt8} {offset count : Nat}
    (h : Holds session (xs ++ (ys ++ zs))) (hoffset : xs.length = offset)
    (hcount : ys.length = count) : Memory.load session.buffer offset count = ys := by
  have hpart := Memory.load_part h
  rwa [Nat.zero_add, hoffset, hcount] at hpart

/-- The last part of the bytes. -/
theorem Holds.last {xs ys : List UInt8} {offset count : Nat} (h : Holds session (xs ++ ys))
    (hoffset : xs.length = offset) (hcount : ys.length = count) :
    Memory.load session.buffer offset count = ys := by
  rw [← List.append_nil ys] at h
  exact h.part hoffset hcount

theorem Holds.opCode {opCode : UInt8} {body : List UInt8} (h : Holds session (opCode :: body)) :
    session.buffer 0 = opCode := by
  have hpart : Holds session ([] ++ ([opCode] ++ body)) := h
  exact List.head_eq_of_cons_eq (hpart.part rfl rfl)

theorem bufferPath_of_holds {front : List UInt8} {s : CString} {offset : Nat}
    (h : Holds session (front ++ padded s)) (hoffset : front.length = offset)
    (hs : s.strlen ≤ 39) : bufferPath session offset = s := by
  rw [bufferPath, h.last hoffset (length_padded (hs.trans (by decide)))]
  apply CString.ofBuffer_padded
  simp only [bufferSize]
  omega

theorem bufferInt_of_holds {front back : List UInt8} {n : Int} {offset : Nat}
    (h : Holds session (front ++ (intBytes sizeofInt n ++ back)))
    (hoffset : front.length = offset) (hn : IsInt n) : bufferInt session offset = n := by
  rw [bufferInt, h.part hoffset (length_intBytes _ _), leInt_int hn]

theorem bufferSizeT_of_holds {front back : List UInt8} {n offset : Nat}
    (h : Holds session (front ++ (leBytes sizeofSizeT n ++ back)))
    (hoffset : front.length = offset) (hn : n < 2 ^ 64) : bufferSizeT session offset = n := by
  rw [bufferSizeT, h.part hoffset (length_leBytes _ _)]
  apply leNat_leBytes_of_lt
  norm_num [sizeofSizeT] at *
  exact hn

/-- The handler of a request in the buffer makes the call that was sent. -/
theorem threadHandler_of_holds {r : Request} (hwf : r.call.WellFormed)
    (h : Holds session r.bytes) : threadHandler session = some r.call := by
  rcases r with ⟨sessionId, call⟩
  unfold Request.bytes at h
  cases call with
  | mount path =>
      have hlen : path.strlen ≤ 39 := hwf
      rw [serverRequest_mount (hlen.trans (by decide))] at h
      have hfield : Holds session ([tfsOpCodeMount] ++ padded path) := h
      have hpath : bufferPath session 1 = path := bufferPath_of_holds hfield rfl hlen
      rw [threadHandler, h.opCode, if_pos rfl, caseMount, hpath]
  | unmount =>
      rw [serverRequest_unmount] at h
      rw [threadHandler, h.opCode, if_neg (by decide), if_pos rfl]
  | «open» name flags =>
      have hlen : name.strlen ≤ 39 := hwf
      rw [serverRequest_open (hlen.trans (by decide))] at h
      -- the parts of the request, each at the offset where the handler reads it
      have hflags : Holds session ((tfsOpCodeOpen :: intBytes sizeofInt sessionId) ++
        (leBytes sizeofInt flags.toNat ++ padded name)) := h
      have hname : Holds session ((tfsOpCodeOpen :: (intBytes sizeofInt sessionId ++
        leBytes sizeofInt flags.toNat)) ++ padded name) := by
        simpa [List.append_assoc] using h
      have hword : leNat (leBytes sizeofInt flags.toNat) = flags.toNat := by
        apply leNat_leBytes_of_lt
        have := flags.isLt
        norm_num [sizeofInt] at *
        omega
      rw [threadHandler, h.opCode, if_neg (by decide), if_neg (by decide), if_pos rfl, caseOpen,
        bufferPath_of_holds hname (by simp [sizeofInt]) hlen,
        hflags.part (by simp [sizeofInt]) (length_leBytes _ _), hword, BitVec.ofNat_toNat,
        BitVec.setWidth_eq]
  | close fhandle =>
      rw [serverRequest_close] at h
      have hhandle : Holds session ((tfsOpCodeClose :: intBytes sizeofInt sessionId) ++
        (intBytes sizeofInt fhandle ++ [])) := by simpa using h
      rw [threadHandler, h.opCode, if_neg (by decide), if_neg (by decide), if_neg (by decide),
        if_pos rfl, caseClose, bufferInt_of_holds hhandle (by simp [sizeofInt]) hwf]
  | write fhandle buffer =>
      rcases hwf with ⟨hint, hlen⟩
      rw [serverRequest_write] at h
      have hhandle : Holds session ((tfsOpCodeWrite :: intBytes sizeofInt sessionId) ++
        (intBytes sizeofInt fhandle ++ (leBytes sizeofSizeT buffer.length ++ buffer))) := h
      have hsize : Holds session ((tfsOpCodeWrite :: (intBytes sizeofInt sessionId ++
        intBytes sizeofInt fhandle)) ++ (leBytes sizeofSizeT buffer.length ++ buffer)) := by
        simpa [List.append_assoc] using h
      have hdata : Holds session ((tfsOpCodeWrite :: (intBytes sizeofInt sessionId ++
        (intBytes sizeofInt fhandle ++ leBytes sizeofSizeT buffer.length))) ++ buffer) := by
        simpa [List.append_assoc] using h
      have hcount : bufferSizeT session (1 + 2 * sizeofInt) = buffer.length :=
        bufferSizeT_of_holds hsize (by simp [sizeofInt]) (by omega)
      rw [threadHandler, h.opCode, if_neg (by decide), if_neg (by decide), if_neg (by decide),
        if_neg (by decide), if_pos rfl, caseWrite, hcount,
        bufferInt_of_holds hhandle (by simp [sizeofInt]) hint,
        hdata.last (by simp [sizeofInt, sizeofSizeT]) rfl]
  | read fhandle len =>
      rcases hwf with ⟨hint, hlen⟩
      rw [serverRequest_read] at h
      have hhandle : Holds session ((tfsOpCodeRead :: intBytes sizeofInt sessionId) ++
        (intBytes sizeofInt fhandle ++ leBytes sizeofSizeT len)) := h
      have hsize : Holds session ((tfsOpCodeRead :: (intBytes sizeofInt sessionId ++
        intBytes sizeofInt fhandle)) ++ (leBytes sizeofSizeT len ++ [])) := by
        simpa [List.append_assoc] using h
      rw [threadHandler, h.opCode, if_neg (by decide), if_neg (by decide), if_neg (by decide),
        if_neg (by decide), if_neg (by decide), if_pos rfl, caseRead,
        bufferInt_of_holds hhandle (by simp [sizeofInt]) hint,
        bufferSizeT_of_holds hsize (by simp [sizeofInt]) hlen]
  | shutdown =>
      rw [serverRequest_shutdown] at h
      rw [threadHandler, h.opCode]
      rfl

/-! ## One iteration -/

namespace ApiCall

/-- The operation code of a call. -/
def opCode : ApiCall → UInt8
  | .mount _ => tfsOpCodeMount
  | .unmount => tfsOpCodeUnmount
  | .open _ _ => tfsOpCodeOpen
  | .close _ => tfsOpCodeClose
  | .write _ _ => tfsOpCodeWrite
  | .read _ _ => tfsOpCodeRead
  | .shutdown => tfsOpCodeShutdownAfterAllClosed

/-- What follows the operation code and the session id. -/
def body : ApiCall → List UInt8
  | .mount path => padded path
  | .unmount => []
  | .open name flags => leBytes sizeofInt flags.toNat ++ padded name
  | .close fhandle => intBytes sizeofInt fhandle
  | .write fhandle buffer =>
      intBytes sizeofInt fhandle ++ (leBytes sizeofSizeT buffer.length ++ buffer)
  | .read fhandle len => intBytes sizeofInt fhandle ++ leBytes sizeofSizeT len
  | .shutdown => []

end ApiCall

theorem ApiCall.opCode_ne_mount {call : ApiCall} (h : call.isMount = false) :
    call.opCode ≠ tfsOpCodeMount := by
  cases call with
  | mount path => cases h
  | unmount => exact (by decide : tfsOpCodeUnmount ≠ tfsOpCodeMount)
  | «open» name flags => exact (by decide : tfsOpCodeOpen ≠ tfsOpCodeMount)
  | close fhandle => exact (by decide : tfsOpCodeClose ≠ tfsOpCodeMount)
  | write fhandle buffer => exact (by decide : tfsOpCodeWrite ≠ tfsOpCodeMount)
  | read fhandle len => exact (by decide : tfsOpCodeRead ≠ tfsOpCodeMount)
  | shutdown => exact (by decide : tfsOpCodeShutdownAfterAllClosed ≠ tfsOpCodeMount)

theorem ApiCall.eq_mount {call : ApiCall} (h : call.isMount = true) :
    ∃ path, call = .mount path := by
  cases call with
  | mount path => exact ⟨path, rfl⟩
  | unmount => cases h
  | «open» name flags => cases h
  | close fhandle => cases h
  | write fhandle buffer => cases h
  | read fhandle len => cases h
  | shutdown => cases h

theorem Request.bytes_of_not_mount {r : Request} (hm : r.call.isMount = false)
    (hwf : r.call.WellFormed) :
    r.bytes = r.call.opCode :: (intBytes sizeofInt r.sessionId ++ r.call.body) := by
  rcases r with ⟨sessionId, call⟩
  unfold Request.bytes
  cases call with
  | mount path => cases hm
  | unmount => rw [serverRequest_unmount, ApiCall.body, List.append_nil]; rfl
  | «open» name flags =>
      have hlen : name.strlen ≤ 39 := hwf
      rw [serverRequest_open (hlen.trans (by decide))]
      rfl
  | close fhandle => rw [serverRequest_close]; rfl
  | write fhandle buffer => rw [serverRequest_write]; rfl
  | read fhandle len => rw [serverRequest_read]; rfl
  | shutdown => rw [serverRequest_shutdown, ApiCall.body, List.append_nil]; rfl

theorem Request.bytes_of_mount {r : Request} {path : CString} (hm : r.call = .mount path)
    (hwf : r.call.WellFormed) : r.bytes = tfsOpCodeMount :: padded path := by
  rw [hm] at hwf
  have hlen : path.strlen ≤ 39 := hwf
  rw [Request.bytes, hm, serverRequest_mount (hlen.trans (by decide))]

/-- Bytes stored right after what the buffer holds. -/
theorem Holds.store {front : List UInt8} {offset : Nat} (h : Holds session front)
    (hoffset : front.length = offset) (body : List UInt8) :
    Holds { session with buffer := Memory.store session.buffer offset body } (front ++ body) := by
  subst hoffset
  unfold Holds at *
  conv => rhs; rw [← h]
  rw [List.length_append, ← Memory.load_store_append, Nat.zero_add]

/-- The server after session `i` was filled. -/
def Server.fill (server : Server) (i : Fin maxClients) (session : Session) : Server :=
  { server with sessions := Function.update server.sessions i session }

@[simp] theorem Server.fill_sessions (server : Server) (i : Fin maxClients) (session : Session) :
    (server.fill i session).sessions = Function.update server.sessions i session := rfl

/-- The iteration takes these bytes from the front of the pipe and posts session
`i` with them in its buffer. -/
def Posts (step : List UInt8 → List Event × Outcome Server UInt8 Stop) (server : Server)
    (i : Fin maxClients) (sessionId : Int) (taken held : List UInt8) : Prop :=
  ∃ session, session.sessionId = sessionId ∧ Holds session held ∧ ∀ rest,
    step (taken ++ rest) = ([.index (i : Nat), .post i session], .next (server.fill i session) rest)

theorem fillAndPost_posts (server : Server) (i : Fin maxClients) {front body : List UInt8}
    {offset count : Nat}
    (h : Holds session front) (hoffset : front.length = offset) (hcount : body.length = count) :
    Posts (fillAndPost server i session offset count) server i session.sessionId body
      (front ++ body) := by
  refine ⟨{ session with buffer := Memory.store session.buffer offset body }, rfl,
    h.store hoffset body, ?_⟩
  intro rest
  rw [fillAndPost, readBytes_append hcount]
  rfl

theorem receiveWrite_posts {front buffer : List UInt8} {fhandle : Int}
    (h : Holds session front) (hfront : front.length = 1 + sizeofInt)
    (hlen : buffer.length ≤ 2031) :
    Posts (receiveWrite server i session) server i session.sessionId
      (ApiCall.write fhandle buffer).body (front ++ (ApiCall.write fhandle buffer).body) := by
  have hsize : leNat (leBytes sizeofSizeT buffer.length) = buffer.length := by
    apply leNat_leBytes_of_lt
    norm_num [sizeofSizeT]
    omega
  have hroom : ¬ maxRequestSize < 1 + 2 * sizeofInt + sizeofSizeT + buffer.length := by
    simp only [maxRequestSize, sizeofInt, sizeofSizeT]
    omega
  -- the handle and the length are in the buffer before the data is read
  have hhandle := h.store hfront (intBytes sizeofInt fhandle)
  have hheader : (front ++ intBytes sizeofInt fhandle).length = 1 + 2 * sizeofInt := by
    rw [List.length_append, hfront, length_intBytes, Nat.add_assoc, ← Nat.two_mul]
  have hfields := hhandle.store hheader (leBytes sizeofSizeT buffer.length)
  have hoffset : (front ++ intBytes sizeofInt fhandle ++
      leBytes sizeofSizeT buffer.length).length = 1 + 2 * sizeofInt + sizeofSizeT := by
    rw [List.length_append, hheader, length_leBytes]
  rcases fillAndPost_posts server i hfields hoffset (rfl : buffer.length = buffer.length) with
    ⟨filled, hid, hholds, hstep⟩
  refine ⟨filled, hid, ?_, ?_⟩
  · simpa [ApiCall.body, List.append_assoc] using hholds
  · intro rest
    rw [receiveWrite, ApiCall.body, List.append_assoc, readBytes_append (length_intBytes _ _)]
    simp only [List.append_assoc]
    rw [readBytes_append (length_leBytes _ _)]
    simp only [hsize, if_neg hroom]
    exact hstep rest

theorem receiveBody_posts {call : ApiCall} {sessionId : Int} (hm : call.isMount = false)
    (hwf : call.WellFormed)
    (h : Holds session (call.opCode :: intBytes sizeofInt sessionId)) :
    Posts (receiveBody server i session call.opCode) server i session.sessionId call.body
      (call.opCode :: (intBytes sizeofInt sessionId ++ call.body)) := by
  have hheader : (call.opCode :: intBytes sizeofInt sessionId).length = 1 + sizeofInt := by
    simp [sizeofInt]
  have hfill : ∀ count, call.body.length = count →
      Posts (fillAndPost server i session (1 + sizeofInt) count) server i session.sessionId
        call.body (call.opCode :: (intBytes sizeofInt sessionId ++ call.body)) := fun count hc =>
    fillAndPost_posts server i h hheader hc
  cases call with
  | mount path => cases hm
  | unmount => exact hfill 0 rfl
  | «open» name flags =>
      have hlen : name.strlen ≤ 39 := hwf
      apply hfill
      rw [ApiCall.body, List.length_append, length_leBytes, length_padded (hlen.trans (by decide))]
  | close fhandle => exact hfill closeSizeServer (length_intBytes _ _)
  | write fhandle buffer => exact receiveWrite_posts h hheader hwf.2
  | read fhandle len =>
      apply hfill
      rw [ApiCall.body, List.length_append, length_intBytes, length_leBytes]
  | shutdown => exact hfill 0 rfl

/-- The session of the request is filled with its bytes. -/
theorem fillRequest_posts {r : Request} (server : Server) (i : Fin maxClients)
    (hm : r.call.isMount = false) (hwf : r.call.WellFormed)
    (hi : ((i : Nat) : Int) + 1 = r.sessionId) :
    Posts (fillRequest server i r.call.opCode r.sessionId) server i
      (server.sessions i).sessionId r.call.body r.bytes := by
  have hopcode : Holds { server.sessions i with
      buffer := Memory.store (server.sessions i).buffer 0 [r.call.opCode] } [r.call.opCode] := by
    have hempty : Holds (server.sessions i) [] := rfl
    exact hempty.store rfl [r.call.opCode]
  have hheader := hopcode.store rfl (intBytes sizeofInt r.sessionId)
  rcases receiveBody_posts hm hwf hheader with ⟨session, hsid, hholds, hstep⟩
  refine ⟨session, hsid, ?_, ?_⟩
  · rw [Request.bytes_of_not_mount hm hwf]
    exact hholds
  · intro rest
    have hlt := i.isLt
    rw [fillRequest, if_neg (by omega)]
    exact hstep rest

/-- The next session is filled with the bytes of a mount. -/
theorem fillMount_posts {r : Request} {path : CString} (server : Server) (i : Fin maxClients)
    (sessionId : Int) (hm : r.call = .mount path) (hwf : r.call.WellFormed)
    (hnext : server.nextSessionId ≤ 64) :
    Posts (fillMount server i sessionId) server i sessionId (padded path) r.bytes := by
  have hlen : path.strlen ≤ 39 := by
    rw [hm] at hwf
    exact hwf
  have hpath : (padded path).length = mountSizeServer := length_padded (hlen.trans (by decide))
  let opened : Session := ⟨sessionId, Memory.store (server.sessions i).buffer 0 [tfsOpCodeMount]⟩
  have hopcode : Holds opened [tfsOpCodeMount] := by
    have hempty : Holds ⟨sessionId, (server.sessions i).buffer⟩ [] := rfl
    exact hempty.store rfl [tfsOpCodeMount]
  rcases fillAndPost_posts server i hopcode rfl hpath with ⟨session, hsid, hholds, hstep⟩
  refine ⟨session, hsid, ?_, ?_⟩
  · rw [Request.bytes_of_mount hm hwf]
    exact hholds
  · intro rest
    rw [fillMount, if_neg (by omega)]
    exact hstep rest

/-- Bytes taken before the body belong to the request as well. -/
theorem Posts.after_header {step : List UInt8 → List Event × Outcome Server UInt8 Stop}
    {server server' : Server} {sessionId : Int} {front body held : List UInt8}
    (h : Posts step server' i sessionId body held)
    (hstep : ∀ rest, receive server (front ++ rest) = step rest) :
    Posts (receive server) server' i sessionId (front ++ body) held := by
  rcases h with ⟨session, hsid, hholds, hrest⟩
  refine ⟨session, hsid, hholds, ?_⟩
  intro rest
  rw [List.append_assoc, hstep, hrest]

/-- A request that is no mount is posted to the session with its id. -/
theorem receive_posts {r : Request} (server : Server) (hm : r.call.isMount = false)
    (hwf : r.call.WellFormed) (hlo : 1 ≤ r.sessionId) (hhi : r.sessionId ≤ maxClients) :
    ∃ i : Fin maxClients, ((i : Nat) : Int) + 1 = r.sessionId ∧
      Posts (receive server) server i (server.sessions i).sessionId r.bytes r.bytes := by
  have hint : IsInt r.sessionId := by
    simp only [IsInt, maxClients] at *
    omega
  cases hi : index? maxClients (r.sessionId - 1) with
  | none =>
      rcases index?_eq_none.mp hi with hneg | hbig <;> omega
  | some i =>
      have hnum := index?_eq_some.mp hi
      have hid : ((i : Nat) : Int) + 1 = r.sessionId := by omega
      refine ⟨i, hid, ?_⟩
      have hposts := fillRequest_posts server i hm hwf hid
      have hheader : ∀ rest, receive server
          ((r.call.opCode :: intBytes sizeofInt r.sessionId) ++ rest) =
            fillRequest server i r.call.opCode r.sessionId rest := by
        intro rest
        rw [List.cons_append, receive, if_neg (ApiCall.opCode_ne_mount hm), receiveRequest,
          readBytes_append (length_intBytes _ _)]
        simp only [leInt_int hint, hi]
      have hreceive := hposts.after_header hheader
      rw [List.cons_append, ← Request.bytes_of_not_mount hm hwf] at hreceive
      exact hreceive

/-- A request with another session id indexes the array outside its bounds, and only its operation
code and its id are read. -/
theorem receive_out_of_range {r : Request} (server : Server) (hm : r.call.isMount = false)
    (hwf : r.call.WellFormed) (hint : IsInt r.sessionId)
    (hout : ¬ (1 ≤ r.sessionId ∧ r.sessionId ≤ maxClients)) (rest : List UInt8) :
    receive server (r.bytes ++ rest) =
      ([.index (r.sessionId - 1)], .next server (r.call.body ++ rest)) := by
  have hnone : index? maxClients (r.sessionId - 1) = none := by
    rw [index?_eq_none]
    omega
  rw [Request.bytes_of_not_mount hm hwf, List.cons_append, List.append_assoc, receive,
    if_neg (ApiCall.opCode_ne_mount hm), receiveRequest, readBytes_append (length_intBytes _ _)]
  simp only [leInt_int hint, hnone]

/-- A mount is posted to the next session. -/
theorem receive_mount_posts {r : Request} (server : Server) (hm : r.call.isMount = true)
    (hwf : r.call.WellFormed) (hlo : 1 ≤ server.nextSessionId) (hhi : server.nextSessionId ≤ 63) :
    ∃ i : Fin maxClients, ((i : Nat) : Int) + 1 = server.nextSessionId ∧
      Posts (receive server) { server with nextSessionId := server.nextSessionId + 1 } i
        server.nextSessionId r.bytes r.bytes := by
  rcases ApiCall.eq_mount hm with ⟨path, hpath⟩
  cases hi : index? maxClients (server.nextSessionId - 1) with
  | none =>
      rcases index?_eq_none.mp hi with hneg | hbig
      · omega
      · simp only [maxClients] at hbig
        omega
  | some i =>
      have hnum := index?_eq_some.mp hi
      refine ⟨i, by omega, ?_⟩
      have hroom : server.nextSessionId + 1 ≤ 64 := by omega
      have hposts := fillMount_posts { server with nextSessionId := server.nextSessionId + 1 } i
        server.nextSessionId hpath hwf hroom
      have hheader : ∀ rest, receive server ([tfsOpCodeMount] ++ rest) =
          fillMount { server with nextSessionId := server.nextSessionId + 1 } i
            server.nextSessionId rest := by
        intro rest
        rw [List.singleton_append, receive, if_pos rfl, receiveMount]
        simp only [hi]
      have hreceive := hposts.after_header hheader
      rw [List.singleton_append, ← Request.bytes_of_mount hpath hwf] at hreceive
      exact hreceive

end TecnicoFS.Part2
