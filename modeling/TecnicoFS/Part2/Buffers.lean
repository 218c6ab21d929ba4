import TecnicoFS.Part2.Framing

/-!
# Part 2: the request buffers (`client/tecnicofs_client_api.c`, `fs/tfs_server.c`)

A request passes through two arrays of fixed size: the array the client fills and
the buffer of the session. The client copies a path whatever its length, and the
receive loop stores as many bytes as a write says it carries. Neither compares them
with the size of the array, so the arrays hold exactly for paths of up to 40 bytes
and writes of up to 2031.
-/

namespace TecnicoFS.Part2

/-! ## The array of the client -/

/-- The system calls of `tfs_mount` before it builds its request: whether the old
pipe is gone, the new one made, and both ends open. -/
structure MountCalls where
  unlinked : Bool
  made : Bool
  rxOpened : Bool
  txOpened : Bool

/-- `tfs_mount` returns before it builds its request. -/
def MountCalls.fail (calls : MountCalls) : Bool :=
  !(calls.unlinked && calls.made && calls.rxOpened && calls.txOpened)

namespace ApiCall

/-- The call is given up before anything is copied. Only a mount makes a check. -/
def rejected (calls : MountCalls) : ApiCall → Bool
  | .mount _ => calls.fail
  | _ => false

/-- The size of `server_request`, computed in `size_t`. -/
def arraySize (call : ApiCall) : Nat := call.requestSize % wordSize

/-- Every copy the call makes lands in its array. -/
def CopiesFit (sessionId : Int) (call : ApiCall) : Prop :=
  ∀ copy ∈ call.copies sessionId, copy.1 + copy.2.length ≤ call.arraySize

end ApiCall

/-! ## The buffer of the session -/

/-- Bytes stored by the receive loop: into the buffer of `sessions[session]`, from
`offset` on. -/
structure BufferStore where
  session : Int
  offset : Nat
  count : Nat

/-- The bytes land in the buffer of a session that exists. -/
def BufferStore.Fits (store : BufferStore) : Prop :=
  0 ≤ store.session ∧ store.session < maxClients ∧ store.offset + store.count ≤ maxRequestSize

/-- `sizeof(Session)`: before the buffer stand the session id and the flag (8 bytes), the mutex (40),
the condition variable (48) and the thread (8), behind it `tx` and `pipename`. -/
def sessionSize : Nat := 2168

/-- The store reaches a byte of the buffer of `sessions[j]`. -/
def BufferStore.Reaches (store : BufferStore) (j : Fin maxClients) : Prop :=
  ∃ x : Int, store.session * sessionSize + store.offset ≤ x ∧
    x < store.session * sessionSize + store.offset + store.count ∧
    ((j : Nat) : Int) * sessionSize ≤ x ∧ x < ((j : Nat) : Int) * sessionSize + maxRequestSize

/-- A store that lands in the buffer of its session reaches no other. -/
theorem BufferStore.Fits.reaches {store : BufferStore} {j : Fin maxClients} (hfits : store.Fits)
    (hreaches : store.Reaches j) : store.session = (j : Nat) := by
  rcases hfits with ⟨-, -, hroom⟩
  rcases hreaches with ⟨x, hlo, hhi, hjlo, hjhi⟩
  simp only [sessionSize, maxRequestSize] at hroom hlo hhi hjlo hjhi
  omega

/-- The stores for a mount. The path of a refused one is read elsewhere. -/
def mountStores (server : Server) : List BufferStore :=
  let session := server.nextSessionId - 1
  if 64 < server.nextSessionId + 1 then [⟨session, 0, 1⟩]
  else [⟨session, 0, 1⟩, ⟨session, 1, mountSizeServer⟩]

/-- The stores for a write: the handle, the length, and the data. -/
def writeStores (session : Int) (rest : List UInt8) : List BufferStore :=
  match readBytes sizeofInt rest with
  | none => []
  | some (_, rest1) =>
      match readBytes sizeofSizeT rest1 with
      | none => [⟨session, 1 + sizeofInt, sizeofInt⟩]
      | some (lenBytes, _) =>
          [⟨session, 1 + sizeofInt, sizeofInt⟩, ⟨session, 1 + 2 * sizeofInt, sizeofSizeT⟩,
            ⟨session, 1 + 2 * sizeofInt + sizeofSizeT, leNat lenBytes⟩]

/-- The stores for the rest of a request, by operation code. -/
def bodyStores (session : Int) (opCode : UInt8) (rest : List UInt8) : List BufferStore :=
  if opCode = tfsOpCodeOpen then [⟨session, 1 + sizeofInt, openSizeServer⟩]
  else if opCode = tfsOpCodeClose then [⟨session, 1 + sizeofInt, closeSizeServer⟩]
  else if opCode = tfsOpCodeWrite then writeStores session rest
  else if opCode = tfsOpCodeRead then [⟨session, 1 + sizeofInt, readSizeServer⟩]
  else []

/-- The stores for a request that is no mount. An id out of range is rejected before
anything is stored. -/
def requestStores (opCode : UInt8) (rest : List UInt8) : List BufferStore :=
  match readBytes sizeofInt rest with
  | none => []
  | some (idBytes, rest1) =>
      let sessionId := leInt idBytes
      if sessionId < 1 ∨ (maxClients : Int) < sessionId then []
      else
        ⟨sessionId - 1, 0, 1⟩ :: ⟨sessionId - 1, 1, sizeofInt⟩ ::
          bodyStores (sessionId - 1) opCode rest1

/-- What one iteration of the loop in `main` stores in the buffers of the sessions. -/
def receiveStores (server : Server) : List UInt8 → List BufferStore
  | [] => []
  | opCode :: rest =>
      if opCode = tfsOpCodeMount then mountStores server else requestStores opCode rest

/-! ## The stores and the loop -/

variable {server : Server}

theorem fits_of_room {session : Int} {offset count : Nat} (hlo : 0 ≤ session)
    (hhi : session < maxClients) (h : offset + count ≤ maxRequestSize) :
    (⟨session, offset, count⟩ : BufferStore).Fits := ⟨hlo, hhi, h⟩

theorem bodyStores_fit {session : Int} (hlo : 0 ≤ session) (hhi : session < maxClients)
    {opCode : UInt8} (hop : opCode ≠ tfsOpCodeWrite) (rest : List UInt8) :
    ∀ store ∈ bodyStores session opCode rest, store.Fits := by
  have hone : ∀ count ≤ 44, ∀ store ∈ [(⟨session, 1 + sizeofInt, count⟩ : BufferStore)],
      store.Fits := by
    intro count hcount store hstore
    rw [List.mem_singleton.mp hstore]
    apply fits_of_room hlo hhi
    simp only [sizeofInt, maxRequestSize]
    omega
  unfold bodyStores
  rw [if_neg hop]
  split
  · exact hone _ (by decide)
  split
  · exact hone _ (by decide)
  split
  · exact hone _ (by decide)
  · exact fun store hstore => absurd hstore List.not_mem_nil

/-- The data of a write is the only store that can leave the buffer. -/
theorem writeStores_fit_iff {session : Int} (hlo : 0 ≤ session) (hhi : session < maxClients)
    {rest handleBytes lenBytes rest1 rest2 : List UInt8}
    (hhandle : readBytes sizeofInt rest = some (handleBytes, rest1))
    (hlen : readBytes sizeofSizeT rest1 = some (lenBytes, rest2)) :
    (∀ store ∈ writeStores session rest, store.Fits) ↔
      1 + 2 * sizeofInt + sizeofSizeT + leNat lenBytes ≤ maxRequestSize := by
  have hstores : writeStores session rest = [⟨session, 1 + sizeofInt, sizeofInt⟩,
      ⟨session, 1 + 2 * sizeofInt, sizeofSizeT⟩,
      ⟨session, 1 + 2 * sizeofInt + sizeofSizeT, leNat lenBytes⟩] := by
    simp only [writeStores, hhandle, hlen]
  rw [hstores]
  simp only [List.forall_mem_cons, List.not_mem_nil, false_implies, implies_true, and_true,
    BufferStore.Fits, hlo, hhi, true_and]
  simp only [sizeofInt, sizeofSizeT, maxRequestSize]
  omega

/-- The loop stops with an overrun exactly where one of its stores leaves the buffer
of a session. -/
theorem receiveWrite_overrun_iff {session : Session} {i : Fin maxClients} {rest : List UInt8} :
    (receiveWrite server i session rest).2 = .stop .overrun ↔
      ∃ store ∈ writeStores (i : Nat) rest, ¬ store.Fits := by
  have hlt : ((i : Nat) : Int) < maxClients := by exact_mod_cast i.isLt
  have hpost : ∀ session offset count rest,
      (fillAndPost server i session offset count rest).2 ≠ .stop .overrun := by
    intro session offset count rest
    unfold fillAndPost
    split <;> simp
  cases hhandle : readBytes sizeofInt rest with
  | none => simp [receiveWrite, writeStores, hhandle]
  | some p =>
      rcases p with ⟨handleBytes, rest1⟩
      cases hlen : readBytes sizeofSizeT rest1 with
      | none =>
          simp only [receiveWrite, writeStores, hhandle, hlen, reduceCtorEq, false_iff]
          rintro ⟨store, hstore, hnot⟩
          rw [List.mem_singleton.mp hstore] at hnot
          exact hnot (fits_of_room (Int.natCast_nonneg _) hlt (by decide))
      | some q =>
          rcases q with ⟨lenBytes, rest2⟩
          have hfits := writeStores_fit_iff (Int.natCast_nonneg (i : Nat)) hlt hhandle hlen
          have hexists : (∃ store ∈ writeStores (i : Nat) rest, ¬ store.Fits) ↔
              ¬ ∀ store ∈ writeStores (i : Nat) rest, store.Fits := by
            simp only [not_forall, exists_prop]
          rw [hexists, hfits]
          simp only [receiveWrite, hhandle, hlen]
          split
          · rename_i hbig
            simp only [true_iff]
            omega
          · rename_i hroom
            refine iff_of_false (hpost _ _ _ _) ?_
            omega

/-- For a request that is no mount, on a session that exists. -/
theorem receive_overrun_iff {opCode : UInt8} (hop : opCode ≠ tfsOpCodeMount) (rest : List UInt8) :
    (receive server (opCode :: rest)).2 = .stop .overrun ↔
      ∃ store ∈ receiveStores server (opCode :: rest), ¬ store.Fits := by
  have hpost : ∀ i session offset count rest,
      (fillAndPost server i session offset count rest).2 ≠ .stop .overrun := by
    intro i session offset count rest
    unfold fillAndPost
    split <;> simp
  rw [receive, if_neg hop, receiveStores, if_neg hop]
  -- both sides stop reading at the same places
  unfold receiveRequest requestStores
  cases hid : readBytes sizeofInt rest with
  | none => simp
  | some p =>
      rcases p with ⟨idBytes, rest1⟩
      simp only
      cases hi : index? maxClients (leInt idBytes - 1) with
      | none =>
          have hout : leInt idBytes < 1 ∨ (maxClients : Int) < leInt idBytes := by
            rcases index?_eq_none.mp hi with hneg | hbig
            · left
              omega
            · right
              omega
          rw [if_pos hout]
          simp
      | some i =>
          have hnum := index?_eq_some.mp hi
          have hlt : ((i : Nat) : Int) < maxClients := by exact_mod_cast i.isLt
          have hin : ¬ (leInt idBytes < 1 ∨ (maxClients : Int) < leInt idBytes) := by omega
          have hopcode := fits_of_room (Int.natCast_nonneg (i : Nat)) hlt
            (show 0 + 1 ≤ maxRequestSize by decide)
          have hsession := fits_of_room (Int.natCast_nonneg (i : Nat)) hlt
            (show 1 + sizeofInt ≤ maxRequestSize by decide)
          simp only [if_neg hin, hnum, List.exists_mem_cons_iff, hopcode, hsession,
            not_true_eq_false, false_or, fillRequest]
          -- only a write brings a length of its own
          by_cases hw : opCode = tfsOpCodeWrite
          · subst hw
            exact receiveWrite_overrun_iff
          · have hfit := bodyStores_fit (Int.natCast_nonneg (i : Nat)) hlt hw rest1
            refine iff_of_false ?_ ?_
            · unfold receiveBody
              rw [if_neg hw]
              repeat' split
              all_goals first | exact hpost _ _ _ _ _ | simp
            · rintro ⟨store, hstore, hnot⟩
              exact hnot (hfit store hstore)

/-! ## A call of the client -/

/-- The call is rejected, or the client and the server stay inside their arrays while
they handle it. -/
def RequestWithin (server : Server) (calls : MountCalls) (sessionId : Int) (call : ApiCall) :
    Prop :=
  call.rejected calls = true ∨
    call.CopiesFit sessionId ∧
      ∀ store ∈ receiveStores server (serverRequest sessionId call), store.Fits

/-- What keeps a call inside the arrays: a path fits its field, a mount gets a session
that exists, and a write on a session that exists carries at most 2031 bytes. On any
other session nothing is stored, and only the size of the array must not wrap. -/
def KeepsWithin (server : Server) (sessionId : Int) : ApiCall → Prop
  | .mount path =>
      path.strlen ≤ bufferSize ∧ 1 ≤ server.nextSessionId ∧ server.nextSessionId ≤ maxClients
  | .open name _ => name.strlen ≤ bufferSize
  | .write _ buffer =>
      if 1 ≤ sessionId ∧ sessionId ≤ maxClients then buffer.length ≤ 2031
      else 1 + 2 * sizeofInt + buffer.length + sizeofSizeT < wordSize
  | _ => True

variable {sessionId fhandle : Int} {path name : CString} {buffer : List UInt8}

theorem copiesFit_mount_iff : (ApiCall.mount path).CopiesFit sessionId ↔
    path.strlen ≤ bufferSize := by
  have hsize : (ApiCall.mount path).arraySize = 41 := by
    rw [ApiCall.arraySize, ApiCall.requestSize]
    decide
  simp only [ApiCall.CopiesFit, hsize, ApiCall.copies, List.forall_mem_cons, List.not_mem_nil,
    false_implies, implies_true, and_true, List.length_singleton, List.length_replicate,
    CString.strlen, bufferSize]
  omega

theorem copiesFit_open_iff {flags : BitVec 32} : (ApiCall.open name flags).CopiesFit sessionId ↔
    name.strlen ≤ bufferSize := by
  have hsize : (ApiCall.open name flags).arraySize = 49 := by
    rw [ApiCall.arraySize, ApiCall.requestSize]
    decide
  simp only [ApiCall.CopiesFit, hsize, ApiCall.copies, List.forall_mem_cons, List.not_mem_nil,
    false_implies, implies_true, and_true, List.length_singleton, List.length_replicate,
    length_intBytes, length_leBytes, CString.strlen, bufferSize, sizeofInt]
  omega

theorem copiesFit_write_iff : (ApiCall.write fhandle buffer).CopiesFit sessionId ↔
    1 + 2 * sizeofInt + buffer.length + sizeofSizeT < wordSize := by
  have hsize : (ApiCall.write fhandle buffer).arraySize =
      (1 + 2 * sizeofInt + buffer.length + sizeofSizeT) % wordSize := rfl
  have hpos : 0 < wordSize := by decide
  have hmod := Nat.mod_lt (1 + 2 * sizeofInt + buffer.length + sizeofSizeT) hpos
  simp only [ApiCall.CopiesFit, hsize, ApiCall.copies, List.forall_mem_cons, List.not_mem_nil,
    false_implies, implies_true, and_true, List.length_singleton, length_intBytes,
    length_leBytes, sizeofInt, sizeofSizeT] at *
  constructor
  · intro h
    omega
  · intro hlt
    rw [Nat.mod_eq_of_lt hlt]
    omega

/-- What is stored for the bytes of a request, by its session id. -/
theorem receiveStores_of_bytes (hint : IsInt sessionId) {opCode : UInt8}
    (hop : opCode ≠ tfsOpCodeMount) (body : List UInt8) :
    receiveStores server (opCode :: (intBytes sizeofInt sessionId ++ body)) =
      if sessionId < 1 ∨ (maxClients : Int) < sessionId then []
      else ⟨sessionId - 1, 0, 1⟩ :: ⟨sessionId - 1, 1, sizeofInt⟩ ::
        bodyStores (sessionId - 1) opCode body := by
  rw [receiveStores, if_neg hop, requestStores, readBytes_append (length_intBytes _ _)]
  simp only [leInt_int hint]

/-- All stores of a request fit where those of its body do. -/
theorem stores_fit_iff (hint : IsInt sessionId) {opCode : UInt8}
    (hop : opCode ≠ tfsOpCodeMount) (body : List UInt8) :
    (∀ store ∈ receiveStores server (opCode :: (intBytes sizeofInt sessionId ++ body)),
        store.Fits) ↔
      (1 ≤ sessionId ∧ sessionId ≤ maxClients →
        ∀ store ∈ bodyStores (sessionId - 1) opCode body, store.Fits) := by
  rw [receiveStores_of_bytes hint hop]
  by_cases hout : sessionId < 1 ∨ (maxClients : Int) < sessionId
  · rw [if_pos hout]
    refine iff_of_true (fun store hstore => absurd hstore List.not_mem_nil) fun hin => ?_
    omega
  · have hin : 1 ≤ sessionId ∧ sessionId ≤ maxClients := by omega
    have hlo : 0 ≤ sessionId - 1 := by omega
    have hhi : sessionId - 1 < maxClients := by omega
    have hopcode := fits_of_room hlo hhi (show 0 + 1 ≤ maxRequestSize by decide)
    have hsession := fits_of_room hlo hhi (show 1 + sizeofInt ≤ maxRequestSize by decide)
    rw [if_neg hout, List.forall_mem_cons, List.forall_mem_cons]
    simp only [hopcode, hsession, true_and, hin, and_self, true_implies]

/-- The stores of every request but a mount and a write fit. -/
theorem stores_fit (hint : IsInt sessionId) {opCode : UInt8} (hop : opCode ≠ tfsOpCodeMount)
    (hwrite : opCode ≠ tfsOpCodeWrite) (body : List UInt8) :
    ∀ store ∈ receiveStores server (opCode :: (intBytes sizeofInt sessionId ++ body)),
      store.Fits := by
  rw [stores_fit_iff hint hop]
  intro hin
  exact bodyStores_fit (by omega) (by omega) hwrite body

theorem stores_fit_mount_iff (hpath : path.strlen ≤ bufferSize) :
    (∀ store ∈ receiveStores server (serverRequest sessionId (.mount path)), store.Fits) ↔
      1 ≤ server.nextSessionId ∧ server.nextSessionId ≤ maxClients := by
  rw [serverRequest_mount hpath, receiveStores, if_pos rfl, mountStores]
  split
  · simp only [List.forall_mem_cons, List.not_mem_nil, false_implies, implies_true, and_true,
      BufferStore.Fits, maxClients, maxRequestSize]
    omega
  · simp only [List.forall_mem_cons, List.not_mem_nil, false_implies, implies_true, and_true,
      BufferStore.Fits, maxClients, maxRequestSize, mountSizeServer, bufferSize]
    omega

theorem stores_fit_write_iff (hint : IsInt sessionId)
    (hsize : 1 + 2 * sizeofInt + buffer.length + sizeofSizeT < wordSize) :
    (∀ store ∈ receiveStores server (serverRequest sessionId (.write fhandle buffer)),
        store.Fits) ↔
      (1 ≤ sessionId ∧ sessionId ≤ maxClients → buffer.length ≤ 2031) := by
  rw [serverRequest_write, stores_fit_iff hint (by decide)]
  refine forall_congr' fun hin => ?_
  have hhandle : readBytes sizeofInt (intBytes sizeofInt fhandle ++
      (leBytes sizeofSizeT buffer.length ++ buffer)) =
        some (intBytes sizeofInt fhandle, leBytes sizeofSizeT buffer.length ++ buffer) :=
    readBytes_append (length_intBytes _ _)
  have hlen : readBytes sizeofSizeT (leBytes sizeofSizeT buffer.length ++ buffer) =
      some (leBytes sizeofSizeT buffer.length, buffer) := readBytes_append (length_leBytes _ _)
  have hcount : leNat (leBytes sizeofSizeT buffer.length) = buffer.length := by
    apply leNat_leBytes_of_lt
    simp only [wordSize, sizeofInt, sizeofSizeT] at *
    omega
  rw [show bodyStores (sessionId - 1) tfsOpCodeWrite _ = writeStores (sessionId - 1) _ from rfl,
    writeStores_fit_iff (by omega) (by omega) hhandle hlen, hcount]
  simp only [sizeofInt, sizeofSizeT, maxRequestSize]
  omega

/-- The arrays hold exactly for the calls that keep within them, and for mounts that
fail before the request is built. -/
theorem request_within_iff (server : Server) (calls : MountCalls) (sessionId : Int)
    (call : ApiCall) (hint : IsInt sessionId) :
    RequestWithin server calls sessionId call ↔
      call.rejected calls = true ∨ KeepsWithin server sessionId call := by
  refine or_congr_right ?_
  cases call with
  | mount path =>
      rw [copiesFit_mount_iff, KeepsWithin]
      exact and_congr_right fun hpath => stores_fit_mount_iff hpath
  | unmount =>
      have hcopies : ApiCall.unmount.CopiesFit sessionId := by
        have hsize : ApiCall.unmount.arraySize = 5 := by decide
        simp [ApiCall.CopiesFit, hsize, ApiCall.copies, sizeofInt]
      have hbytes : ∀ store ∈ receiveStores server
          (tfsOpCodeUnmount :: (intBytes sizeofInt sessionId ++ [])), store.Fits :=
        stores_fit hint (by decide) (by decide) []
      rw [List.append_nil] at hbytes
      rw [serverRequest_unmount]
      exact iff_of_true ⟨hcopies, hbytes⟩ trivial
  | «open» name flags =>
      rw [copiesFit_open_iff, KeepsWithin]
      refine and_iff_left_of_imp fun hname => ?_
      rw [serverRequest_open hname]
      exact stores_fit hint (by decide) (by decide) _
  | close fhandle =>
      have hcopies : (ApiCall.close fhandle).CopiesFit sessionId := by
        have hsize : (ApiCall.close fhandle).arraySize = 9 := by
          rw [ApiCall.arraySize, ApiCall.requestSize]
          decide
        simp [ApiCall.CopiesFit, hsize, ApiCall.copies, sizeofInt]
      rw [serverRequest_close]
      exact iff_of_true ⟨hcopies, stores_fit hint (by decide) (by decide) _⟩ trivial
  | write fhandle buffer =>
      rw [copiesFit_write_iff, KeepsWithin]
      -- on a session of the server the buffer is the bound, elsewhere the size computed
      constructor
      · rintro ⟨hsize, hstores⟩
        rw [stores_fit_write_iff hint hsize] at hstores
        split
        · rename_i hin
          exact hstores hin
        · exact hsize
      · intro hkeeps
        split at hkeeps
        · have hsize : 1 + 2 * sizeofInt + buffer.length + sizeofSizeT < wordSize := by
            simp only [sizeofInt, sizeofSizeT, wordSize]
            omega
          exact ⟨hsize, (stores_fit_write_iff hint hsize).mpr fun _ => hkeeps⟩
        · rename_i hout
          exact ⟨hkeeps, (stores_fit_write_iff hint hkeeps).mpr fun hin => absurd hin hout⟩
  | read fhandle len =>
      have hcopies : (ApiCall.read fhandle len).CopiesFit sessionId := by
        have hsize : (ApiCall.read fhandle len).arraySize = 17 := by
          rw [ApiCall.arraySize, ApiCall.requestSize]
          decide
        simp [ApiCall.CopiesFit, hsize, ApiCall.copies, sizeofInt, sizeofSizeT]
      rw [serverRequest_read]
      exact iff_of_true ⟨hcopies, stores_fit hint (by decide) (by decide) _⟩ trivial
  | shutdown =>
      have hcopies : ApiCall.shutdown.CopiesFit sessionId := by
        have hsize : ApiCall.shutdown.arraySize = 5 := by decide
        simp [ApiCall.CopiesFit, hsize, ApiCall.copies, sizeofInt]
      have hbytes : ∀ store ∈ receiveStores server
          (tfsOpCodeShutdownAfterAllClosed :: (intBytes sizeofInt sessionId ++ [])), store.Fits :=
        stores_fit hint (by decide) (by decide) []
      rw [List.append_nil] at hbytes
      rw [serverRequest_shutdown]
      exact iff_of_true ⟨hcopies, hbytes⟩ trivial

/-- A write of two bytes on session 1. -/
theorem request_within_two_bytes :
    RequestWithin startSessions ⟨true, true, true, true⟩ 1 (.write 0 [104, 105]) ↔
      (ApiCall.write 0 [104, 105]).rejected ⟨true, true, true, true⟩ = true ∨
        KeepsWithin startSessions 1 (.write 0 [104, 105]) :=
  request_within_iff startSessions ⟨true, true, true, true⟩ 1 (.write 0 [104, 105])
    (by norm_num [IsInt])

/-- A write of 2032 bytes on session 1: the last byte is stored behind the buffer. -/
theorem not_request_within_2032 : ¬ RequestWithin startSessions ⟨true, true, true, true⟩ 1
    (.write 0 (List.replicate 2032 0)) := by
  rintro (hrejected | ⟨-, hstores⟩)
  · cases hrejected
  · have hint : IsInt 1 := by norm_num [IsInt]
    rw [stores_fit_write_iff hint (by
      simp only [List.length_replicate, sizeofInt, sizeofSizeT, wordSize]
      norm_num)] at hstores
    have hlen := hstores (by decide)
    rw [List.length_replicate] at hlen
    omega

end TecnicoFS.Part2
