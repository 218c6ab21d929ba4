import TecnicoFS.Lib.Pipe
import TecnicoFS.Lib.Machine
import TecnicoFS.Part2.Operations
import TecnicoFS.Part2.Receiver

/-!
# Part 2: the replies (`fs/tfs_server.c`, `client/tecnicofs_client_api.c`)

The handler of a request writes its answer to the pipe of the client, and the
client reads it. The answer to a read is two writes on the server's side, the
result and the bytes, and two reads on the client's: the first of the size of the
result, the second of the length the client asked for. The client holds its pipe open
for writing, so a read of an empty pipe blocks and never sees its end.

POSIX puts a write of at most `PIPE_BUF` bytes on a pipe in one piece. A longer one, which only a
read from behind the end of its file asks for, may arrive in several, and the second read of the
client takes no more than the first of them.
-/

namespace TecnicoFS.Part2

/-- `sizeof(ssize_t)`. -/
abbrev sizeofSsizeT : Nat := 8

/-- `PIPE_BUF`. -/
abbrev pipeBuf : Nat := 4096

/-- What the code leaves to the system: whether `malloc` finds the memory, the pieces in
which the pipe takes more than `PIPE_BUF` bytes, the pieces that a `write` past the end of
its buffer transfers before it fails, and what an uninitialised result of the client holds. -/
structure System where
  malloc : Nat → Bool
  pieces : List UInt8 → List (List UInt8)
  pieces_flatten : ∀ bytes, (pieces bytes).flatten = bytes
  pieces_ne_nil : ∀ bytes, [] ∉ pieces bytes
  oversized : List (List UInt8)
  stack : List UInt8

/-- The pieces in which the pipe takes some bytes. -/
def System.chunks (sys : System) (bytes : List UInt8) : List (List UInt8) :=
  if bytes = [] then [] else if bytes.length ≤ pipeBuf then [bytes] else sys.pieces bytes

/-- The pipe takes the bytes in one piece. -/
def System.InOnePiece (sys : System) (bytes : List UInt8) : Prop :=
  bytes.length ≤ pipeBuf ∨ sys.pieces bytes = [bytes]

theorem System.InOnePiece.chunks {sys : System} {bytes : List UInt8} (h : sys.InOnePiece bytes) :
    sys.chunks bytes = if bytes = [] then [] else [bytes] := by
  unfold System.chunks
  rcases h with hshort | hone
  · rw [if_pos hshort]
  · rw [hone, ite_self]

/-- More than one piece: the first of them is not empty, and others follow. -/
theorem System.chunks_of_not_inOnePiece {sys : System} {bytes : List UInt8}
    (h : ¬ sys.InOnePiece bytes) : ∃ first next rest, sys.chunks bytes = first :: next :: rest ∧
      first ≠ [] := by
  have hlong : ¬ bytes.length ≤ pipeBuf := fun hle => h (Or.inl hle)
  have hne : bytes ≠ [] := by
    rintro rfl
    exact hlong (Nat.zero_le _)
  have hflatten := sys.pieces_flatten bytes
  have hpieces := sys.pieces_ne_nil bytes
  rw [System.chunks, if_neg hne, if_neg hlong]
  cases hcase : sys.pieces bytes with
  | nil =>
      rw [hcase] at hflatten
      exact absurd hflatten.symm hne
  | cons first others =>
      rw [hcase] at hflatten hpieces
      cases others with
      | nil =>
          rw [List.flatten_singleton] at hflatten
          exact absurd (Or.inr (hflatten ▸ hcase)) h
      | cons next rest =>
          exact ⟨first, next, rest, rfl, fun hnil => hpieces (hnil ▸ List.mem_cons_self)⟩

/-! ## The handlers -/

/-- The writes of a handler, and whether the server exits after them. -/
structure Reply where
  chunks : List (List UInt8)
  exits : Bool

/-- What the handlers share. -/
structure Backend where
  fs : FS
  nextSessionId : Int
  shutdownCalled : Bool

/-- `write(session->tx, &failure_code, sizeof(int))`. -/
def failureCode : List UInt8 := intBytes sizeofInt (-1)

variable (sys : System) (backend : Backend)

/-- `write_buffer` (`fs/state.c`) on the bytes of a buffer: the writes, and whether
they succeed. -/
def writeBuffer (buffer : List UInt8) (toWrite : Nat) : List (List UInt8) × Bool :=
  if toWrite ≤ buffer.length then (sys.chunks (buffer.take toWrite), true)
  else (sys.oversized, false)

/-- A mount: the number it gets, or no answer. `handle_too_many_clients` answers
on a pipe it names from the old contents of the buffer. -/
def caseMountReply : Option (Reply × Backend) :=
  match index? maxClients (backend.nextSessionId - 1) with
  | none => none
  | some _ =>
      let backend' := { backend with nextSessionId := backend.nextSessionId + 1 }
      if 64 < backend'.nextSessionId then some (⟨[], false⟩, backend')
      else some (⟨[intBytes sizeofInt backend.nextSessionId], false⟩, backend')

/-- `case_unmount`. -/
def caseUnmountReply : Option (Reply × Backend) :=
  some (⟨[intBytes sizeofInt 0], false⟩, backend)

/-- `_tfs_open_unsynchronized` on the name in the buffer of `case_open`. There `name + 1` of the
empty name is a string too: the client has filled the buffer with zeros, so it is empty, and
`add_dir_entry` refuses it. -/
def openInBuffer (fs : FS) (name : CString) (flags : BitVec 32) : Int × FS :=
  match tfsOpenUnsynchronized fs name flags with
  | some out => out
  | none =>
      match inodeCreate fs .tFile with
      | (inum, fs') => (-1, (inodeDelete fs' inum).2)

/-- `tfs_open` on that name. -/
def tfsOpenInBuffer (fs : FS) (name : CString) (flags : BitVec 32) : Int × FS :=
  if fs.openFlag = 0 then (-1, fs) else openInBuffer fs name flags

/-- `case_open`. -/
def caseOpenReply (name : CString) (flags : BitVec 32) : Option (Reply × Backend) :=
  match tfsOpenInBuffer backend.fs name flags with
  | (callRet, fs') => some (⟨[intBytes sizeofInt callRet], false⟩, { backend with fs := fs' })

/-- `case_close`. -/
def caseCloseReply (fhandle : Int) : Option (Reply × Backend) :=
  match tfsClose backend.fs fhandle with
  | (ret, fs') => some (⟨[intBytes sizeofInt ret], false⟩, { backend with fs := fs' })

/-- `case_write`. -/
def caseWriteReply (fhandle : Int) (buffer : List UInt8) : Option (Reply × Backend) :=
  if sys.malloc buffer.length then
    match tfsWrite backend.fs fhandle buffer with
    | none => none
    | some (ret, fs') => some (⟨[intBytes sizeofSsizeT ret], false⟩, { backend with fs := fs' })
  else some (⟨[failureCode], true⟩, backend)

/-- `case_read`: the count of the second write is the result cast to `size_t`. -/
def caseReadReply (fhandle : Int) (len : Nat) : Option (Reply × Backend) :=
  if sys.malloc len then
    match tfsRead backend.fs fhandle len with
    | none => none
    | some ((ret, buffer), fs') =>
        match writeBuffer sys buffer (ret % wordSize).toNat with
        | (chunks, true) =>
            some (⟨intBytes sizeofSsizeT ret :: chunks, false⟩, { backend with fs := fs' })
        | (chunks, false) =>
            some (⟨intBytes sizeofSsizeT ret :: (chunks ++ [failureCode]), false⟩,
              { backend with fs := fs' })
  else some (⟨[failureCode], true⟩, backend)

/-- `case_shutdown`, and the second shutdown that `thread_handler` refuses. The
first waits until no file is open. -/
def caseShutdownReply : Option (Reply × Backend) :=
  if backend.shutdownCalled then some (⟨[failureCode], false⟩, backend)
  else if backend.fs.openFilesCount = 0 then
    some (⟨[intBytes sizeofInt 0], true⟩,
      { backend with fs := { backend.fs with openFlag := 0 }, shutdownCalled := true })
  else none

/-- The handler of a call; `none` while it waits, or where it crashes. -/
def handle : ApiCall → Option (Reply × Backend)
  | .mount _ => caseMountReply backend
  | .unmount => caseUnmountReply backend
  | .open name flags => caseOpenReply backend name flags
  | .close fhandle => caseCloseReply backend fhandle
  | .write fhandle buffer => caseWriteReply sys backend fhandle buffer
  | .read fhandle len => caseReadReply sys backend fhandle len
  | .shutdown => caseShutdownReply backend

/-! ## The client -/

namespace ApiCall

/-- The counts of the reads that take the answer. -/
def replyCounts : ApiCall → List Nat
  | .mount _ => [sizeofInt]
  | .unmount => [sizeofInt]
  | .open _ _ => [sizeofInt]
  | .close _ => [sizeofInt]
  | .write _ _ => [sizeofSsizeT]
  | .read _ len => [sizeofSsizeT, len]
  | .shutdown => [sizeofInt]

/-- A number of `size` bytes after a read into it. -/
def readInto (size : Nat) (bytes : List UInt8) : Int :=
  leInt ((bytes ++ sys.stack.drop bytes.length).take size)

/-- What the call returns, and the bytes in the caller's buffer. -/
def returns : ApiCall → List (List UInt8) → Option (Int × List UInt8)
  | .mount _, [id] => some (if readInto sys sizeofInt id = -1 then -1 else 0, [])
  | .unmount, [ret] => some (if readInto sys sizeofInt ret = 0 then 0 else -1, [])
  | .open _ _, [ret] => some (readInto sys sizeofInt ret, [])
  | .close _, [ret] => some (readInto sys sizeofInt ret, [])
  | .write _ _, [ret] => some (readInto sys sizeofSsizeT ret, [])
  | .read _ _, [ret, buffer] => some (readInto sys sizeofSsizeT ret, buffer)
  | .shutdown, [ret] => some (readInto sys sizeofInt ret, [])
  | _, _ => none

theorem readInto_of_length {size : Nat} {bytes : List UInt8} (h : bytes.length = size) :
    readInto sys size bytes = leInt bytes := by
  rw [readInto, List.take_left' h]

end ApiCall

/-! ## The reply to a read -/

/-- What `tfs_read` returns: -1 and nothing, or as many bytes as it says. -/
theorem tfsRead_result {fs fs' : FS} {fhandle : Int} {len : Nat} {ret : Int} {payload : List UInt8}
    (h : tfsRead fs fhandle len = some ((ret, payload), fs')) :
    ret = -1 ∧ payload = [] ∨
      ret = payload.length ∧ payload.length ≤ len ∧ payload.length ≤ fsDataSize := by
  unfold tfsRead at h
  split at h
  · cases h
    exact Or.inl ⟨rfl, rfl⟩
  split at h
  · cases h
    exact Or.inl ⟨rfl, rfl⟩
  rename_i n _
  simp only at h
  split at h
  · rename_i hzero
    cases h
    refine Or.inr ⟨?_, Nat.zero_le _, Nat.zero_le _⟩
    rw [hzero]
    rfl
  split at h
  · cases h
    exact Or.inl ⟨rfl, rfl⟩
  split at h
  · cases h
  · rename_i hinside
    cases h
    right
    rw [Memory.length_load]
    refine ⟨wordToInt_of_lt ?_, Nat.min_le_right _ _, by omega⟩
    simp only [fsDataSize, blockSize, dataBlocks, wordSize] at *
    omega

/-- The exchange between the handler of a read and the client that waits for it. -/
def readExchange (reply : Reply) (fhandle : Int) (len : Nat) : Exchange UInt8 :=
  .start reply.chunks (ApiCall.read fhandle len).replyCounts

/-- The server answers a read with its result and the bytes, and the client gets
them and leaves nothing on the pipe, in whatever order the two sides run. -/
def ReadAnswered (fhandle : Int) (len : Nat) (ret : Int) (payload : List UInt8) : Prop :=
  ∃ reply backend', caseReadReply sys backend fhandle len = some (reply, backend') ∧
    reply.chunks.flatten = intBytes sizeofSsizeT ret ++ payload ∧
    (payload.length : Int) = max ret 0 ∧
    ∀ e, Relation.ReflTransGen Exchange.Step (readExchange reply fhandle len) e →
      ¬ e.Stuck ∧ (e.counts = [] → e.chunks = [] ∧ e.pipe = [] ∧
        (ApiCall.read fhandle len).returns sys e.got = some (ret, payload))

/-- The lengths the two sides work out agree: the second read of the client finds
bytes, or asks for none. -/
def LengthsAgree (len : Nat) (ret : Int) : Prop := 0 < ret ∨ ret = 0 ∧ len = 0

variable {sys backend} {fs' : FS} {fhandle : Int} {len : Nat} {ret : Int} {payload : List UInt8}

theorem caseReadReply_of_malloc (hm : sys.malloc len = true)
    (h : tfsRead backend.fs fhandle len = some ((ret, payload), fs')) :
    caseReadReply sys backend fhandle len =
      match writeBuffer sys payload (ret % wordSize).toNat with
      | (chunks, true) =>
          some (⟨intBytes sizeofSsizeT ret :: chunks, false⟩, { backend with fs := fs' })
      | (chunks, false) =>
          some (⟨intBytes sizeofSsizeT ret :: (chunks ++ [failureCode]), false⟩,
            { backend with fs := fs' }) := by
  rw [caseReadReply, if_pos hm, h]

theorem castSizeT {n : Nat} (h : n ≤ fsDataSize) : ((n : Int) % wordSize).toNat = n := by
  rw [Int.emod_eq_of_lt (Int.natCast_nonneg n)]
  · exact Int.toNat_natCast n
  · simp only [fsDataSize, blockSize, dataBlocks, wordSize] at *
    omega

/-- The second write of an answer that is no error: the bytes. -/
theorem writeBuffer_all (sys : System) (payload : List UInt8) :
    writeBuffer sys payload payload.length = (sys.chunks payload, true) := by
  rw [writeBuffer, if_pos le_rfl, List.take_length]

/-- The result is cast to a count that is past the end of every buffer. -/
theorem writeBuffer_failed (sys : System) :
    writeBuffer sys [] ((-1 : Int) % wordSize).toNat = (sys.oversized, false) := by
  rfl

theorem caseReadReply_of_count (hm : sys.malloc len = true)
    (h : tfsRead backend.fs fhandle len = some ((ret, payload), fs'))
    (hret : ret = payload.length) (hsize : payload.length ≤ fsDataSize) :
    caseReadReply sys backend fhandle len =
      some (⟨intBytes sizeofSsizeT ret :: sys.chunks payload, false⟩,
        { backend with fs := fs' }) := by
  rw [caseReadReply_of_malloc hm h]
  conv => lhs; rw [hret, castSizeT hsize, writeBuffer_all]
  rw [hret]

/-- Where the lengths agree, the counts of the client fit the writes of the server. -/
theorem read_fits (hret : ret = payload.length) (hlen : payload.length ≤ len)
    (hagrees : LengthsAgree len ret) :
    Exchange.Fits [sizeofSsizeT, len]
      (intBytes sizeofSsizeT ret :: if payload = [] then [] else [payload])
      [intBytes sizeofSsizeT ret, payload] := by
  have hne : intBytes sizeofSsizeT ret ≠ [] := by
    intro hnil
    have hlength := congrArg List.length hnil
    rw [length_intBytes] at hlength
    cases hlength
  have hrest : Exchange.Fits [len] (if payload = [] then [] else [payload]) [payload] := by
    by_cases hempty : payload = []
    · subst hempty
      have hzero : len = 0 := by
        rcases hagrees with hpos | hboth
        · rw [hret] at hpos
          exact absurd hpos (Int.lt_irrefl 0)
        · exact hboth.2
      rw [hzero, if_pos rfl]
      exact Exchange.Fits.zero Exchange.Fits.nil
    · rw [if_neg hempty]
      exact Exchange.Fits.last hempty hlen
  have hfits := Exchange.Fits.cons hne hrest
  rwa [length_intBytes] at hfits

/-- The handle names a file, and nothing is asked for, or there are bytes after its offset that the
pipe takes in one piece. -/
def Deliverable (sys : System) (fs : FS) (fhandle : Int) (len : Nat) : Prop :=
  ∃ h n, getOpenFileEntry fhandle = some h ∧
    inodeGet (fs.openFileTable h).ofInumber = some n ∧
    (len = 0 ∨ wordSub (fs.inodeTable n).iSize (fs.openFileTable h).ofOffset ≠ 0 ∧
      ∃ b, dataBlockGet (fs.inodeTable n).iDataBlock = some b ∧
        sys.InOnePiece (Memory.load fs.fsData (blockAddr b + (fs.openFileTable h).ofOffset)
          (clipRead (fs.inodeTable n).iSize (fs.openFileTable h).ofOffset len)))

theorem clipRead_eq_zero_iff {iSize ofOffset len : Nat} :
    clipRead iSize ofOffset len = 0 ↔ wordSub iSize ofOffset = 0 ∨ len = 0 := by
  rw [clipRead]
  omega

/-- Where the handle and the i-node are found, only the count and the pipe decide. -/
theorem deliverable_of_found {fs : FS} {h : Fin maxOpenFiles} {n : Fin inodeTableSize}
    (hentry : getOpenFileEntry fhandle = some h)
    (hget : inodeGet (fs.openFileTable h).ofInumber = some n) :
    Deliverable sys fs fhandle len ↔
      len = 0 ∨ wordSub (fs.inodeTable n).iSize (fs.openFileTable h).ofOffset ≠ 0 ∧
        ∃ b, dataBlockGet (fs.inodeTable n).iDataBlock = some b ∧
          sys.InOnePiece (Memory.load fs.fsData (blockAddr b + (fs.openFileTable h).ofOffset)
            (clipRead (fs.inodeTable n).iSize (fs.openFileTable h).ofOffset len)) := by
  constructor
  · rintro ⟨h', n', hentry', hget', hrest⟩
    rw [hentry] at hentry'
    cases hentry'
    rw [hget] at hget'
    cases hget'
    exact hrest
  · intro hrest
    exact ⟨h, n, hentry, hget, hrest⟩

/-- The two sides agree exactly when there is something to deliver, or nothing to ask. -/
theorem deliverable_iff {fs : FS} (h : tfsRead fs fhandle len = some ((ret, payload), fs')) :
    LengthsAgree len ret ∧ sys.InOnePiece payload ↔ Deliverable sys fs fhandle len := by
  have hfail : ¬ (LengthsAgree len (-1) ∧ sys.InOnePiece payload) := by
    rintro ⟨hpos | ⟨hzero, -⟩, -⟩ <;> omega
  unfold tfsRead at h
  split at h
  · rename_i hfile
    cases h
    refine iff_of_false hfail ?_
    rintro ⟨h, n, hentry, -⟩
    rw [hfile] at hentry
    cases hentry
  rename_i handle hfile
  split at h
  · rename_i hinode
    cases h
    refine iff_of_false hfail ?_
    rintro ⟨h, n, hentry, hget, -⟩
    rw [hfile] at hentry
    cases hentry
    rw [hinode] at hget
    cases hget
  rename_i inum hinode
  simp only at h
  rw [deliverable_of_found hfile hinode]
  split at h
  · -- at the end of the file
    rename_i hzero
    cases h
    rw [hzero, wordToInt_of_lt (by decide)]
    constructor
    · rintro ⟨hpos | ⟨-, hlen⟩, -⟩
      · omega
      · exact Or.inl hlen
    · rintro (hlen | ⟨hsome, -⟩)
      · exact ⟨Or.inr ⟨rfl, hlen⟩, Or.inl (Nat.zero_le _)⟩
      · have hlen := (clipRead_eq_zero_iff.mp hzero).resolve_left hsome
        exact ⟨Or.inr ⟨rfl, hlen⟩, Or.inl (Nat.zero_le _)⟩
  rename_i hsome
  obtain ⟨hbytes, hlen⟩ := not_or.mp (mt clipRead_eq_zero_iff.mpr hsome)
  split at h
  -- the read fails on a block that is not there
  · rename_i hblock
    cases h
    refine iff_of_false hfail ?_
    rintro (hzero | ⟨-, b, hget, -⟩)
    · exact hlen hzero
    · rw [hblock] at hget
      cases hget
  rename_i b hblock
  split at h
  · cases h
  · rename_i hinside
    cases h
    have hret : wordToInt (clipRead (fs.inodeTable inum).iSize
        (fs.openFileTable handle).ofOffset len) =
        clipRead (fs.inodeTable inum).iSize (fs.openFileTable handle).ofOffset len := by
      apply wordToInt_of_lt
      simp only [fsDataSize, blockSize, dataBlocks, wordSize] at *
      omega
    have hagrees : LengthsAgree len (wordToInt (clipRead (fs.inodeTable inum).iSize
        (fs.openFileTable handle).ofOffset len)) := Or.inl (by rw [hret]; omega)
    constructor
    · rintro ⟨-, hone⟩
      exact Or.inr ⟨hbytes, b, hblock, hone⟩
    · rintro (hzero | ⟨-, c, hc, hone⟩)
      · exact absurd hzero hlen
      · rw [hblock] at hc
        cases hc
        exact ⟨hagrees, hone⟩

theorem tfsRead_agrees {fs : FS} (h : tfsRead fs fhandle len = some ((ret, payload), fs'))
    (hagrees : LengthsAgree len ret) :
    ret = payload.length ∧ payload.length ≤ len ∧ payload.length ≤ fsDataSize := by
  rcases tfsRead_result h with ⟨rfl, -⟩ | hcount
  · rcases hagrees with hpos | ⟨hzero, -⟩ <;> omega
  · exact hcount

/-- At the end of the file only the count is written, and the second read of the client waits for
bytes that do not come. -/
theorem count_alone_stuck (hpos : 0 < len) : ∃ e, Relation.ReflTransGen Exchange.Step
      (readExchange ⟨[intBytes sizeofSsizeT ret], false⟩ fhandle len) e ∧ e.Stuck := by
  have hwrite : Exchange.Step (readExchange ⟨[intBytes sizeofSsizeT ret], false⟩ fhandle len)
      ⟨[], intBytes sizeofSsizeT ret, [sizeofSsizeT, len], []⟩ := Exchange.Step.write rfl
  have hread : Exchange.Step ⟨[], intBytes sizeofSsizeT ret, [sizeofSsizeT, len], []⟩
      ⟨[], [], [len], [intBytes sizeofSsizeT ret]⟩ := Exchange.Step.read rfl
  exact ⟨_, (Relation.ReflTransGen.single hwrite).tail hread, rfl, rfl, len, [], rfl, hpos⟩

/-- Where the pipe takes the bytes in several pieces, the second read of the client may take the
first of them only. -/
theorem pieces_left (hone : ¬ sys.InOnePiece payload) : ∃ e, Relation.ReflTransGen Exchange.Step
      (readExchange ⟨intBytes sizeofSsizeT ret :: sys.chunks payload, false⟩ fhandle len) e ∧
      e.counts = [] ∧ e.chunks ≠ [] := by
  rcases System.chunks_of_not_inOnePiece hone with ⟨first, next, rest, hchunks, hne⟩
  rw [hchunks]
  have hwrite : Exchange.Step (readExchange ⟨intBytes sizeofSsizeT ret :: first :: next :: rest,
      false⟩ fhandle len) ⟨first :: next :: rest, intBytes sizeofSsizeT ret, [sizeofSsizeT, len],
        []⟩ := Exchange.Step.write rfl
  have hread : Exchange.Step ⟨first :: next :: rest, intBytes sizeofSsizeT ret,
      [sizeofSsizeT, len], []⟩ ⟨first :: next :: rest, [], [len], [intBytes sizeofSsizeT ret]⟩ :=
    Exchange.Step.read rfl
  have hwrite' : Exchange.Step ⟨first :: next :: rest, [], [len], [intBytes sizeofSsizeT ret]⟩
      ⟨next :: rest, first, [len], [intBytes sizeofSsizeT ret]⟩ := Exchange.Step.write rfl
  have hread' : Exchange.Step ⟨next :: rest, first, [len], [intBytes sizeofSsizeT ret]⟩
      ⟨next :: rest, first.drop len, [], [intBytes sizeofSsizeT ret, first.take len]⟩ :=
    Exchange.Step.read (if_neg fun hboth => hne hboth.2)
  exact ⟨_, (((Relation.ReflTransGen.single hwrite).tail hread).tail hwrite').tail hread', rfl,
    List.cons_ne_nil _ _⟩

/-- A read is answered exactly when the buffer is there, the lengths agree and the pipe takes the
bytes in one piece. -/
theorem readAnswered_iff (sys : System) (backend : Backend) (fs' : FS) (fhandle : Int) (len : Nat)
    (ret : Int) (payload : List UInt8)
    (h : tfsRead backend.fs fhandle len = some ((ret, payload), fs')) :
    ReadAnswered sys backend fhandle len ret payload ↔
      sys.malloc len = true ∧ LengthsAgree len ret ∧ sys.InOnePiece payload := by
  constructor
  · rintro ⟨reply, backend', hreply, hbytes, -, hruns⟩
    have hlength := congrArg List.length hbytes
    rw [List.length_append, length_intBytes] at hlength
    by_cases hm : sys.malloc len = true
    · refine ⟨hm, ?_⟩
      rcases tfsRead_result h with ⟨rfl, rfl⟩ | ⟨hret, hlen, hsize⟩
      · -- the failure code follows the result
        exfalso
        rw [caseReadReply_of_malloc hm h, writeBuffer_failed] at hreply
        cases hreply
        simp only [List.flatten_cons, List.flatten_append, List.flatten_nil, List.length_append,
          List.length_nil, failureCode, length_intBytes, sizeofInt, sizeofSsizeT] at hlength
        omega
      rw [caseReadReply_of_count hm h hret hsize] at hreply
      cases hreply
      constructor
      · by_contra hagrees
        unfold LengthsAgree at hagrees
        have hempty : payload = [] := by
          apply List.length_eq_zero_iff.mp
          omega
        have hpos : 0 < len := by
          subst hempty
          rw [hret] at hagrees
          by_contra hzero
          exact hagrees (Or.inr ⟨rfl, by omega⟩)
        rw [hempty, System.chunks, if_pos rfl] at hruns
        rcases count_alone_stuck hpos with ⟨e, hrun, hstuck⟩
        exact (hruns e hrun).1 hstuck
      · by_contra hone
        rcases @pieces_left sys fhandle len ret payload hone with ⟨e, hrun, hdone, hleft⟩
        exact hleft ((hruns e hrun).2 hdone).1
    · exfalso
      rw [caseReadReply, if_neg hm] at hreply
      cases hreply
      simp only [List.flatten_cons, List.flatten_nil, List.append_nil, failureCode,
        length_intBytes, sizeofInt, sizeofSsizeT] at hlength
      omega
  · rintro ⟨hm, hagrees, hone⟩
    rcases tfsRead_agrees h hagrees with ⟨hret, hlen, hsize⟩
    have hreply := caseReadReply_of_count hm h hret hsize
    rw [hone.chunks] at hreply
    refine ⟨_, _, hreply, ?_, by omega, ?_⟩
    · dsimp only
      split
      · rw [‹payload = []›]
        rfl
      · simp only [List.flatten_cons, List.flatten_nil, List.append_nil]
    · intro e hrun
      have htrack := (read_fits hret hlen hagrees).onTrack.steps hrun
      refine ⟨htrack.not_stuck, ?_⟩
      intro hdone
      rcases htrack.done hdone with ⟨hchunks, hpipe, hgot⟩
      refine ⟨hchunks, hpipe, ?_⟩
      have hvalue : ApiCall.readInto sys sizeofSsizeT (intBytes sizeofSsizeT ret) = ret := by
        rw [ApiCall.readInto_of_length sys (length_intBytes _ _)]
        simp only [fsDataSize, blockSize, dataBlocks] at hsize
        apply leInt_intBytes
        · norm_num [sizeofSsizeT]
          omega
        · norm_num [sizeofSsizeT]
          omega
      rw [hgot, ApiCall.returns, hvalue]

end TecnicoFS.Part2
